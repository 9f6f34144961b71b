import Darwin.Pdisk.MapSound

/-! # The map is resized

`resize_map` deletes the entry of the map and adds it again. Its own test is on the new size, the test
of the addition on the limit that was set when the map was made; where the second fails the entry is
gone.
-/
namespace Darwin.Pdisk
open Darwin.Lib List

namespace PartitionMap

/-- A smaller map whose rest becomes an entry of its own, one more than the limit. -/
def LosesMap (m : PartitionMap) (newSize : ℤ) : Prop :=
  ∃ e ∈ m.baseOrder, e.data.type = kMapType ∧ m.nextFree e = false ∧ toU32 newSize < e.data.pblocks ∧
    m.blocksInMap + 1 ≤ newSize ∧ m.maximumInMap < m.blocksInMap + 1

/-- The partitions that are neither free nor of the map itself. -/
def others (m : PartitionMap) : List Dpme :=
  (m.baseOrder.map Entry.data).filter (fun d => d.type ≠ kFreeType ∧ d.type ≠ kMapType)

/-- The map has the new size. -/
structure Resized (m : PartitionMap) (newSize : ℤ) (m' : PartitionMap) : Prop where
  linked : m'.Linked
  tiled : m'.Tiled
  numbered : m'.Numbered
  maximum : m'.maximumInMap = m.maximumInMap
  others : m'.others = m.others
  whole : ∃ e rest, m'.baseOrder = e :: rest ∧ e.data.type = kMapType ∧ e.data.pblockStart = 1 ∧
    e.data.pblocks = toU32 newSize ∧ ∀ x ∈ rest, x.data.type ≠ kMapType

section lists
variable {l l' : List Entry}

theorem filter_others_nil (h : ∀ x ∈ l, x.data.type = kFreeType ∨ x.data.type = kMapType) :
    (l.map Entry.data).filter (fun d => d.type ≠ kFreeType ∧ d.type ≠ kMapType) = [] := by
  refine filter_eq_nil_iff.mpr (fun d hd => ?_)
  obtain ⟨x, hx, rfl⟩ := mem_map.mp hd
  rw [decide_eq_true_eq]
  rintro ⟨hfree, hmap⟩
  exact (h x hx).elim hfree hmap

theorem others_append {m : PartitionMap} (h : m.baseOrder = l ++ l')
    (hl : ∀ x ∈ l, x.data.type = kFreeType ∨ x.data.type = kMapType) :
    m.others = (l'.map Entry.data).filter (fun d => d.type ≠ kFreeType ∧ d.type ≠ kMapType) := by
  rw [PartitionMap.others, h, map_append, filter_append, filter_others_nil hl, nil_append]

end lists

section replace
variable {m : PartitionMap} {e : Entry} {rest : List Entry} {newSize : ℤ}

theorem Sound.unmapped (h : m.Sound) (hbase : m.baseOrder = e :: rest) :
    ∃ m₂ behind post d,
      (m.setData e.address { e.data with type := [] }).deletePartitionFromMap true e.address = m₂ ∧
      rest = behind ++ post ∧ m₂.baseOrder = ⟨e.address, d⟩ :: post ∧ m₂.Linked ∧ m₂.Tiled ∧
      SameMedium m m₂ ∧ d.type = kFreeType ∧ d.pblockStart = 1 ∧
      m₂.blocksInMap = m.blocksInMap - behind.length ∧
      ((behind = [] ∧ m.nextFree e = false ∧ d.pblocks = e.data.pblocks) ∨
        ∃ p, behind = [p] ∧ p.data.type = kFreeType ∧ m.nextFree e = true ∧
          d.pblocks = e.data.pblocks + p.data.pblocks) := by
  have hsplit : m.baseOrder = [] ++ e :: rest := hbase
  have hnext : m.nextByBase e.address = rest.head? := h.linked.nextByBase hsplit
  obtain ⟨m₁, hm₁⟩ : ∃ m₁, m₁ = m.setData e.address { e.data with type := [] } := ⟨_, rfl⟩
  have hsplit₁ : m₁.baseOrder = [] ++ ⟨e.address, { e.data with type := [] }⟩ :: rest := by
    rw [hm₁]
    exact h.linked.setData_eq hsplit _
  have hlinked₁ : m₁.Linked := by
    rw [hm₁]
    exact h.linked.setData hsplit _
  have hmedium₁ : SameMedium m m₁ := by
    rw [hm₁]
    exact ⟨rfl, rfl⟩
  have hold : m.baseOrder = [] ++ [e] ++ rest := hbase
  have hnew : m₁.baseOrder = [] ++ [⟨e.address, { e.data with type := [] }⟩] ++ rest := hsplit₁
  have htiled₁ : m₁.Tiled := h.tiled.covers hmedium₁.media hold hnew (covers_same rfl rfl)
  obtain ⟨m₂, hm₂⟩ : ∃ m₂, m₂ = m₁.deletePartitionFromMap true e.address := ⟨_, rfl⟩
  have hdeleted : Deleted m₁ [] ⟨e.address, { e.data with type := [] }⟩ rest m₂ := by
    rw [hm₂]
    exact hlinked₁.delete htiled₁ hsplit₁ (show ([] : List Char) ≠ kMapType by decide)
  obtain ⟨pre', before, behind, post, d, hpre, hpost, heq, hfree, hsides, hnone, hlength, hcovers⟩ :=
    hdeleted.joined
  obtain ⟨rfl, rfl⟩ := append_eq_nil_iff.mp hpre.symm
  -- the sizes
  have htiles := h.tiled.tiles
  rw [hbase, hpost, ← cons_append, map_append] at htiles
  obtain ⟨k, hfront, -⟩ := tiles_append.mp htiles
  have hfront' : Tiles 1 k (([] ++ ⟨e.address, { e.data with type := [] }⟩ :: behind : List Entry).map
      Entry.data) := hfront
  obtain ⟨hstart, -, hstop⟩ := tiles_singleton.mp (hcovers 1 k hfront')
  have hcount := h.linked.count
  have hcount₂ := hdeleted.linked.count
  rw [hbase, hpost, length_cons, length_append] at hcount
  rw [heq, nil_append, length_cons] at hcount₂
  refine ⟨m₂, behind, post, d, hm₁ ▸ hm₂.symm, hpost, heq, hdeleted.linked, hdeleted.tiled htiled₁ hsplit₁,
    hmedium₁.trans hdeleted.medium, hfree, hstart, by omega, ?_⟩
  cases behind with
  | nil =>
    have hk : 1 + e.data.pblocks = k := hfront.2.2
    refine .inl ⟨rfl, ?_, by omega⟩
    rw [PartitionMap.nextFree, hnext]
    cases hhead : rest.head? with
    | none => rfl
    | some p => exact decide_eq_false (hnone rfl p hhead)
  | cons p behind =>
    obtain rfl : behind = [] := eq_nil_of_length_eq_zero (Nat.le_zero.mp (Nat.le_of_succ_le_succ hlength))
    have hk : 1 + e.data.pblocks + p.data.pblocks = k := hfront.2.2.2.2
    have hp : p.data.type = kFreeType := hsides p (mem_append_right _ mem_cons_self)
    refine .inr ⟨p, rfl, hp, ?_, by omega⟩
    rw [PartitionMap.nextFree, hnext, hpost]
    exact decide_eq_true hp

theorem Linked.addMap {m₂ : PartitionMap} {a : ℕ} {d : Dpme} {post : List Entry} (hlinked : m₂.Linked)
    (htiled : m₂.Tiled) (hbase : m₂.baseOrder = ⟨a, d⟩ :: post) (hfree : d.type = kFreeType)
    (hstart : d.pblockStart = 1) {size : ℕ} (hpos : 1 ≤ size) (hfits : size ≤ d.pblocks)
    (hmax : 0 ≤ m₂.maximumInMap) :
    ∃ act : AddAction, act = (if d.pblocks = size then .kReplace else .kAdd) ∧
      (m₂.overflows act →
        (m₂.addPartitionToMap (fun _ => true) "Apple".toList kMapType 1 size).1 = m₂) ∧
      (¬ m₂.overflows act → ∃ m', m₂.addPartitionToMap (fun _ => true) "Apple".toList kMapType 1 size =
          (m', true) ∧ m'.Linked ∧ m'.Tiled ∧ m'.Numbered ∧ m'.maximumInMap = m₂.maximumInMap ∧
        m'.blocksInMap = m₂.blocksInMap + act.value ∧
        ∃ p back, m'.baseOrder = ⟨p, createData "Apple".toList kMapType 1 size⟩ :: back ++ post ∧
          ∀ x ∈ back, x.data.type = kFreeType) := by
  have hmem : (⟨a, d⟩ : Entry) ∈ m₂.baseOrder := by
    rw [hbase]
    exact mem_cons_self
  have hbounds := htiled.bounds hmem
  have hmedia := htiled.media
  have hstop : d.pblockStart + d.pblocks ≤ m₂.mediaSize := hbounds.2.2
  have hfind : m₂.baseOrder.find? (fun cur => cur.data.includes 1 size) = some ⟨a, d⟩ := by
    have hincludes : d.includes 1 size = true := by
      refine (includes_iff htiled hmem).mpr ⟨Nat.le_of_eq hstart, ?_⟩
      change u32 (1 + size) ≤ d.pblockStart + d.pblocks
      rw [show u32 (1 + size) = 1 + size from Nat.mod_eq_of_lt (by omega)]
      omega
    rw [hbase]
    exact List.find?_cons_of_pos (p := fun cur : Entry => cur.data.includes 1 size) hincludes
  have hact : (addPlan d 1 size).act = if d.pblocks = size then .kReplace else .kAdd := by
    rw [addPlan_inside (by omega) (by omega) (by omega), if_pos hstart]
    by_cases hwhole : d.pblocks = size
    · rw [if_pos hwhole, if_pos hwhole]
    · rw [if_neg hwhole, if_neg hwhole]
  refine ⟨_, rfl, fun hover => ?_, fun hroom => ?_⟩
  · refine addPartitionToMap_false ?_
    rw [← Bool.not_eq_true, addPartitionToMap_true_iff]
    rintro ⟨cur, hcur, -, hnot, -⟩
    obtain rfl : ⟨a, d⟩ = cur := Option.some.inj (hfind.symm.trans hcur)
    exact hnot (hact ▸ hover)
  · rw [← hact] at hroom ⊢
    have hsplit : m₂.baseOrder = [] ++ ⟨a, d⟩ :: post := hbase
    obtain ⟨m', heq, hplaced, hnumbered⟩ := @Linked.add m₂ ⟨a, d⟩ "Apple".toList kMapType 1 size [] post
      hlinked htiled hsplit hfind hfree hroom hpos (by omega)
    obtain ⟨front, p, back, hpieces, hsides, -, hfirst, -⟩ := hplaced.pieces
    obtain rfl : front = [] := hfirst hstart
    refine ⟨m', heq, hplaced.linked, hplaced.tiled htiled hsplit, hnumbered, ?_,
      hplaced.blocks hlinked hsplit, p, back, hpieces, fun x hx => hsides x hx⟩
    rw [hplaced.maximum, if_neg (fun hboth => by omega)]

theorem Sound.replace_lost (h : m.Sound) (hbase : m.baseOrder = e :: rest)
    (hrest : ∀ x ∈ rest, x.data.type ≠ kMapType)
    (hpos : 1 ≤ toU32 newSize) (hnext : m.nextFree e = false) (hsmall : toU32 newSize < e.data.pblocks)
    (hfull : m.maximumInMap < m.blocksInMap + 1) :
    ∀ x ∈ (m.replaceMapEntry (fun _ => true) e newSize).baseOrder, x.data.type ≠ kMapType := by
  obtain ⟨m₂, behind, post, d, hm₂, hpost, hbase₂, hlinked₂, htiled₂, hmedium₂, hfree, hstart, hblocks,
    ⟨rfl, -, hsize⟩ | ⟨p, -, -, hfree', -⟩⟩ := h.unmapped hbase
  · have hnonneg := Sound.blocks_nonneg h.linked
    have hroom := h.room
    have hmaximum := hmedium₂.maximum
    have hsame : m₂.blocksInMap = m.blocksInMap := by
      rw [hblocks, length_nil]
      omega
    obtain ⟨act, hact, hover, -⟩ := hlinked₂.addMap htiled₂ hbase₂ hfree hstart hpos (by omega) (by omega)
    rw [if_neg (by omega)] at hact
    subst hact
    have hover' : m₂.overflows .kAdd := by
      refine (overflows_iff (by omega) (by omega) (hmaximum ▸ h.bound) .kAdd).mpr ?_
      rw [hmaximum, hsame]
      exact hfull
    rw [PartitionMap.replaceMapEntry]
    dsimp only
    rw [hm₂, hover hover', hbase₂]
    intro x hx
    rcases mem_cons.mp hx with rfl | hx
    · rw [hfree]
      exact kFreeType_ne
    · refine hrest x ?_
      rw [hpost]
      exact hx
  · rw [hnext] at hfree'
    cases hfree'

theorem Sound.replace (h : m.Sound) (hbase : m.baseOrder = e :: rest)
    (hmap : e.data.type = kMapType) (hrest : ∀ x ∈ rest, x.data.type ≠ kMapType)
    (hpos : 1 ≤ toU32 newSize)
    (hnone : m.nextFree e = false → toU32 newSize < e.data.pblocks ∧
      m.blocksInMap + 1 ≤ m.maximumInMap)
    (hsome : ∀ p ∈ rest.head?, p.data.type = kFreeType →
      toU32 newSize ≤ e.data.pblocks + p.data.pblocks) :
    Resized m newSize (m.replaceMapEntry (fun _ => true) e newSize) ∧
      (m.replaceMapEntry (fun _ => true) e newSize).blocksInMap ≤
        m.blocksInMap + if m.nextFree e then 0 else 1 := by
  obtain ⟨m₂, behind, post, d, hm₂, hpost, hbase₂, hlinked₂, htiled₂, hmedium₂, hfree, hstart, hblocks,
    hcases⟩ := h.unmapped hbase
  have hnonneg := Sound.blocks_nonneg h.linked
  have hnonneg₂ := Sound.blocks_nonneg hlinked₂
  have hroom := h.room
  have hmaximum := hmedium₂.maximum
  have hfits : toU32 newSize ≤ d.pblocks := by
    rcases hcases with ⟨rfl, hnext, hsize⟩ | ⟨p, rfl, hp, -, hsize⟩
    · have hsmall := (hnone hnext).1
      omega
    · have hle := hsome p (by rw [hpost]; rfl) hp
      omega
  obtain ⟨act, hact, -, hadd⟩ := hlinked₂.addMap htiled₂ hbase₂ hfree hstart hpos hfits (by omega)
  -- the pieces are not more than before, unless there was no free partition to take from
  have hcount : m₂.blocksInMap + act.value ≤ m.blocksInMap + if m.nextFree e then 0 else 1 := by
    rcases hcases with ⟨rfl, hnext, hsize⟩ | ⟨p, rfl, -, hnext, -⟩
    · rw [if_neg (by have hsmall := (hnone hnext).1; omega)] at hact
      rw [hact, hnext, hblocks, length_nil]
      simp [AddAction.value]
    · have hone : act.value ≤ 1 := by
        rw [hact]
        by_cases hwhole : d.pblocks = toU32 newSize
        · rw [if_pos hwhole]
          decide
        · rw [if_neg hwhole]
          decide
      rw [hnext, hblocks, length_singleton, if_pos rfl]
      omega
  have hlimit : (m.blocksInMap + if m.nextFree e then 0 else 1) ≤ m.maximumInMap := by
    cases hnext : m.nextFree e with
    | false => exact (hnone hnext).2
    | true =>
      rw [if_pos rfl]
      omega
  have hle₂ : m₂.blocksInMap ≤ m₂.maximumInMap := by
    have hvalue := (AddAction.value_bounds act).1
    omega
  have hnot : ¬ m₂.overflows act := fun hover => by
    have hlt := (overflows_iff hnonneg₂ hle₂ (hmaximum ▸ h.bound) act).mp hover
    omega
  obtain ⟨m', heq, hlinked, htiled, hnumbered, hmax, hblocks', p, back, hbase', hback⟩ := hadd hnot
  have hm' : m.replaceMapEntry (fun _ => true) e newSize = m' := by
    rw [PartitionMap.replaceMapEntry]
    dsimp only
    rw [hm₂, heq]
  have hnewType : (createData "Apple".toList kMapType 1 (toU32 newSize)).type = kMapType :=
    (by decide : kMapType.take DPISTRLEN = kMapType)
  rw [hm']
  refine ⟨⟨hlinked, htiled, hnumbered, hmax.trans hmaximum, ?_, ⟨p, _⟩, back ++ post, hbase', hnewType, rfl,
    rfl, fun x hx => ?_⟩, by omega⟩
  · have hnew := others_append hbase' (fun x hx => by
      rcases mem_cons.mp hx with rfl | hx
      · exact .inr hnewType
      · exact .inl (hback x hx))
    have hbase₀ : m.baseOrder = (e :: behind) ++ post := by
      rw [hbase, hpost]
      rfl
    have hold := others_append hbase₀
      (fun x hx => by
        rcases mem_cons.mp hx with rfl | hx
        · exact .inr hmap
        · rcases hcases with ⟨rfl, -⟩ | ⟨p, rfl, hp, -⟩
          · cases hx
          · rw [mem_singleton.mp hx]
            exact .inl hp)
    rw [hnew, hold]
  · rcases mem_append.mp hx with hx | hx
    · rw [hback x hx]
      exact kFreeType_ne
    · refine hrest x ?_
      rw [hpost]
      exact mem_append_right _ hx

theorem Resized.sound {m' : PartitionMap} (hr : Resized m newSize m') (h : m.Sound)
    (hroom : m'.blocksInMap ≤ m.maximumInMap) : m'.Sound := by
  obtain ⟨e, rest, hbase, hmap, -, -, hrest⟩ := hr.whole
  exact ⟨hr.linked, hr.tiled, hr.numbered, ⟨e, rest, hbase, hmap, hrest⟩, hr.maximum ▸ hroom,
    hr.maximum ▸ h.bound⟩

end replace

/-! ## `resize_map` -/

section resize
variable {m : PartitionMap} {e : Entry} {rest : List Entry} {newSize : ℤ}

theorem Sound.find (hbase : m.baseOrder = e :: rest) (hmap : e.data.type = kMapType) :
    m.baseOrder.find? (fun e => e.data.type = kMapType) = some e := by
  rw [hbase]
  exact List.find?_cons_of_pos (p := fun e : Entry => decide (e.data.type = kMapType)) (decide_eq_true hmap)

theorem Sound.map_unique (hbase : m.baseOrder = e :: rest) (hrest : ∀ x ∈ rest, x.data.type ≠ kMapType)
    {x : Entry} (hx : x ∈ m.baseOrder) (hmap : x.data.type = kMapType) : x = e := by
  rw [hbase] at hx
  exact (mem_cons.mp hx).resolve_right (fun hmem => hrest x hmem hmap)

/-- What a call does to a sound map whose entry is `e`. -/
inductive ResizeCase (m : PartitionMap) (e : Entry) (newSize : ℤ) (m' : PartitionMap) : Prop where
  | kept : m' = m → ¬ m.LosesMap newSize → ResizeCase m e newSize m'
  | lost : m.LosesMap newSize → (∀ x ∈ m'.baseOrder, x.data.type ≠ kMapType) → ResizeCase m e newSize m'
  | resized : ¬ m.LosesMap newSize → Resized m newSize m' → m'.Sound →
    (m'.blocksInMap ≤ toU32 newSize ∨ (m'.blocksInMap ≤ m.blocksInMap ∧ e.data.pblocks ≤ toU32 newSize)) →
    ResizeCase m e newSize m'

theorem Sound.resize (h : m.Sound) (hbase : m.baseOrder = e :: rest) (hmap : e.data.type = kMapType)
    (hrest : ∀ x ∈ rest, x.data.type ≠ kMapType) (hlong : newSize < 2 ^ 31) :
    ResizeCase m e newSize (m.resizeMap (fun _ => true) newSize) := by
  have hsplit : m.baseOrder = [] ++ e :: rest := hbase
  have hnext : m.nextByBase e.address = rest.head? := h.linked.nextByBase hsplit
  have hcount := h.linked.count
  rw [hbase, length_cons] at hcount
  have hroom := h.room
  rw [PartitionMap.resizeMap, Sound.find hbase hmap]
  dsimp only
  have hsmaller : m.LosesMap newSize → toU32 newSize < e.data.pblocks ∧ m.nextFree e = false ∧
      m.maximumInMap < m.blocksInMap + 1 ∧ m.blocksInMap + 1 ≤ newSize := by
    rintro ⟨x, hx, hxmap, hxnext, hxsmall, hxsize, hxfull⟩
    obtain rfl := Sound.map_unique hbase hrest hx hxmap
    exact ⟨hxsmall, hxnext, hxfull, hxsize⟩
  by_cases hsame : toU32 newSize = e.data.pblocks
  · rw [if_pos hsame]
    exact .kept rfl (fun hlost => by have hlt := (hsmaller hlost).1; omega)
  rw [if_neg hsame]
  by_cases hsmall : toU32 newSize < e.data.pblocks
  · -- smaller
    rw [if_pos hsmall]
    by_cases hrefused : newSize < m.blocksInMap + if m.nextFree e then 0 else 1
    · rw [if_pos hrefused]
      refine .kept rfl (fun hlost => ?_)
      obtain ⟨-, hfree, -, hsize⟩ := hsmaller hlost
      rw [hfree, if_neg Bool.false_ne_true] at hrefused
      omega
    · rw [if_neg hrefused]
      have hincr : (0 : ℤ) ≤ if m.nextFree e then 0 else 1 := by
        cases m.nextFree e <;> decide
      have hvalue := toU32_nonneg (n := newSize) (by omega) (by omega)
      by_cases hlost : m.LosesMap newSize
      · obtain ⟨-, hfree, hfull, -⟩ := hsmaller hlost
        exact .lost hlost (h.replace_lost hbase hrest (by omega) hfree hsmall hfull)
      · have hnone : m.nextFree e = false → toU32 newSize < e.data.pblocks ∧
            m.blocksInMap + 1 ≤ m.maximumInMap := by
          intro hfree
          rw [hfree, if_neg Bool.false_ne_true] at hrefused
          refine ⟨hsmall, ?_⟩
          by_contra hfull
          exact hlost ⟨e, by rw [hbase]; exact mem_cons_self, hmap, hfree, hsmall, by omega, by omega⟩
        obtain ⟨hresized, hblocks⟩ := @Sound.replace m e rest newSize h hbase hmap hrest (by omega) hnone
          (fun p _ _ => by omega)
        have hlimit : (m.blocksInMap + if m.nextFree e then 0 else 1) ≤ m.maximumInMap := by
          cases hfree : m.nextFree e with
          | false => exact (hnone hfree).2
          | true =>
            rw [if_pos rfl]
            omega
        exact .resized hlost hresized (hresized.sound h (by omega)) (.inl (by omega))
  · -- larger
    have hnot : ¬ m.LosesMap newSize := fun hlost => hsmall (hsmaller hlost).1
    rw [if_neg hsmall, hnext]
    cases hrestEq : rest with
    | nil => exact .kept rfl hnot
    | cons p post =>
      dsimp only [List.head?_cons]
      by_cases hfree : p.data.type = kFreeType
      · rw [if_neg (not_not.mpr hfree)]
        by_cases hcontiguous : u32 (e.data.pblockStart + e.data.pblocks) ≠ p.data.pblockStart
        · rw [if_pos hcontiguous]
          exact .kept rfl hnot
        · rw [if_neg hcontiguous]
          by_cases hlarge : u32 (e.data.pblocks + p.data.pblocks) < toU32 newSize
          · rw [if_pos hlarge]
            exact .kept rfl hnot
          · rw [if_neg hlarge]
            have hnextFree : m.nextFree e = true := by
              rw [PartitionMap.nextFree, hnext, hrestEq]
              exact decide_eq_true hfree
            obtain ⟨hresized, hblocks⟩ := @Sound.replace m e rest newSize h hbase hmap hrest (by omega)
              (fun hnone => by rw [hnextFree] at hnone; cases hnone)
              (fun q hq _ => by
                rw [hrestEq] at hq
                obtain rfl : p = q := Option.some.inj hq
                have hle := Nat.mod_le (e.data.pblocks + p.data.pblocks) (2 ^ 32)
                rw [u32] at hlarge
                omega)
            rw [hnextFree, if_pos rfl] at hblocks
            exact .resized hnot hresized (hresized.sound h (by omega)) (.inr ⟨by omega, by omega⟩)
      · rw [if_pos hfree]
        exact .kept rfl hnot

end resize

end PartitionMap

end Darwin.Pdisk
