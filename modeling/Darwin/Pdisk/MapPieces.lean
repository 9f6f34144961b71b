import Darwin.Pdisk.MapEdits

/-! # Pieces of a partition map

An addition cuts a free partition into pieces, and a deletion joins a partition with the free ones on
its sides. The pieces cover what was there.
-/
namespace Darwin.Pdisk
open Darwin.Lib List

/-! ## Layouts -/

/-- Where the one layout fits the other does. -/
def Covers (l l' : List Dpme) : Prop := ∀ base stop, Tiles base stop l → Tiles base stop l'

section layouts
variable {base stop : ℕ} {l l' pre post : List Dpme} {data : Dpme}

theorem Covers.tiles (h : Covers l l') (htiles : Tiles base stop (pre ++ l ++ post)) :
    Tiles base stop (pre ++ l' ++ post) := by
  obtain ⟨k, hfront, hpost⟩ := tiles_append.mp htiles
  obtain ⟨j, hpre, hl⟩ := tiles_append.mp hfront
  exact tiles_append.mpr ⟨k, tiles_append.mpr ⟨j, hpre, h j k hl⟩, hpost⟩

theorem tiles_singleton : Tiles base stop [data] ↔
    data.pblockStart = base ∧ 0 < data.pblocks ∧ base + data.pblocks = stop := Iff.rfl

end layouts

theorem createData_free (name : List Char) (base length : ℕ) :
    (createData name kFreeType base length).type = kFreeType :=
  (by decide : kFreeType.take DPISTRLEN = kFreeType)

namespace PartitionMap
variable {m : PartitionMap} {pre post : List Entry} {e : Entry}

theorem Tiled.split (h : m.Tiled) (hsplit : m.baseOrder = pre ++ e :: post) :
    ∃ stop, Tiles 1 e.data.pblockStart (pre.map Entry.data) ∧ 0 < e.data.pblocks ∧
      stop = e.data.pblockStart + e.data.pblocks ∧ Tiles stop m.mediaSize (post.map Entry.data) := by
  have htiles := h.tiles
  rw [hsplit, map_append, map_cons] at htiles
  obtain ⟨k, hpre, hstart, hpos, hpost⟩ := tiles_append.mp htiles
  subst hstart
  exact ⟨_, hpre, hpos, rfl, hpost⟩

theorem Tiled.covers (h : m.Tiled) {m' : PartitionMap} (hmedia : m'.mediaSize = m.mediaSize)
    {l l' : List Entry} (hsplit : m.baseOrder = pre ++ l ++ post)
    (hsplit' : m'.baseOrder = pre ++ l' ++ post)
    (hcovers : Covers (l.map Entry.data) (l'.map Entry.data)) : m'.Tiled := by
  have htiles := h.tiles
  rw [hsplit, map_append, map_append] at htiles
  refine ⟨?_, hmedia ▸ h.media⟩
  rw [hsplit', map_append, map_append, hmedia]
  exact hcovers.tiles htiles

/-! ## `combine_entry` -/

theorem Linked.combineNext (h : m.Linked) (ht : m.Tiled) (hsplit : m.baseOrder = pre ++ e :: post) :
    (m.combineNext e = m ∧ ∀ p ∈ post.head?, p.data.type ≠ kFreeType) ∨
      ∃ p post', post = p :: post' ∧ p.data.type = kFreeType ∧ (m.combineNext e).Linked ∧
        (m.combineNext e).baseOrder =
          pre ++ ⟨e.address, { e.data with pblocks := e.data.pblocks + p.data.pblocks }⟩ :: post' ∧
        SameMedium m (m.combineNext e) := by
  rw [PartitionMap.combineNext, h.nextByBase hsplit]
  cases post with
  | nil => exact .inl ⟨rfl, fun p hp => by cases hp⟩
  | cons p post =>
    dsimp only [List.head?_cons]
    by_cases hfree : p.data.type = kFreeType
    · obtain ⟨stop, -, hpos, hstop, hnext, -, hpost⟩ := ht.split hsplit
      have hp : p ∈ m.baseOrder := by
        rw [hsplit]
        exact mem_append_right _ (mem_cons_of_mem _ mem_cons_self)
      have hbounds := ht.bounds hp
      have hmedia := ht.media
      have hend : u32 (e.data.pblockStart + e.data.pblocks) = p.data.pblockStart := by
        rw [u32]
        omega
      have hsum : u32 (e.data.pblocks + p.data.pblocks) = e.data.pblocks + p.data.pblocks := by
        rw [u32]
        omega
      rw [if_neg (not_not.mpr hfree), if_neg (not_not.mpr hend), hsum]
      have hset := h.setData_eq hsplit { e.data with pblocks := e.data.pblocks + p.data.pblocks }
      have hset' := hset.trans (append_cons _ _ _)
      have hlinked := h.setData hsplit { e.data with pblocks := e.data.pblocks + p.data.pblocks }
      refine .inr ⟨p, post, rfl, hfree, hlinked.deleteEntry hset', ?_, rfl, rfl⟩
      rw [hlinked.deleteEntry_eq hset', append_assoc]
      rfl
    · rw [if_pos hfree]
      refine .inl ⟨rfl, fun q hq => ?_⟩
      obtain rfl : p = q := Option.some.inj hq
      exact hfree

theorem Linked.combinePrev (h : m.Linked) (ht : m.Tiled) (hsplit : m.baseOrder = pre ++ e :: post) :
    m.combinePrev e = m ∨
      ∃ p pre', pre = pre' ++ [p] ∧ p.data.type = kFreeType ∧ (m.combinePrev e).Linked ∧
        (m.combinePrev e).baseOrder =
          pre' ++ ⟨e.address, { e.data with
            pblockStart := p.data.pblockStart
            pblocks := e.data.pblocks + p.data.pblocks }⟩ :: post ∧
        SameMedium m (m.combinePrev e) := by
  rw [PartitionMap.combinePrev, h.prevByBase hsplit]
  rcases eq_nil_or_concat' pre with rfl | ⟨pre, p, rfl⟩
  · exact .inl rfl
  · rw [List.getLast?_concat]
    dsimp only
    by_cases hfree : p.data.type = kFreeType
    · obtain ⟨stop, hfront, hpos, hstop, hpost⟩ := ht.split hsplit
      rw [map_append] at hfront
      obtain ⟨k, -, hprev, -, hlast⟩ := tiles_append.mp hfront
      have hlast' : k + p.data.pblocks = e.data.pblockStart := hlast
      have hprev' : p.data.pblockStart = k := hprev
      have hle := hpost.le
      have hmedia := ht.media
      have hend : u32 (p.data.pblockStart + p.data.pblocks) = e.data.pblockStart := by
        rw [u32]
        omega
      have hk : 1 ≤ k := by
        obtain ⟨j, hj, hp, -⟩ := tiles_append.mp hfront
        have hjle := hj.le
        have hjk : p.data.pblockStart = j := hp
        omega
      have hsum : u32 (e.data.pblocks + p.data.pblocks) = e.data.pblocks + p.data.pblocks := by
        rw [u32]
        omega
      rw [if_neg (not_not.mpr hfree), if_neg (not_not.mpr hend), hsum]
      have hset := h.setData_eq hsplit { e.data with
        pblockStart := p.data.pblockStart
        pblocks := e.data.pblocks + p.data.pblocks }
      have hset' := hset.trans (append_assoc _ _ _)
      have hlinked := h.setData hsplit { e.data with
        pblockStart := p.data.pblockStart
        pblocks := e.data.pblocks + p.data.pblocks }
      refine .inr ⟨p, pre, rfl, hfree, hlinked.deleteEntry hset', ?_, rfl, rfl⟩
      rw [hlinked.deleteEntry_eq hset']
      rfl
    · rw [if_pos hfree]
      exact .inl rfl

/-! ## Deletion -/

/-- A partition is given back, with the free ones at its sides. -/
structure Deleted (m : PartitionMap) (pre : List Entry) (e : Entry) (post : List Entry)
    (m' : PartitionMap) : Prop where
  linked : m'.Linked
  numbered : m'.Numbered
  medium : SameMedium m m'
  joined : ∃ pre' before behind post' data, pre = pre' ++ before ∧ post = behind ++ post' ∧
    m'.baseOrder = pre' ++ ⟨e.address, data⟩ :: post' ∧ data.type = kFreeType ∧
    (∀ x ∈ before ++ behind, x.data.type = kFreeType) ∧
    (behind = [] → ∀ p ∈ post.head?, p.data.type ≠ kFreeType) ∧ behind.length ≤ 1 ∧
    Covers ((before ++ e :: behind).map Entry.data) [data]

theorem covers_next {d d' next : Dpme} (hstart : d'.pblockStart = d.pblockStart)
    (hsum : d'.pblocks = d.pblocks + next.pblocks) : Covers [d, next] [d'] := by
  rintro base stop ⟨hbase, hpos, -, -, hstop⟩
  have hstop' : base + d.pblocks + next.pblocks = stop := hstop
  exact ⟨by omega, by omega, by rw [Tiles]; omega⟩

theorem covers_same {d d' : Dpme} (hstart : d'.pblockStart = d.pblockStart)
    (hsame : d'.pblocks = d.pblocks) : Covers [d] [d'] := by
  rintro base stop ⟨hbase, hpos, hstop⟩
  have hstop' : base + d.pblocks = stop := hstop
  exact ⟨by omega, by omega, by rw [Tiles]; omega⟩

theorem Linked.delete (h : m.Linked) (ht : m.Tiled) (hsplit : m.baseOrder = pre ++ e :: post)
    (htype : e.data.type ≠ kMapType) :
    Deleted m pre e post (m.deletePartitionFromMap true e.address) := by
  rw [PartitionMap.deletePartitionFromMap, h.entryAt hsplit]
  dsimp only
  rw [if_neg htype, if_neg (show ¬ true = false by decide)]
  -- the entry is free
  obtain ⟨d₀, hd₀⟩ : ∃ d, d = createData kFreeName kFreeType e.data.pblockStart e.data.pblocks := ⟨_, rfl⟩
  have hfree₀ : d₀.type = kFreeType := by
    rw [hd₀]
    exact createData_free _ _ _
  have hstart₀ : d₀.pblockStart = e.data.pblockStart := by rw [hd₀]; rfl
  have hblocks₀ : d₀.pblocks = e.data.pblocks := by rw [hd₀]; rfl
  rw [← hd₀]
  obtain ⟨m₀, hm₀⟩ : ∃ m₀, m₀ = m.setData e.address d₀ := ⟨_, rfl⟩
  have hsplit₀ : m₀.baseOrder = pre ++ ⟨e.address, d₀⟩ :: post := hm₀ ▸ h.setData_eq hsplit d₀
  have hlinked₀ : m₀.Linked := hm₀ ▸ h.setData hsplit d₀
  have hmedium₀ : SameMedium m m₀ := by rw [hm₀]; exact ⟨rfl, rfl⟩
  have hold : m.baseOrder = pre ++ [e] ++ post := by
    rw [hsplit, append_assoc]
    rfl
  have hnew₀ : m₀.baseOrder = pre ++ [⟨e.address, d₀⟩] ++ post := by
    rw [hsplit₀, append_assoc]
    rfl
  have htiled₀ : m₀.Tiled := ht.covers hmedium₀.media hold hnew₀ (covers_same hstart₀ hblocks₀)
  have hat₀ := hlinked₀.entryAt hsplit₀
  rw [← hm₀, PartitionMap.combineEntry, hat₀]
  dsimp only
  rw [if_neg (not_not.mpr hfree₀)]
  -- the next partition
  obtain ⟨m₁, hm₁⟩ : ∃ m₁, m₁ = m₀.combineNext ⟨e.address, d₀⟩ := ⟨_, rfl⟩
  obtain ⟨d₁, behind, post', hpost, hsplit₁, hlinked₁, hmedium₁, hfree₁, hbehind, hnone, hlength,
      hcovers₁⟩ : ∃ d₁ behind post', post = behind ++ post' ∧
      m₁.baseOrder = pre ++ ⟨e.address, d₁⟩ :: post' ∧ m₁.Linked ∧ SameMedium m m₁ ∧
      d₁.type = kFreeType ∧ (∀ x ∈ behind, x.data.type = kFreeType) ∧
      (behind = [] → ∀ p ∈ post.head?, p.data.type ≠ kFreeType) ∧ behind.length ≤ 1 ∧
      Covers ((e :: behind).map Entry.data) [d₁] := by
    rcases hlinked₀.combineNext htiled₀ hsplit₀ with ⟨hsame, hhead⟩ | ⟨p, post', rfl, hp, hl, hb, hs⟩
    · rw [hm₁, hsame]
      exact ⟨d₀, [], post, rfl, hsplit₀, hlinked₀, hmedium₀, hfree₀, fun _ hx => absurd hx not_mem_nil,
        fun _ => hhead, Nat.zero_le _, covers_same hstart₀ hblocks₀⟩
    · rw [hm₁]
      refine ⟨_, [p], post', rfl, hb, hl, hmedium₀.trans hs, hfree₀, fun x hx => ?_,
        fun hnil => absurd hnil (cons_ne_nil _ _), Nat.le_refl 1, covers_next hstart₀ ?_⟩
      · rw [mem_singleton.mp hx]
        exact hp
      · change d₀.pblocks + p.data.pblocks = e.data.pblocks + p.data.pblocks
        rw [hblocks₀]
  have hold₁ : m.baseOrder = pre ++ (e :: behind) ++ post' := by
    rw [hsplit, hpost, append_assoc]
    rfl
  have hnew₁ : m₁.baseOrder = pre ++ [⟨e.address, d₁⟩] ++ post' := by
    rw [hsplit₁, append_assoc]
    rfl
  have htiled₁ : m₁.Tiled := ht.covers hmedium₁.media hold₁ hnew₁ hcovers₁
  have hat₁ := hlinked₁.entryAt hsplit₁
  rw [← hm₁, hat₁]
  dsimp only
  -- the partition in front
  obtain ⟨m₂, hm₂⟩ : ∃ m₂, m₂ = m₁.combinePrev ⟨e.address, d₁⟩ := ⟨_, rfl⟩
  rw [← hm₂]
  rcases hlinked₁.combinePrev htiled₁ hsplit₁ with hsame | ⟨p, pre', rfl, hp, hl, hb, hs⟩
  · rw [hsame] at hm₂
    obtain ⟨hlinked, hnumbered, hbase, hmedium⟩ := (hm₂ ▸ hlinked₁ : m₂.Linked).renumber rfl
    refine ⟨hlinked, hnumbered, (hm₂ ▸ hmedium₁ : SameMedium m m₂).trans hmedium, pre, [], behind, post',
      d₁, (append_nil _).symm, hpost, ?_, hfree₁, hbehind, hnone, hlength, hcovers₁⟩
    rw [hbase, hm₂]
    exact hsplit₁
  · rw [← hm₂] at hl hb hs
    obtain ⟨hlinked, hnumbered, hbase, hmedium⟩ := hl.renumber rfl
    refine ⟨hlinked, hnumbered, (hmedium₁.trans hs).trans hmedium, pre', [p], behind, post', _, rfl, hpost,
      hbase.trans hb, hfree₁, fun x hx => ?_, hnone, hlength, ?_⟩
    · rcases mem_append.mp hx with hx | hx
      · rw [mem_singleton.mp hx]
        exact hp
      · exact hbehind x hx
    · intro base stop htiles
      rw [map_append] at htiles
      obtain ⟨k, ⟨hpstart, hppos, hpstop⟩, hrest⟩ := tiles_append.mp htiles
      have hpstop' : base + p.data.pblocks = k := hpstop
      obtain ⟨hstart, hpos, hstop⟩ := tiles_singleton.mp (hcovers₁ k stop hrest)
      refine tiles_singleton.mpr ⟨hpstart, ?_, ?_⟩
      · change 0 < d₁.pblocks + p.data.pblocks
        omega
      · change base + (d₁.pblocks + p.data.pblocks) = stop
        omega

end PartitionMap

end Darwin.Pdisk
