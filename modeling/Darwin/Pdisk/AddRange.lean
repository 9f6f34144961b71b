import Darwin.Pdisk.PartitionMap

/-! # What `add_partition_to_map` admits

The containment test adds in 32 bits. A request that is not empty and whose end does not wrap is
admitted only inside a free partition; of the other requests those are admitted whose wrapped end
lies in a free partition.
-/
namespace Darwin.Pdisk
open Darwin.Lib List

/-! ## Entries that tile the medium -/

/-- Entries that are not empty and follow each other from `base` to `stop`. -/
def Tiles : ℕ → ℕ → List Dpme → Prop
  | base, stop, [] => base = stop
  | base, stop, data :: l =>
    data.pblockStart = base ∧ 0 < data.pblocks ∧ Tiles (base + data.pblocks) stop l

instance : (base stop : ℕ) → (l : List Dpme) → Decidable (Tiles base stop l)
  | base, stop, [] => Nat.decEq base stop
  | base, stop, data :: l =>
    have := instDecidableTiles (base + data.pblocks) stop l
    inferInstanceAs (Decidable (data.pblockStart = base ∧ 0 < data.pblocks ∧
      Tiles (base + data.pblocks) stop l))

/-- The map of a medium whose size is a number of 32 bits. -/
structure PartitionMap.Tiled (m : PartitionMap) : Prop where
  tiles : Tiles 1 m.mediaSize (m.baseOrder.map Entry.data)
  media : m.mediaSize < 2 ^ 32

section tiles
variable {base stop : ℕ} {data : Dpme} {l l' : List Dpme}

theorem tiles_append : Tiles base stop (l ++ l') ↔ ∃ k, Tiles base k l ∧ Tiles k stop l' := by
  induction l generalizing base with
  | nil =>
    rw [nil_append]
    constructor
    · exact fun h => ⟨base, rfl, h⟩
    · rintro ⟨k, rfl, h⟩
      exact h
  | cons d l ih =>
    rw [cons_append, Tiles, ih]
    constructor
    · rintro ⟨hstart, hpos, k, hl, hl'⟩
      exact ⟨k, ⟨hstart, hpos, hl⟩, hl'⟩
    · rintro ⟨k, ⟨hstart, hpos, hl⟩, hl'⟩
      exact ⟨hstart, hpos, k, hl, hl'⟩

theorem Tiles.le (h : Tiles base stop l) : base ≤ stop := by
  induction l generalizing base with
  | nil => exact Nat.le_of_eq h
  | cons d l ih =>
    obtain ⟨-, -, hl⟩ := h
    have hle := ih hl
    omega

theorem Tiles.bounds (h : Tiles base stop l) (hmem : data ∈ l) :
    base ≤ data.pblockStart ∧ 0 < data.pblocks ∧ data.pblockStart + data.pblocks ≤ stop := by
  obtain ⟨pre, post, rfl⟩ := append_of_mem hmem
  obtain ⟨k, hpre, hstart, hpos, hpost⟩ := tiles_append.mp h
  have hle := hpre.le
  have hle' := hpost.le
  omega

end tiles

/-! ## The search -/

section search
variable {m : PartitionMap} {base length : ℕ} {e : Entry}

theorem PartitionMap.Tiled.bounds (h : m.Tiled) (he : e ∈ m.baseOrder) :
    1 ≤ e.data.pblockStart ∧ 0 < e.data.pblocks ∧
      e.data.pblockStart + e.data.pblocks ≤ m.mediaSize :=
  h.tiles.bounds (mem_map_of_mem he)

theorem includes_iff (h : m.Tiled) (he : e ∈ m.baseOrder) : e.data.includes base length = true ↔
    e.data.pblockStart ≤ base ∧ u32 (base + length) ≤ e.data.pblockStart + e.data.pblocks := by
  have hend : u32 (e.data.pblockStart + e.data.pblocks) = e.data.pblockStart + e.data.pblocks :=
    Nat.mod_eq_of_lt (Nat.lt_of_le_of_lt (h.bounds he).2.2 h.media)
  rw [Dpme.includes, hend, Bool.and_eq_true, decide_eq_true_eq, decide_eq_true_eq]

theorem find_iff (h : m.Tiled) (hend : u32 (base + length) ≤ base) :
    m.baseOrder.find? (fun cur => cur.data.includes base length) = some e ↔
      e ∈ m.baseOrder ∧ e.data.pblockStart ≤ base ∧
        e.data.pblockStart < max (u32 (base + length)) 2 ∧
        max (u32 (base + length)) 2 ≤ e.data.pblockStart + e.data.pblocks := by
  rw [List.find?_eq_some_iff_append]
  constructor
  · rintro ⟨hincludes, pre, post, heq, hpre⟩
    have he : e ∈ m.baseOrder := by
      rw [heq]
      exact mem_append_right _ mem_cons_self
    obtain ⟨hbase, hstop⟩ := (includes_iff h he).mp hincludes
    have hbounds := h.bounds he
    refine ⟨he, hbase, ?_, by omega⟩
    rcases eq_nil_or_concat' pre with rfl | ⟨front, p, rfl⟩
    · have htiles := h.tiles
      rw [heq, nil_append, map_cons] at htiles
      have hstart := htiles.1
      omega
    · -- the partition in front does not reach the end
      have hp : p ∈ m.baseOrder := by
        rw [heq]
        exact mem_append_left _ (mem_append_right _ mem_cons_self)
      have htiles := h.tiles
      rw [heq, append_assoc, map_append, map_append, map_cons, map_cons,
        map_nil] at htiles
      obtain ⟨k, -, hlast, -, hstart, -⟩ := tiles_append.mp htiles
      have hnot := hpre p (mem_append_right _ mem_cons_self)
      rw [Bool.not_eq_true', Bool.eq_false_iff, ne_eq, includes_iff h hp] at hnot
      omega
  · rintro ⟨he, hbase, hstart, hstop⟩
    refine ⟨(includes_iff h he).mpr ⟨hbase, by omega⟩, ?_⟩
    obtain ⟨pre, post, heq⟩ := append_of_mem he
    refine ⟨pre, post, heq, fun p hp => ?_⟩
    have hmem : p ∈ m.baseOrder := by
      rw [heq]
      exact mem_append_left _ hp
    have htiles := h.tiles
    rw [heq, map_append, map_cons] at htiles
    obtain ⟨k, hfront, hcur, -, -⟩ := tiles_append.mp htiles
    have hbefore := hfront.bounds (mem_map_of_mem hp)
    rw [Bool.not_eq_true', Bool.eq_false_iff, ne_eq, includes_iff h hmem]
    omega

end search

/-! ## Requests -/

section requests
variable {m : PartitionMap} {base length : ℕ} {memory : ℕ → Bool} {name dptype : List Char}

theorem addPartitionToMap_true_iff :
    (m.addPartitionToMap memory name dptype base length).2 = true ↔
      ∃ cur, m.baseOrder.find? (fun cur => cur.data.includes base length) = some cur ∧
        cur.data.type = kFreeType ∧ ¬ m.overflows (addPlan cur.data base length).act ∧
        memory 0 = true := by
  rw [PartitionMap.addPartitionToMap]
  cases m.baseOrder.find? (fun cur => cur.data.includes base length) with
  | none => simp
  | some cur =>
    dsimp only
    by_cases hfree : cur.data.type = kFreeType
    · rw [if_neg (not_not.mpr hfree)]
      by_cases hover : m.overflows (addPlan cur.data base length).act
      · simp [hover]
      · rw [if_neg hover]
        cases hmemory : memory 0 with
        | false => simp
        | true => simp [hfree, hover]
    · simp [hfree]

theorem addPartitionToMap_false (hfalse : (m.addPartitionToMap memory name dptype base length).2 = false) :
    (m.addPartitionToMap memory name dptype base length).1 = m := by
  rw [PartitionMap.addPartitionToMap] at hfalse ⊢
  cases hfind : m.baseOrder.find? (fun cur => cur.data.includes base length) with
  | none => rfl
  | some cur =>
    rw [hfind] at hfalse
    dsimp only at hfalse ⊢
    by_cases hfree : cur.data.type ≠ kFreeType
    · rw [if_pos hfree]
    · rw [if_neg hfree] at hfalse ⊢
      by_cases hover : m.overflows (addPlan cur.data base length).act
      · rw [if_pos hover]
      · rw [if_neg hover] at hfalse ⊢
        by_cases hmemory : memory 0 = false
        · rw [if_pos hmemory]
        · rw [if_neg hmemory] at hfalse
          cases hfalse

theorem addPlan_act {data : Dpme} (hpos : 0 < data.pblocks)
    (hmedia : data.pblockStart + data.pblocks < 2 ^ 32) (hslip : length = 0 ∨ 2 ^ 32 ≤ base + length) :
    (addPlan data base length).act =
      if data.pblockStart = base ∨ data.pblockStart + data.pblocks = u32 (base + length) then .kAdd
      else .kSplit := by
  have hend : u32 (data.pblockStart + data.pblocks) = data.pblockStart + data.pblocks :=
    Nat.mod_eq_of_lt hmedia
  rw [addPlan, hend]
  by_cases hstart : data.pblockStart = base
  · rw [if_pos hstart, if_neg (show ¬ data.pblocks = length by omega), if_pos (.inl hstart)]
  · rw [if_neg hstart]
    by_cases hstop : data.pblockStart + data.pblocks = u32 (base + length)
    · rw [if_pos hstop, if_pos (.inr hstop)]
    · rw [if_neg hstop, if_neg (fun h => h.elim hstart hstop)]

/-- An empty request, or one whose end wraps, and the block in front of the end is in a free partition
that begins at the base or before; the map has room for the pieces. -/
def PartitionMap.Slips (m : PartitionMap) (base length : ℕ) : Prop :=
  (length = 0 ∨ 2 ^ 32 ≤ base + length) ∧
    ∃ e ∈ m.baseOrder, e.data.type = kFreeType ∧ e.data.pblockStart ≤ base ∧
      e.data.pblockStart < max (u32 (base + length)) 2 ∧
      max (u32 (base + length)) 2 ≤ e.data.pblockStart + e.data.pblocks ∧
      ¬ m.overflows (if e.data.pblockStart = base ∨
        e.data.pblockStart + e.data.pblocks = u32 (base + length) then .kAdd else .kSplit)

/-- The request is not empty and lies in one free partition. -/
def PartitionMap.Fits (m : PartitionMap) (base length : ℕ) : Prop :=
  1 ≤ length ∧ ∃ e ∈ m.baseOrder, e.data.type = kFreeType ∧ e.data.pblockStart ≤ base ∧
    base + length ≤ e.data.pblockStart + e.data.pblocks

theorem u32_le_base (hlength : length < 2 ^ 32) (hslip : length = 0 ∨ 2 ^ 32 ≤ base + length)
    (hbase : base < 2 ^ 32) : u32 (base + length) ≤ base := by
  rw [u32]
  omega

theorem slips_iff (h : m.Tiled) (hbase : base < 2 ^ 32) (hlength : length < 2 ^ 32) :
    m.Slips base length ∧ memory 0 = true ↔ (length = 0 ∨ 2 ^ 32 ≤ base + length) ∧
      (m.addPartitionToMap memory name dptype base length).2 = true := by
  rw [PartitionMap.Slips, and_assoc]
  refine and_congr_right (fun hslip => ?_)
  rw [addPartitionToMap_true_iff]
  constructor
  · rintro ⟨⟨e, he, hfree, hstart, hlow, hhigh, hroom⟩, hmemory⟩
    have hbounds := h.bounds he
    have hmedia := h.media
    refine ⟨e, (find_iff h (u32_le_base hlength hslip hbase)).mpr ⟨he, hstart, hlow, hhigh⟩, hfree, ?_,
      hmemory⟩
    rw [addPlan_act hbounds.2.1 (by omega) hslip]
    exact hroom
  · rintro ⟨e, hfind, hfree, hroom, hmemory⟩
    obtain ⟨he, hstart, hlow, hhigh⟩ := (find_iff h (u32_le_base hlength hslip hbase)).mp hfind
    have hbounds := h.bounds he
    have hmedia := h.media
    rw [addPlan_act hbounds.2.1 (by omega) hslip] at hroom
    exact ⟨⟨e, he, hfree, hstart, hlow, hhigh, hroom⟩, hmemory⟩

theorem fits_of_true (h : m.Tiled) (hlength : 1 ≤ length) (hend : base + length < 2 ^ 32)
    (htrue : (m.addPartitionToMap memory name dptype base length).2 = true) : m.Fits base length := by
  obtain ⟨e, hfind, hfree, -, -⟩ := addPartitionToMap_true_iff.mp htrue
  have he := mem_of_find?_eq_some hfind
  obtain ⟨hstart, hstop⟩ := (includes_iff h he).mp
    (List.find?_some (p := fun cur : Entry => cur.data.includes base length) hfind)
  have hu32 : u32 (base + length) = base + length := Nat.mod_eq_of_lt hend
  rw [hu32] at hstop
  exact ⟨hlength, e, he, hfree, hstart, hstop⟩

theorem Fits.not_slips (h : m.Tiled) (hfits : m.Fits base length) :
    1 ≤ length ∧ base + length < 2 ^ 32 := by
  obtain ⟨hlength, e, he, -, -, hstop⟩ := hfits
  have hbounds := h.bounds he
  have hmedia := h.media
  omega

end requests

/-- A call returns 1 only for requests that fit, and leaves the map as it was when it returns 0: unless
the request slips through the test in 32 bits, and there is memory. -/
theorem addPartitionToMap_admits_iff (m : PartitionMap) (h : m.Tiled) (memory : ℕ → Bool)
    (name dptype : List Char) (base length : ℕ) (hbase : base < 2 ^ 32) (hlength : length < 2 ^ 32) :
    (((m.addPartitionToMap memory name dptype base length).2 = true → m.Fits base length) ∧
      ((m.addPartitionToMap memory name dptype base length).2 = false →
        (m.addPartitionToMap memory name dptype base length).1 = m)) ↔
      ¬ (m.Slips base length ∧ memory 0 = true) := by
  rw [@slips_iff m base length memory name dptype h hbase hlength]
  constructor
  · rintro ⟨htrue, -⟩ ⟨hslip, hreturn⟩
    have hno := Fits.not_slips h (htrue hreturn)
    omega
  · intro hno
    refine ⟨fun hreturn => ?_, addPartitionToMap_false⟩
    have hboth : 1 ≤ length ∧ base + length < 2 ^ 32 := by
      by_contra hslip
      exact hno ⟨by omega, hreturn⟩
    exact fits_of_true h hboth.1 hboth.2 hreturn

/-- The new map of a medium of 1000 blocks, and a request for blocks 100 to 149. -/
theorem addPartitionToMap_admits_fifty :
    (((initPartitionMap 1000).addPartitionToMap (fun _ => true) [] [] 100 50).2 = true →
        (initPartitionMap 1000).Fits 100 50) ∧
      (((initPartitionMap 1000).addPartitionToMap (fun _ => true) [] [] 100 50).2 = false →
        ((initPartitionMap 1000).addPartitionToMap (fun _ => true) [] [] 100 50).1 =
          initPartitionMap 1000) :=
  (addPartitionToMap_admits_iff (initPartitionMap 1000)
    ⟨by decide +kernel, by decide⟩ (fun _ => true) [] [] 100 50
    (by decide) (by decide)).mpr (fun h => absurd h.1.1 (by decide))

/-- Of the same map: an empty request for block 100, and one from block 200 whose end wraps to 170, are
both admitted. -/
theorem addPartitionToMap_slips :
    (((initPartitionMap 1000).addPartitionToMap (fun _ => true) [] [] 100 0).2 = true ∧
        ¬ (initPartitionMap 1000).Fits 100 0) ∧
      (((initPartitionMap 1000).addPartitionToMap (fun _ => true) [] [] 200 (2 ^ 32 - 30)).2 = true ∧
        ¬ (initPartitionMap 1000).Fits 200 (2 ^ 32 - 30)) := by
  refine ⟨⟨by decide +kernel, fun h => absurd h.1 (by decide)⟩, by decide +kernel, fun h => ?_⟩
  obtain ⟨-, e, he, -, -, hstop⟩ := h
  revert hstop
  have hall : ∀ e ∈ (initPartitionMap 1000).baseOrder,
      ¬ 200 + (2 ^ 32 - 30) ≤ e.data.pblockStart + e.data.pblocks := by decide +kernel
  exact hall e he

end Darwin.Pdisk
