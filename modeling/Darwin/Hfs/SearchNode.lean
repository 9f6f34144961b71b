import Darwin.Hfs.SimpleReplace

/-! # The search in a node

The loop of `SearchNode` of `BTreeNodeOps.c`, with the indices whose keys it reads. The numbers of
the loop are signed and lie between minus one and 2 ^ 17, so that none of them wraps around.
-/
namespace Darwin.Hfs.NodeBytes
open Darwin.Lib

/-- What `SearchNode` returns, and the indices that it has looked at. -/
structure Searched where
  found : Bool
  returnIndex : ℕ
  probes : List ℤ
  deriving DecidableEq, Repr

def Searched.probe (index : ℤ) (searched : Searched) : Searched :=
  { searched with probes := index :: searched.probes }

/-- The `while` loop; `none` when it has not ended after so many passes. -/
def searchLoop (btree : ControlBlock) (compareProc : Key → Key → Ordering) (node : NodeBuffer)
    (searchKey : Key) : ℕ → ℤ → ℤ → Option Searched
  | 0, _, _ => none
  | passes + 1, lowerBound, upperBound =>
    if lowerBound ≤ upperBound then
      let index := (lowerBound + upperBound) / 2
      let trialKey := keyAt btree node.bytes (getRecordOffset btree node.bytes index.toNat)
      match compareProc searchKey trialKey with
      | .lt =>
        (searchLoop btree compareProc node searchKey passes lowerBound (index - 1)).map
          (Searched.probe index)
      | .gt =>
        (searchLoop btree compareProc node searchKey passes (index + 1) upperBound).map
          (Searched.probe index)
      | .eq => some ⟨true, word16 index.toNat, [index]⟩
    else some ⟨false, word16 lowerBound.toNat, []⟩

section search
variable {btree : ControlBlock} {compareProc : Key → Key → Ordering} {node : NodeBuffer}
  {searchKey : Key}

theorem trialKeys_length (btree : ControlBlock) (node : NodeBuffer) :
    (trialKeys btree node).length = node.numRecords := by
  rw [trialKeys, List.length_map, List.length_range]

theorem trialKeys_get (index : ℕ) (hi : index < node.numRecords) :
    (trialKeys btree node)[index]? =
      some (keyAt btree node.bytes (getRecordOffset btree node.bytes index)) := by
  rw [trialKeys, List.getElem?_map, List.getElem?_range hi, Option.map_some]

theorem searchLoop_bisect (btree : ControlBlock) (compareProc : Key → Key → Ordering) (searchKey : Key)
    (hcount : node.numRecords < 2 ^ 16) (fuel passes : ℕ) (lower upper : ℤ) (h0 : 0 ≤ lower) (hle : lower ≤ upper + 1) (hu : upper < node.numRecords)
    (hfuel : upper + 1 - lower ≤ fuel) (hpasses : fuel < passes) :
    ∃ probes, searchLoop btree compareProc node searchKey passes lower upper =
        some ⟨(bisect (compareProc searchKey) (trialKeys btree node) fuel lower upper).1,
          (bisect (compareProc searchKey) (trialKeys btree node) fuel lower upper).2, probes⟩ ∧
      ∀ index ∈ probes, 0 ≤ index ∧ index < node.numRecords := by
  induction fuel generalizing passes lower upper with
  | zero =>
    cases passes with
    | zero => omega
    | succ passes =>
      refine ⟨[], ?_, by simp⟩
      rw [searchLoop, if_neg (by omega), bisect, word16_eq (by omega)]
  | succ fuel ih =>
    cases passes with
    | zero => omega
    | succ passes =>
      rw [searchLoop, bisect]
      by_cases hlu : lower ≤ upper
      · have hindex : 0 ≤ (lower + upper) / 2 ∧ (lower + upper) / 2 < node.numRecords := by omega
        rw [if_pos hlu, if_pos hlu]
        dsimp only
        rw [trialKeys_get ((lower + upper) / 2).toNat (by omega)]
        dsimp only
        cases hc : compareProc searchKey
            (keyAt btree node.bytes (getRecordOffset btree node.bytes ((lower + upper) / 2).toNat)) with
        | lt =>
          obtain ⟨probes, hloop, hinside⟩ := ih passes lower
            ((lower + upper) / 2 - 1) h0 (by omega) (by omega) (by omega) (by omega)
          refine ⟨(lower + upper) / 2 :: probes, ?_, List.forall_mem_cons.mpr ⟨hindex, hinside⟩⟩
          dsimp only
          rw [hloop]
          rfl
        | gt =>
          obtain ⟨probes, hloop, hinside⟩ := ih passes ((lower + upper) / 2 + 1)
            upper (by omega) (by omega) hu (by omega) (by omega)
          refine ⟨(lower + upper) / 2 :: probes, ?_, List.forall_mem_cons.mpr ⟨hindex, hinside⟩⟩
          dsimp only
          rw [hloop]
          rfl
        | eq =>
          refine ⟨[(lower + upper) / 2], ?_, List.forall_mem_singleton.mpr hindex⟩
          dsimp only
          rw [word16_eq (by omega)]
      · refine ⟨[], ?_, by simp⟩
        rw [if_neg hlu, if_neg hlu, word16_eq (by omega)]

theorem searchLoop_mono {passes more : ℕ} (hmore : passes ≤ more) {lower upper : ℤ} {searched : Searched}
    (h : searchLoop btree compareProc node searchKey passes lower upper = some searched) :
    searchLoop btree compareProc node searchKey more lower upper = some searched := by
  induction passes generalizing more lower upper searched with
  | zero => cases h
  | succ passes ih =>
    cases more with
    | zero => omega
    | succ more =>
      rw [searchLoop] at h ⊢
      by_cases hlu : lower ≤ upper
      · rw [if_pos hlu] at h ⊢
        dsimp only at h ⊢
        cases hc : compareProc searchKey
            (keyAt btree node.bytes (getRecordOffset btree node.bytes ((lower + upper) / 2).toNat)) with
        | lt =>
          rw [hc] at h
          obtain ⟨rest, hrest, rfl⟩ := Option.map_eq_some_iff.mp h
          exact Option.map_eq_some_iff.mpr ⟨rest, ih (Nat.le_of_succ_le_succ hmore) hrest, rfl⟩
        | gt =>
          rw [hc] at h
          obtain ⟨rest, hrest, rfl⟩ := Option.map_eq_some_iff.mp h
          exact Option.map_eq_some_iff.mpr ⟨rest, ih (Nat.le_of_succ_le_succ hmore) hrest, rfl⟩
        | eq =>
          rw [hc] at h
          exact h
      · rw [if_neg hlu] at h ⊢
        exact h

theorem searchLoop_ends (btree : ControlBlock) (compareProc : Key → Key → Ordering) (searchKey : Key)
    (hcount : node.numRecords < 2 ^ 16) :
    ∃ probes, (∀ passes, node.numRecords < passes →
      searchLoop btree compareProc node searchKey passes 0 (node.numRecords - 1) =
        some ⟨(searchNode btree compareProc node searchKey).1,
          (searchNode btree compareProc node searchKey).2, probes⟩) ∧
      ∀ index ∈ probes, 0 ≤ index ∧ index < node.numRecords := by
  obtain ⟨probes, hloop, hinside⟩ := searchLoop_bisect btree compareProc searchKey hcount
    node.numRecords (node.numRecords + 1) 0 (node.numRecords - 1) (le_refl 0) (by omega) (by omega)
    (by omega) (Nat.lt_succ_self _)
  exact ⟨probes, fun passes hpasses => searchLoop_mono hpasses hloop, hinside⟩

theorem trialKeys_sorted [Std.TransCmp compareProc]
    (hkeys : (trialKeys btree node).Pairwise (fun a b => compareProc a b = .lt)) (searchKey : Key) :
    Probe.Sorted (compareProc searchKey) (trialKeys btree node) := by
  apply hkeys.imp
  intro a b hab ha
  exact Std.TransCmp.lt_of_isLE_of_lt (Ordering.isLE_iff_ne_gt.mpr ha) hab

theorem searchNode_keys_cut [Std.TransCmp compareProc]
    (hkeys : (trialKeys btree node).Pairwise (fun a b => compareProc a b = .lt)) (searchKey : Key) :
    Cut (compareProc searchKey) (trialKeys btree node)
      (searchNode btree compareProc node searchKey).1
      (searchNode btree compareProc node searchKey).2 := by
  have hlength := trialKeys_length btree node
  apply bisect_cut (trialKeys_sorted hkeys searchKey) (le_refl 0)
  · omega
  · omega
  · omega
  · intro j x hj
    omega
  · intro j x hj hx
    have := (List.getElem?_eq_some_iff.mp hx).1
    omega

/-- In a node with ascending keys the search ends, looks at the keys of the node only, finds the
key that equals the search key, if there is one, and otherwise counts the smaller ones. -/
theorem searchNode_exact (compareProc : Key → Key → Ordering) [Std.TransCmp compareProc] {records : List (List UInt8)}
    (h : Holds btree node records)
    (hkeys : (trialKeys btree node).Pairwise (fun a b => compareProc a b = .lt)) (searchKey : Key) :
    ∃ searched : Searched, (∀ passes, node.numRecords < passes →
        searchLoop btree compareProc node searchKey passes 0 (node.numRecords - 1) = some searched) ∧
      (∀ index ∈ searched.probes, 0 ≤ index ∧ index < node.numRecords) ∧
      (searched.found = true ↔ ∃ key ∈ trialKeys btree node, compareProc searchKey key = .eq) ∧
      (searched.found = true → ∃ key, (trialKeys btree node)[searched.returnIndex]? = some key ∧
        compareProc searchKey key = .eq) ∧
      (searched.found = false → searched.returnIndex =
        (trialKeys btree node).countP (fun key => compareProc key searchKey = .lt)) := by
  have hfits := h.fits
  have hsize := h.size
  have hcount := h.count
  obtain ⟨probes, hloop, hinside⟩ := searchLoop_ends btree compareProc searchKey
    (node.numRecords.lt_of_le_of_lt (Nat.le_of_eq hcount) (by omega))
  have hcut := searchNode_keys_cut hkeys searchKey
  refine ⟨_, hloop, hinside, hcut.found_iff, fun hfound => ?_, fun hgap => ?_⟩
  · dsimp only at hfound
    rw [hfound] at hcut
    exact hcut.get_found
  · dsimp only at hgap
    rw [hgap] at hcut
    dsimp only
    rw [hcut.gap_count]
    exact List.countP_congr (fun key _ => by
      rw [decide_eq_true_iff, decide_eq_true_iff, Std.OrientedCmp.gt_iff_lt])

end search

/-- A third record, under the key `[5]`. -/
def threeRecordLeaf : NodeBuffer :=
  (insertKeyRecord smallTree twoRecordLeaf 2 [5] 1 [8, 8]).2

theorem threeRecordLeaf_holds :
    Holds smallTree threeRecordLeaf [[1, 1, 1, 2, 3, 4, 5, 6], [1, 2, 7, 7], [1, 5, 8, 8]] :=
  (@Holds.insertKeyRecord smallTree _ [[1, 1, 1, 2, 3, 4, 5, 6], [1, 2, 7, 7]] [] [8, 8] [5] 1
    twoRecordLeaf_holds (by decide) (by decide) (by decide)).2

/-- The keys `[1]`, `[2]` and `[5]`, and a search key between the last two. -/
theorem searchNode_exact_three : ∃ searched : Searched,
    searchLoop smallTree compareFirst threeRecordLeaf [3] 4 0 (threeRecordLeaf.numRecords - 1) = some searched ∧
      searched.found = false ∧ searched.returnIndex = 2 := by
  have hcmp : Std.TransCmp compareFirst := inferInstanceAs (Std.TransCmp (compareOn _))
  obtain ⟨searched, hloop, -, hfound, -, hgap⟩ := searchNode_exact compareFirst threeRecordLeaf_holds
    (by decide +kernel) [3]
  have hkeys : trialKeys smallTree threeRecordLeaf = [[1], [2], [5]] := by decide +kernel
  have hnone : searched.found = false := by
    rw [← Bool.not_eq_true, hfound, hkeys]
    decide
  have hcount : threeRecordLeaf.numRecords = 3 := threeRecordLeaf_holds.count
  refine ⟨searched, hloop 4 (by omega), hnone, (hgap hnone).trans ?_⟩
  rw [hkeys]
  decide

end Darwin.Hfs.NodeBytes
