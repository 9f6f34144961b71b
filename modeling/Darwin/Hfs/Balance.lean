import Darwin.Hfs.BTreeInsert

/-! # The balance point of two nodes

The loop in which `RotateLeft` finds the number of records to move. The sizes that move come from a
list; the left node is at least as large as the right one would be without records.
-/
namespace Darwin.Hfs.BTreeRecords
open List

/-- `RotateLeft` undoes the last move when the left node is too large. -/
def undoLastMove (nodeSize : ℤ) (b : Balance) : Balance :=
  if nodeSize < b.leftSize then
    ⟨b.leftSize - b.moveSize, b.rightSize + b.moveSize, b.moveSize, b.moveIndex - 1⟩
  else b

/-- The sizes of the nodes when the first `moveIndex` records have moved; before the last of them
did, the left node was the smaller one. -/
structure Balanced (left right : ℕ) (sizes : List ℕ) (b : Balance) : Prop where
  index : b.moveIndex ≤ sizes.length
  leftSize : b.leftSize = left + (sizes.take b.moveIndex).sum
  rightSize : b.rightSize = right + (sizes.drop b.moveIndex).sum
  last : ∀ k, b.moveIndex = k + 1 → b.leftSize - b.moveSize = left + (sizes.take k).sum ∧
    b.rightSize + b.moveSize = right + (sizes.drop k).sum ∧
    b.leftSize - b.moveSize < b.rightSize + b.moveSize

variable {left right nodeSize : ℕ} {sizes : List ℕ} {b : Balance} {size : ℕ → ℤ}

theorem Balanced.start (left right : ℕ) (sizes : List ℕ) :
    Balanced left right sizes ⟨left, right + sizes.sum, 0, 0⟩ := by
  refine ⟨Nat.zero_le _, ?_, ?_, fun k hk => absurd hk (Nat.succ_ne_zero k).symm⟩
  · simp
  · simp

theorem Balanced.index_lt (h : Balanced left right sizes b) (hle : right ≤ left)
    (hlt : b.leftSize < b.rightSize) : b.moveIndex < sizes.length := by
  by_contra hge
  rw [h.leftSize, h.rightSize, drop_eq_nil_of_le (Nat.le_of_not_lt hge), sum_nil] at hlt
  omega

theorem Balanced.step (h : Balanced left right sizes b) (hle : right ≤ left)
    (hlt : b.leftSize < b.rightSize) (hsize : ∀ k (hk : k < sizes.length), size k = sizes[k]) :
    Balanced left right sizes ⟨b.leftSize + size b.moveIndex, b.rightSize - size b.moveIndex,
      size b.moveIndex, b.moveIndex + 1⟩ := by
  have hindex := h.index_lt hle hlt
  have htake : (sizes.take (b.moveIndex + 1)).sum = (sizes.take b.moveIndex).sum + sizes[b.moveIndex] := by
    rw [← take_concat_get' sizes b.moveIndex hindex, sum_append, sum_singleton]
  have hdrop : (sizes.drop b.moveIndex).sum = sizes[b.moveIndex] + (sizes.drop (b.moveIndex + 1)).sum := by
    rw [← getElem_cons_drop hindex, sum_cons]
  have hmoved := hsize _ hindex
  have hleft := h.leftSize
  have hright := h.rightSize
  refine ⟨hindex, ?_, ?_, fun k hk => ?_⟩
  · dsimp only
    omega
  · dsimp only
    omega
  · obtain rfl : b.moveIndex = k := Nat.succ.inj hk
    dsimp only
    rw [Int.add_sub_cancel, Int.sub_add_cancel]
    exact ⟨hleft, hright, hlt⟩

theorem Balanced.run {fuel : ℕ} (h : Balanced left right sizes b) (hle : right ≤ left)
    (hsize : ∀ k (hk : k < sizes.length), size k = sizes[k])
    (hfuel : sizes.length ≤ b.moveIndex + fuel) :
    Balanced left right sizes (balance size fuel b) ∧
      (balance size fuel b).rightSize ≤ (balance size fuel b).leftSize := by
  induction fuel generalizing b with
  | zero =>
    refine ⟨h, Int.not_lt.mp fun hlt => ?_⟩
    have := h.index_lt hle hlt
    omega
  | succ fuel ih =>
    rw [balance]
    by_cases hlt : b.leftSize < b.rightSize
    · rw [if_pos hlt]
      exact ih (h.step hle hlt hsize) (by dsimp only; omega)
    · rw [if_neg hlt]
      exact ⟨h, Int.not_lt.mp hlt⟩

theorem Balanced.undo (h : Balanced left right sizes b) (hfits : left ≤ nodeSize) :
    (undoLastMove nodeSize b).moveIndex ≤ sizes.length ∧
      (undoLastMove nodeSize b).rightSize =
        right + (sizes.drop (undoLastMove nodeSize b).moveIndex).sum ∧
      ((undoLastMove nodeSize b).rightSize ≤ nodeSize →
        left + (sizes.take (undoLastMove nodeSize b).moveIndex).sum ≤ nodeSize) := by
  have hindex := h.index
  have hleft := h.leftSize
  rw [undoLastMove]
  by_cases hover : (nodeSize : ℤ) < b.leftSize
  · rw [if_pos hover]
    obtain ⟨k, hk⟩ : ∃ k, b.moveIndex = k + 1 := by
      refine Nat.exists_eq_succ_of_ne_zero fun hzero => ?_
      rw [hzero, take_zero, sum_nil] at hleft
      omega
    obtain ⟨hleft', hright', hless⟩ := h.last k hk
    dsimp only
    rw [hk, Nat.add_sub_cancel]
    exact ⟨by omega, hright', by omega⟩
  · rw [if_neg hover]
    exact ⟨hindex, h.rightSize, by omega⟩

theorem Balanced.halves {base w : ℕ} (h : Balanced base base sizes b) (hge : b.rightSize ≤ b.leftSize)
    (hsmall : ∀ x ∈ sizes, x ≤ w) :
    2 * b.leftSize ≤ 2 * base + sizes.sum + 2 * w ∧ 2 * b.rightSize ≤ 2 * base + sizes.sum := by
  have hsum : (sizes.take b.moveIndex).sum + (sizes.drop b.moveIndex).sum = sizes.sum := by
    rw [← sum_append, take_append_drop]
  have hleft := h.leftSize
  have hright := h.rightSize
  refine ⟨?_, by omega⟩
  cases hk : b.moveIndex with
  | zero =>
    rw [hk, take_zero, sum_nil] at hleft
    omega
  | succ k =>
    obtain ⟨hleft', hright', hless⟩ := h.last k hk
    have hindex := h.index
    have hlt : k < sizes.length := by omega
    have hmem : sizes[k] ≤ w := hsmall _ (getElem_mem _)
    have htake : (sizes.take (k + 1)).sum = (sizes.take k).sum + sizes[k] := by
      rw [← take_concat_get' sizes k hlt, sum_append, sum_singleton]
    rw [hk] at hleft hright hsum
    omega

end Darwin.Hfs.BTreeRecords
