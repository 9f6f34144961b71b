import Mathlib.Algebra.BigOperators.Group.List.Basic
import Mathlib.Algebra.Ring.Nat

/-! # Ranges of addresses

A range is its first address and its length. A region that is given back in pieces is given
back exactly once when the pieces follow each other and are together as long as the region.
-/
namespace Darwin.Lib

/-- How many of the ranges hold the address. -/
def covers (l : List (ℕ × ℕ)) (x : ℕ) : ℕ := l.countP (fun r => r.1 ≤ x ∧ x < r.1 + r.2)

/-- The length of all ranges together. -/
def extent (l : List (ℕ × ℕ)) : ℕ := (l.map Prod.snd).sum

/-- Every range begins where the one before it ends, and the first one at `base`. -/
def Consecutive (base : ℕ) : List (ℕ × ℕ) → Prop
  | [] => True
  | r :: l => r.1 = base ∧ Consecutive (base + r.2) l

/-- Each address of the region is in exactly one of the ranges, and no other address is. -/
def CoversOnce (base size : ℕ) (l : List (ℕ × ℕ)) : Prop :=
  ∀ x, covers l x = if base ≤ x ∧ x < base + size then 1 else 0

variable {base size : ℕ} {l l' : List (ℕ × ℕ)} {r : ℕ × ℕ}

@[simp] theorem extent_nil : extent [] = 0 := rfl

@[simp] theorem extent_cons : extent (r :: l) = r.2 + extent l := by simp [extent]

@[simp] theorem extent_append : extent (l ++ l') = extent l + extent l' := by simp [extent]

theorem consecutive_append :
    Consecutive base (l ++ l') ↔ Consecutive base l ∧ Consecutive (base + extent l) l' := by
  induction l generalizing base with
  | nil => simp [Consecutive]
  | cons r l ih =>
    rw [List.cons_append, Consecutive, Consecutive, ih, extent_cons, Nat.add_assoc, and_assoc]

theorem Consecutive.covers_eq (h : Consecutive base l) (x : ℕ) :
    covers l x = if base ≤ x ∧ x < base + extent l then 1 else 0 := by
  induction l generalizing base with
  | nil =>
    have hx : ¬ (base ≤ x ∧ x < base) := by omega
    simp [covers, hx]
  | cons r l ih =>
    obtain ⟨rfl, hl⟩ := h
    have hrest := ih hl
    rw [covers] at hrest
    rw [covers, List.countP_cons, hrest, extent_cons]
    simp only [decide_eq_true_eq]
    split <;> split <;> split <;> omega

theorem Consecutive.coversOnce_iff (h : Consecutive base l) :
    CoversOnce base size l ↔ extent l = size := by
  constructor
  · intro honce
    by_contra hne
    -- the first address past the shorter of the two lengths tells them apart
    have hx := honce (base + min (extent l) size)
    rw [h.covers_eq] at hx
    rcases Nat.lt_or_gt_of_ne hne with hlt | hlt
    · rw [Nat.min_eq_left (Nat.le_of_lt hlt), if_neg (by omega), if_pos (by omega)] at hx
      exact absurd hx (by omega)
    · rw [Nat.min_eq_right (Nat.le_of_lt hlt), if_pos (by omega), if_neg (by omega)] at hx
      exact absurd hx (by omega)
  · rintro rfl x
    exact h.covers_eq x

end Darwin.Lib
