import Mathlib.Logic.Function.Basic
import Mathlib.Tactic.Common

/-! # Sweeps

A loop that goes through places of a function, one after the other, and changes the value at each.
-/
namespace Darwin.Lib
open Function

variable {α β : Type*} [DecidableEq α]

/-- Turn `i` of the loop changes the value at `place i`. -/
def sweep (place : ℕ → α) (change : ℕ → β → β) : ℕ → (α → β) → α → β
  | 0, f => f
  | n + 1, f =>
    let f' := sweep place change n f
    update f' (place n) (change n (f' (place n)))

variable {place : ℕ → α} {change change' : ℕ → β → β} {f : α → β} {n i : ℕ} {x : α}

theorem sweep_of_ne (h : ∀ i < n, x ≠ place i) : sweep place change n f x = f x := by
  induction n with
  | zero => rfl
  | succ n ih =>
    rw [sweep, update_of_ne (h n (Nat.lt_succ_self n))]
    exact ih (fun i hi => h i (Nat.lt_succ_of_lt hi))

theorem sweep_place (hinj : ∀ i < n, ∀ j < n, place i = place j → i = j) (hi : i < n) :
    sweep place change n f (place i) = change i (f (place i)) := by
  induction n with
  | zero => exact absurd hi (Nat.not_lt_zero i)
  | succ n ih =>
    have hne : ∀ j < n, place n ≠ place j := by
      intro j hj heq
      exact Nat.ne_of_gt hj (hinj n (Nat.lt_succ_self n) j (Nat.lt_succ_of_lt hj) heq)
    rw [sweep]
    rcases Nat.lt_succ_iff_lt_or_eq.mp hi with hlt | rfl
    · rw [update_of_ne (hne i hlt).symm]
      exact ih (fun a ha b hb => hinj a (Nat.lt_succ_of_lt ha) b (Nat.lt_succ_of_lt hb)) hlt
    · rw [update_self, sweep_of_ne hne]

theorem sweep_congr (hinj : ∀ i < n, ∀ j < n, place i = place j → i = j)
    (h : ∀ i < n, change i (f (place i)) = change' i (f (place i))) :
    sweep place change n f = sweep place change' n f := by
  funext x
  by_cases hx : ∃ i < n, x = place i
  · obtain ⟨i, hi, rfl⟩ := hx
    rw [sweep_place hinj hi, sweep_place hinj hi, h i hi]
  · have hne : ∀ i < n, x ≠ place i := fun i hi heq => hx ⟨i, hi, heq⟩
    rw [sweep_of_ne hne, sweep_of_ne hne]

end Darwin.Lib
