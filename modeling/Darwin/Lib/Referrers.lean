import Mathlib.Algebra.Order.BigOperators.Group.Finset
import Mathlib.Data.Finset.Card
import Mathlib.Order.Interval.Finset.Nat

/-! # Counting pointers

Cells `0, …, n - 1` that each hold at most one pointer, and how many of them point to a
given target.
-/
namespace Darwin.Lib
open Function

variable {α : Type} [DecidableEq α] {f : ℕ → Option α} {n x : ℕ} {a : α}

def referrers (f : ℕ → Option α) (n : ℕ) (a : α) : ℕ :=
  ((Finset.range n).filter (fun x => f x = some a)).card

theorem referrers_congr {f' : ℕ → Option α} (h : ∀ x < n, f' x = some a ↔ f x = some a) :
    referrers f' n a = referrers f n a := by
  unfold referrers
  congr 1
  ext x
  simp only [Finset.mem_filter, Finset.mem_range]
  exact and_congr_right (h x)

theorem referrers_update (v : Option α) (hx : x < n) :
    referrers (update f x v) n a + (if f x = some a then 1 else 0) =
      referrers f n a + (if v = some a then 1 else 0) := by
  have split : ∀ g : ℕ → Option α, referrers g n a =
      (((Finset.range n).erase x).filter (fun y => g y = some a)).card +
        (if g x = some a then 1 else 0) := by
    intro g
    rw [referrers, ← Finset.insert_erase (Finset.mem_range.mpr hx), Finset.filter_insert,
      Finset.erase_insert (Finset.notMem_erase x _)]
    split
    · exact Finset.card_insert_of_notMem
        (fun h => Finset.notMem_erase x _ (Finset.mem_of_mem_filter _ h))
    · rfl
  have off : ((Finset.range n).erase x).filter (fun y => update f x v y = some a) =
      ((Finset.range n).erase x).filter (fun y => f y = some a) := by
    apply Finset.filter_congr
    intro y hy
    rw [update_of_ne (Finset.ne_of_mem_erase hy)]
  rw [split (update f x v), split f, off, update_self]
  omega

theorem referrers_succ : referrers f (n + 1) a =
    referrers f n a + (if f n = some a then 1 else 0) := by
  rw [referrers, Finset.range_add_one, Finset.filter_insert]
  split
  · exact Finset.card_insert_of_notMem
      (fun h => Finset.notMem_range_self (Finset.mem_of_mem_filter _ h))
  · rfl

theorem referrers_pos (hx : x < n) (h : f x = some a) : 0 < referrers f n a :=
  Finset.card_pos.mpr ⟨x, Finset.mem_filter.mpr ⟨Finset.mem_range.mpr hx, h⟩⟩

theorem referrers_unique {y : ℕ} (h : referrers f n a ≤ 1) (hx : x < n) (hy : y < n)
    (hfx : f x = some a) (hfy : f y = some a) : x = y :=
  Finset.card_le_one.mp h x (Finset.mem_filter.mpr ⟨Finset.mem_range.mpr hx, hfx⟩)
    y (Finset.mem_filter.mpr ⟨Finset.mem_range.mpr hy, hfy⟩)

theorem referrers_eq_zero (h : ∀ x < n, f x ≠ some a) : referrers f n a = 0 :=
  Finset.card_eq_zero.mpr (Finset.filter_eq_empty_iff.mpr
    (fun x hx => h x (Finset.mem_range.mp hx)))

theorem referrers_le : referrers f n a ≤ n := by
  have hcard := Finset.card_filter_le (Finset.range n) (fun x => f x = some a)
  rwa [Finset.card_range] at hcard

end Darwin.Lib
