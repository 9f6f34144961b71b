import Mathlib.Data.List.Nodup
import Mathlib.Data.Set.Card

/-! # Listings of finite predicates

A list without repetitions of just the elements that have a property: the way to count them
while the property changes at one element at a time.
-/
namespace Darwin.Lib
variable {α : Type*} {P Q : α → Prop} {l : List α} {a : α}

structure Listing (P : α → Prop) (l : List α) : Prop where
  nodup : l.Nodup
  mem_iff : ∀ a, a ∈ l ↔ P a

namespace Listing

theorem nil (h : ∀ a, ¬ P a) : Listing P [] := ⟨List.nodup_nil, fun a => by simp [h a]⟩

theorem congr (h : Listing P l) (hPQ : ∀ a, Q a ↔ P a) : Listing Q l :=
  ⟨h.nodup, fun a => (h.mem_iff a).trans (hPQ a).symm⟩

theorem cons (h : Listing P l) (ha : ¬ P a) (hQa : Q a) (hPQ : ∀ b, b ≠ a → (Q b ↔ P b)) :
    Listing Q (a :: l) := by
  refine ⟨List.nodup_cons.mpr ⟨fun hl => ha ((h.mem_iff a).mp hl), h.nodup⟩, fun b => ?_⟩
  by_cases hb : b = a
  · simp [hb, hQa]
  · rw [List.mem_cons, h.mem_iff, hPQ b hb]
    simp [hb]

theorem erase [DecidableEq α] (h : Listing P l) (hQa : ¬ Q a) (hPQ : ∀ b, b ≠ a → (Q b ↔ P b)) :
    Listing Q (l.erase a) := by
  refine ⟨h.nodup.erase a, fun b => ?_⟩
  rw [h.nodup.mem_erase_iff, h.mem_iff]
  by_cases hb : b = a
  · simp [hb, hQa]
  · simp [hb, hPQ b hb]

theorem append {l' : List α} (h : Listing P l) (hnd : l'.Nodup) (hl' : ∀ a ∈ l', ¬ P a ∧ Q a)
    (hPQ : ∀ b, b ∉ l' → (Q b ↔ P b)) : Listing Q (l' ++ l) := by
  refine ⟨List.nodup_append.mpr ⟨hnd, h.nodup, ?_⟩, fun b => ?_⟩
  · rintro a ha b hb rfl
    exact (hl' a ha).1 ((h.mem_iff a).mp hb)
  · by_cases hb : b ∈ l'
    · simp [hb, (hl' b hb).2]
    · rw [List.mem_append, h.mem_iff, hPQ b hb]
      simp [hb]

theorem encard_eq (h : Listing P l) : {a | P a}.encard = l.length := by
  classical
  have hset : {a | P a} = (l.toFinset : Set α) := by
    ext a
    simp [h.mem_iff]
  rw [hset, Set.encard_coe_eq_coe_finsetCard, List.toFinset_card_of_nodup h.nodup]

end Listing

end Darwin.Lib
