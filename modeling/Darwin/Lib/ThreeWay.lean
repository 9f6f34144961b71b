import Mathlib.Order.Compare
import Mathlib.Data.Int.Order.Basic
import Mathlib.Data.Prod.Lex
import Mathlib.Tactic.Common

/-! # Three-way comparisons

A comparison that returns a negative number, zero or a positive number, and the key that it
orders its arguments by.
-/
namespace Darwin.Lib

variable {α κ : Type*} [LinearOrder κ]

/-- The comparison orders its arguments as their keys are ordered. -/
structure OrdersBy (cmp : α → α → ℤ) (key : α → κ) : Prop where
  eq_iff : ∀ a b, cmp a b = 0 ↔ key a = key b
  lt_iff : ∀ a b, cmp a b < 0 ↔ key a < key b

namespace OrdersBy

variable {cmp : α → α → ℤ} {key : α → κ} (h : OrdersBy cmp key)
include h

theorem gt_iff (a b : α) : 0 < cmp a b ↔ key b < key a := by
  have heq := h.eq_iff a b
  have hlt := h.lt_iff a b
  constructor
  · intro hpos
    have hne : key a ≠ key b := fun hk => by have := heq.mpr hk; omega
    have hnlt : ¬ key a < key b := fun hk => by have := hlt.mpr hk; omega
    exact lt_of_le_of_ne (not_lt.mp hnlt) hne.symm
  · intro hk
    have hne : cmp a b ≠ 0 := fun h0 => hk.ne' (heq.mp h0)
    have hnneg : ¬ cmp a b < 0 := fun h0 => lt_asymm hk (hlt.mp h0)
    omega

theorem le_iff (a b : α) : cmp a b ≤ 0 ↔ key a ≤ key b := by
  rw [← not_lt, h.gt_iff, not_lt]

theorem refl (a : α) : cmp a a = 0 := (h.eq_iff a a).mpr rfl

theorem total (a b : α) : cmp a b ≤ 0 ∨ cmp b a ≤ 0 := by
  rw [h.le_iff, h.le_iff]
  exact le_total _ _

theorem sign_swap (a b : α) : Int.sign (cmp b a) = - Int.sign (cmp a b) := by
  rcases lt_trichotomy (key a) (key b) with hk | hk | hk
  · rw [Int.sign_eq_neg_one_of_neg ((h.lt_iff a b).mpr hk),
      Int.sign_eq_one_of_pos ((h.gt_iff b a).mpr hk), Int.neg_neg]
  · rw [(h.eq_iff a b).mpr hk, (h.eq_iff b a).mpr hk.symm, Int.sign_zero, Int.neg_zero]
  · rw [Int.sign_eq_one_of_pos ((h.gt_iff a b).mpr hk),
      Int.sign_eq_neg_one_of_neg ((h.lt_iff b a).mpr hk)]

theorem trans {a b c : α} (hab : cmp a b ≤ 0) (hbc : cmp b c ≤ 0) : cmp a c ≤ 0 :=
  (h.le_iff a c).mpr (((h.le_iff a b).mp hab).trans ((h.le_iff b c).mp hbc))

theorem compare_eq (a b : α) : compare (cmp a b) 0 = compare (key a) (key b) := by
  rcases lt_trichotomy (key a) (key b) with hk | hk | hk
  · rw [compare_lt_iff_lt.mpr hk, compare_lt_iff_lt.mpr ((h.lt_iff a b).mpr hk)]
  · rw [compare_eq_iff_eq.mpr hk, compare_eq_iff_eq.mpr ((h.eq_iff a b).mpr hk)]
  · rw [compare_gt_iff_gt.mpr hk, compare_gt_iff_gt.mpr ((h.gt_iff a b).mpr hk)]

theorem transCmp : Std.TransCmp fun a b => compare (cmp a b) 0 where
  eq_swap {a b} := by
    rw [h.compare_eq, h.compare_eq]
    exact Std.OrientedCmp.eq_swap
  isLE_trans {a b c} hab hbc := by
    rw [h.compare_eq] at hab hbc ⊢
    exact Std.TransCmp.isLE_trans hab hbc

theorem comap {β : Type*} (f : β → α) :
    OrdersBy (fun a b => cmp (f a) (f b)) (key ∘ f) :=
  ⟨fun a b => h.eq_iff (f a) (f b), fun a b => h.lt_iff (f a) (f b)⟩

theorem lex {ι : Type*} [LinearOrder ι] (first : α → ι) :
    OrdersBy (fun a b => if first b < first a then 1 else if first a < first b then -1 else cmp a b)
      (fun a => toLex (first a, key a)) where
  eq_iff a b := by
    rw [EmbeddingLike.apply_eq_iff_eq, Prod.mk.injEq, ← h.eq_iff]
    rcases lt_trichotomy (first a) (first b) with hab | hab | hab
    · simp [hab, hab.not_gt, hab.ne]
    · simp [hab]
    · simp [hab, hab.ne']
  lt_iff a b := by
    rw [Prod.Lex.toLex_lt_toLex, ← h.lt_iff]
    rcases lt_trichotomy (first a) (first b) with hab | hab | hab
    · simp [hab, hab.not_gt]
    · simp [hab]
    · simp [hab, hab.not_gt, hab.ne']

end OrdersBy

end Darwin.Lib
