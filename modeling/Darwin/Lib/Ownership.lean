import Mathlib.Data.Nat.Notation

/-! # Slots that own resources

A slot holds at most one resource. The resources in use are those in a slot, and none is in two.
-/
namespace Darwin.Lib
variable {K V : Type} {slot slot' : K → Option V} {used used' : V → Prop} {k : K} {v : V}

structure Owned (slot : K → Option V) (used : V → Prop) : Prop where
  used_iff : ∀ v, used v ↔ ∃ k, slot k = some v
  inj : ∀ k k' v, slot k = some v → slot k' = some v → k = k'

theorem Owned.congr (h : Owned slot used) (hslot : ∀ k, slot' k = slot k) (hused : ∀ v, used' v ↔ used v) :
    Owned slot' used' := by
  constructor
  · intro v
    simp only [hused, hslot]
    exact h.used_iff v
  · intro k k' v hk hk'
    rw [hslot] at hk hk'
    exact h.inj k k' v hk hk'

theorem Owned.take (h : Owned slot used) (hfree : ¬ used v) (hk : slot k = none) (hself : slot' k = some v)
    (hother : ∀ k' ≠ k, slot' k' = slot k') (hused : ∀ w, used' w ↔ used w ∨ w = v) : Owned slot' used' := by
  have hcases : ∀ k' w, slot' k' = some w → (k' = k ∧ w = v) ∨ (k' ≠ k ∧ slot k' = some w) := by
    intro k' w hw
    by_cases hkk : k' = k
    · subst hkk
      exact .inl ⟨rfl, Option.some.inj (hw.symm.trans hself)⟩
    · exact .inr ⟨hkk, (hother k' hkk).symm.trans hw⟩
  constructor
  · intro w
    rw [hused, h.used_iff]
    constructor
    · rintro (⟨k', hk'⟩ | rfl)
      · refine ⟨k', (hother k' ?_).trans hk'⟩
        rintro rfl
        cases hk.symm.trans hk'
      · exact ⟨k, hself⟩
    · rintro ⟨k', hk'⟩
      rcases hcases k' w hk' with ⟨-, rfl⟩ | ⟨-, hk'⟩
      · exact .inr rfl
      · exact .inl ⟨k', hk'⟩
  · intro k₁ k₂ w h₁ h₂
    rcases hcases k₁ w h₁ with ⟨rfl, rfl⟩ | ⟨-, h₁⟩
    · rcases hcases k₂ w h₂ with ⟨rfl, -⟩ | ⟨-, h₂⟩
      · rfl
      · exact absurd ((h.used_iff w).mpr ⟨k₂, h₂⟩) hfree
    · rcases hcases k₂ w h₂ with ⟨rfl, rfl⟩ | ⟨-, h₂⟩
      · exact absurd ((h.used_iff w).mpr ⟨k₁, h₁⟩) hfree
      · exact h.inj k₁ k₂ w h₁ h₂

theorem Owned.release (h : Owned slot used) (hk : slot k = some v) (hself : slot' k = none)
    (hother : ∀ k' ≠ k, slot' k' = slot k') (hused : ∀ w, used' w ↔ used w ∧ w ≠ v) : Owned slot' used' := by
  have hcases : ∀ k' w, slot' k' = some w → k' ≠ k ∧ slot k' = some w := by
    intro k' w hw
    by_cases hkk : k' = k
    · subst hkk
      cases hself.symm.trans hw
    · exact ⟨hkk, (hother k' hkk).symm.trans hw⟩
  constructor
  · intro w
    rw [hused, h.used_iff]
    constructor
    · rintro ⟨⟨k', hk'⟩, hne⟩
      refine ⟨k', (hother k' ?_).trans hk'⟩
      rintro rfl
      exact hne (Option.some.inj (hk'.symm.trans hk))
    · rintro ⟨k', hk'⟩
      obtain ⟨hkk, hk'⟩ := hcases k' w hk'
      refine ⟨⟨k', hk'⟩, ?_⟩
      rintro rfl
      exact hkk (h.inj k' k w hk' hk)
  · intro k₁ k₂ w h₁ h₂
    exact h.inj k₁ k₂ w (hcases k₁ w h₁).2 (hcases k₂ w h₂).2

end Darwin.Lib
