import Mathlib.Data.Nat.Notation
import Mathlib.Logic.Function.Basic
import Mathlib.Tactic.SplitIfs

/-! # Open addressing with linear probing

A table of `n` slots in a circle; the value `0` marks an empty slot. Each value has a home
slot and stands at its home or behind it, with no empty slot in between. Deletion closes the
hole it makes by moving back values that stand behind the hole but have their home at or
before it.
-/
namespace Darwin.Lib.LinearProbe
open Function

/-- The slot behind `h`. -/
def next (n h : ℕ) : ℕ := if h + 1 = n then 0 else h + 1

/-- How many steps lead from `h` to `x`. -/
def gap (n h x : ℕ) : ℕ := if h ≤ x then x - h else n - h + x

theorem next_lt {n h : ℕ} (hh : h < n) : next n h < n := by
  unfold next
  split_ifs <;> omega

theorem gap_lt {n h x : ℕ} (hh : h < n) (hx : x < n) : gap n h x < n := by
  unfold gap
  split_ifs <;> omega

theorem gap_self (n h : ℕ) : gap n h h = 0 := by
  unfold gap
  rw [if_pos (Nat.le_refl h), Nat.sub_self]

theorem gap_pos {n h x : ℕ} (hh : h < n) (hne : x ≠ h) : 0 < gap n h x := by
  unfold gap
  split_ifs <;> omega

theorem gap_next {n h x : ℕ} (hh : h < n) (hx : x < n) (hne : x ≠ h) :
    gap n (next n h) x + 1 = gap n h x := by
  unfold gap next
  split_ifs <;> omega

theorem gap_next_self {n h : ℕ} (hh : h < n) : gap n (next n h) h + 1 = n := by
  unfold gap next
  split_ifs <;> omega

theorem gap_trans {n t h x : ℕ} (ht : t < n) (hh : h < n) (hx : x < n)
    (hle : gap n t h ≤ gap n t x) : gap n t x = gap n t h + gap n h x := by
  unfold gap at *
  split_ifs at * <;> omega

theorem gap_inj {n h x y : ℕ} (hh : h < n) (hx : x < n) (hy : y < n)
    (heq : gap n h x = gap n h y) : x = y := by
  unfold gap at heq
  split_ifs at heq <;> omega

/-- The loop that goes on until `stop` holds of the slot, with fuel. -/
def probe (n : ℕ) (stop : ℕ → Bool) : ℕ → ℕ → Option ℕ
  | 0, _ => none
  | fuel + 1, h => if stop h then some h else probe n stop fuel (next n h)

theorem probe_spec {n : ℕ} {stop : ℕ → Bool} : ∀ {fuel h e : ℕ}, h < n → e < n → stop e = true →
    gap n h e < fuel → ∃ x < n, probe n stop fuel h = some x ∧ stop x = true ∧
      ∀ y < n, gap n h y < gap n h x → stop y = false := by
  intro fuel
  induction fuel with
  | zero =>
    intro h e _ _ _ hfuel
    exact absurd hfuel (Nat.not_lt_zero _)
  | succ fuel ih =>
    intro h e hh he hstop hfuel
    by_cases hhere : stop h = true
    · refine ⟨h, hh, if_pos hhere, hhere, ?_⟩
      intro y _ hy
      rw [gap_self] at hy
      exact absurd hy (Nat.not_lt_zero _)
    · have hne : e ≠ h := by
        rintro rfl
        exact hhere hstop
      have hstep := gap_next hh he hne
      obtain ⟨x, hx, hrun, hxs, hbefore⟩ := ih (next_lt hh) he hstop (by omega)
      refine ⟨x, hx, ?_, hxs, ?_⟩
      · rw [probe, if_neg hhere]
        exact hrun
      · intro y hy hlt
        by_cases hyh : y = h
        · rw [hyh]
          simpa using hhere
        · have hxh : x ≠ h := by
            rintro rfl
            exact hhere hxs
          have h1 := gap_next hh hy hyh
          have h2 := gap_next hh hx hxh
          exact hbefore y hy (by omega)

section table
variable {κ : Type} [Zero κ] {n : ℕ} {home : κ → ℕ} {slot : ℕ → κ} {hole : ℕ}

/-- Every value stands behind its home with no empty slot between, and stands only once; the
slot `hole` counts as neither empty nor as holding a value. -/
structure Holed (n : ℕ) (home : κ → ℕ) (slot : ℕ → κ) (hole : ℕ) : Prop where
  inside : ∀ d < n, d ≠ hole → slot d ≠ 0 → home (slot d) < n
  reach : ∀ d < n, d ≠ hole → slot d ≠ 0 → ∀ x < n, x ≠ hole →
    gap n (home (slot d)) x < gap n (home (slot d)) d → slot x ≠ 0
  once : ∀ d < n, d ≠ hole → ∀ d' < n, d' ≠ hole → slot d ≠ 0 → slot d = slot d' → d = d'

/-- The same for a table without a hole. -/
structure Probed (n : ℕ) (home : κ → ℕ) (slot : ℕ → κ) : Prop where
  inside : ∀ d < n, slot d ≠ 0 → home (slot d) < n
  reach : ∀ d < n, slot d ≠ 0 → ∀ x < n,
    gap n (home (slot d)) x < gap n (home (slot d)) d → slot x ≠ 0
  once : ∀ d < n, ∀ d' < n, slot d ≠ 0 → slot d = slot d' → d = d'

/-- The value is in the table. -/
def Holds (n : ℕ) (slot : ℕ → κ) (c : κ) : Prop := ∃ d < n, slot d = c

theorem Probed.holed (h : Probed n home slot) (hole : ℕ) : Holed n home slot hole := by
  refine ⟨fun d hd _ => h.inside d hd, ?_, fun d hd _ d' hd' _ => h.once d hd d' hd'⟩
  intro d hd _ hne x hx _
  exact h.reach d hd hne x hx

theorem Probed.insert (h : Probed n home slot) {c : κ} {x : ℕ} (hc : c ≠ 0) (hnew : ¬ Holds n slot c)
    (hhome : home c < n)
    (hbefore : ∀ y < n, gap n (home c) y < gap n (home c) x → slot y ≠ 0) :
    Probed n home (update slot x c) := by
  constructor
  · intro d hd hne
    by_cases hdx : d = x
    · rw [hdx, update_self]
      exact hhome
    · rw [update_of_ne hdx] at hne ⊢
      exact h.inside d hd hne
  · intro d hd hne y hy hlt
    by_cases hyx : y = x
    · rw [hyx, update_self]
      exact hc
    rw [update_of_ne hyx]
    by_cases hdx : d = x
    · rw [hdx, update_self] at hlt
      exact hbefore y hy hlt
    · rw [update_of_ne hdx] at hne hlt
      exact h.reach d hd hne y hy hlt
  · intro d hd d' hd' hne heq
    by_cases hdx : d = x
    · by_cases hdx' : d' = x
      · rw [hdx, hdx']
      · rw [hdx, update_self, update_of_ne hdx'] at heq
        exact absurd ⟨d', hd', heq.symm⟩ hnew
    · by_cases hdx' : d' = x
      · rw [hdx', update_self, update_of_ne hdx] at heq
        exact absurd ⟨d, hd, heq⟩ hnew
      · rw [update_of_ne hdx] at hne heq
        rw [update_of_ne hdx'] at heq
        exact h.once d hd d' hd' hne heq

/-- The home of a value that stands at `d` is not behind the hole: it may move there. -/
def Displaced (n hole d t : ℕ) : Prop := t = hole ∨ gap n hole d < gap n hole t

theorem Holed.move (h : Holed n home slot hole) (hhole : hole < n) {d : ℕ} (hd : d < n)
    (hdh : d ≠ hole) (hne : slot d ≠ 0) (hdis : Displaced n hole d (home (slot d))) :
    Holed n home (update slot hole (slot d)) d := by
  have hhome := h.inside d hd hdh hne
  -- the hole is on the way from the home of the value to the value
  have hway : gap n (home (slot d)) hole < gap n (home (slot d)) d := by
    rcases hdis with heq | hlt
    · rw [heq, gap_self]
      exact gap_pos hhole hdh
    · unfold gap at *
      split_ifs at * <;> omega
  constructor
  · intro x hx hxd hxne
    by_cases hxh : x = hole
    · rw [hxh, update_self]
      exact hhome
    · rw [update_of_ne hxh] at hxne ⊢
      exact h.inside x hx hxh hxne
  · intro x hx hxd hxne y hy hyd hlt
    by_cases hyh : y = hole
    · rw [hyh, update_self]
      exact hne
    rw [update_of_ne hyh]
    by_cases hxh : x = hole
    · rw [hxh, update_self] at hlt
      exact h.reach d hd hdh hne y hy hyh (by omega)
    · rw [update_of_ne hxh] at hxne hlt
      exact h.reach x hx hxh hxne y hy hyh hlt
  · intro x hx hxd y hy hyd hxne heq
    by_cases hxh : x = hole
    · by_cases hyh : y = hole
      · rw [hxh, hyh]
      · rw [hxh, update_self, update_of_ne hyh] at heq
        exact absurd (h.once d hd hdh y hy hyh hne heq) (Ne.symm hyd)
    · rw [update_of_ne hxh] at hxne heq
      by_cases hyh : y = hole
      · rw [hyh, update_self] at heq
        exact absurd (h.once x hx hxh d hd hdh hxne heq) hxd
      · rw [update_of_ne hyh] at heq
        exact h.once x hx hxh y hy hyh hxne heq

theorem Holed.close (h : Holed n home slot hole) (hhole : hole < n) {e : ℕ} (he : e < n)
    (heh : e ≠ hole) (hempty : slot e = 0)
    (hbetween : ∀ x < n, x ≠ hole → gap n hole x < gap n hole e →
      ¬ Displaced n hole x (home (slot x))) :
    Probed n home (update slot hole 0) := by
  have hother : ∀ x, update slot hole 0 x ≠ 0 → x ≠ hole ∧ slot x ≠ 0 := by
    intro x hx
    by_cases hxh : x = hole
    · rw [hxh, update_self] at hx
      exact absurd rfl hx
    · rw [update_of_ne hxh] at hx
      exact ⟨hxh, hx⟩
  constructor
  · intro d hd hne
    obtain ⟨hdh, hd0⟩ := hother d hne
    rw [update_of_ne hdh]
    exact h.inside d hd hdh hd0
  · intro d hd hne x hx hlt
    obtain ⟨hdh, hd0⟩ := hother d hne
    rw [update_of_ne hdh] at hlt
    by_cases hxh : x = hole
    · -- the value would stand behind the hole and be displaced, or behind the empty slot
      exfalso
      subst hxh
      have ht := h.inside d hd hdh hd0
      have hreach : ¬ gap n (home (slot d)) e < gap n (home (slot d)) d :=
        fun hlt' => h.reach d hd hdh hd0 e he heh hlt' hempty
      have hsplit := gap_trans ht hx hd (Nat.le_of_lt hlt)
      by_cases hbefore : gap n x d < gap n x e
      · apply hbetween d hd hdh hbefore
        by_cases hth : home (slot d) = x
        · exact .inl hth
        · refine .inr ?_
          unfold gap at hlt ⊢
          split_ifs at * <;> omega
      · by_cases hde : d = e
        · rw [hde] at hd0
          exact hd0 hempty
        · apply hreach
          unfold gap at *
          split_ifs at * <;> omega
    · rw [update_of_ne hxh]
      exact h.reach d hd hdh hd0 x hx hxh hlt
  · intro d hd d' hd' hne heq
    obtain ⟨hdh, hd0⟩ := hother d hne
    have hne' : update slot hole 0 d' ≠ 0 := by
      rw [← heq]
      exact hne
    obtain ⟨hdh', -⟩ := hother d' hne'
    rw [update_of_ne hdh, update_of_ne hdh'] at heq
    exact h.once d hd hdh d' hd' hdh' hd0 heq

end table

end Darwin.Lib.LinearProbe
