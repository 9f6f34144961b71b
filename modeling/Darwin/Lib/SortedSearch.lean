import Mathlib.Data.Int.Notation
import Mathlib.Data.List.Induction
import Mathlib.Tactic.Common

/-! # Searching a sorted list

A probe compares the key that is searched for with an element: it is `.gt` on the elements
before the key, `.eq` on those that match it and `.lt` on those behind it. A cut is the place of
the key in a sorted list, and binary search finds it.
-/
namespace Darwin.Lib
open List

variable {α : Type} {c : α → Ordering} {l : List α}

/-- The elements are sorted as the probe sees them. -/
def Probe.Sorted (c : α → Ordering) (l : List α) : Prop :=
  l.Pairwise (fun a b => c a ≠ .gt → c b = .lt)

/-- The key stands at place `i` of the list: at a matching element, or in a gap before it. -/
inductive Cut (c : α → Ordering) : List α → Bool → ℕ → Prop
  | found {xs ys : List α} {y : α} (before : ∀ x ∈ xs, c x = .gt) (here : c y = .eq)
      (behind : ∀ x ∈ ys, c x = .lt) : Cut c (xs ++ y :: ys) true xs.length
  | gap {xs ys : List α} (before : ∀ x ∈ xs, c x = .gt) (behind : ∀ x ∈ ys, c x = .lt) :
      Cut c (xs ++ ys) false xs.length

/-- Binary search between the bounds `lower` and `upper`. -/
def bisect (c : α → Ordering) (l : List α) : ℕ → ℤ → ℤ → Bool × ℕ
  | 0, lower, _ => (false, lower.toNat)
  | fuel + 1, lower, upper =>
    if lower ≤ upper then
      let index := (lower + upper) / 2
      match l[index.toNat]? with
      | none => (false, lower.toNat)
      | some x =>
        match c x with
        | .lt => bisect c l fuel lower (index - 1)
        | .gt => bisect c l fuel (index + 1) upper
        | .eq => (true, index.toNat)
    else (false, lower.toNat)

theorem Probe.Sorted.gt_of_lt_place (h : Sorted c l) {i j : ℕ} {x y : α} (hij : i < j)
    (hx : l[i]? = some x) (hy : l[j]? = some y) (hc : c y ≠ .lt) : c x = .gt := by
  by_contra hne
  obtain ⟨hi, rfl⟩ := List.getElem?_eq_some_iff.mp hx
  obtain ⟨hj, rfl⟩ := List.getElem?_eq_some_iff.mp hy
  exact hc (pairwise_iff_getElem.mp h i j hi hj hij hne)

theorem Probe.Sorted.lt_of_lt_place (h : Sorted c l) {i j : ℕ} {x y : α} (hij : i < j)
    (hx : l[i]? = some x) (hy : l[j]? = some y) (hc : c x ≠ .gt) : c y = .lt := by
  by_contra hne
  exact hc (h.gt_of_lt_place hij hx hy hne)

theorem Probe.Sorted.cut_found (h : Sorted c l) {i : ℕ} {x : α} (hx : l[i]? = some x)
    (hc : c x = .eq) : Cut c l true i := by
  obtain ⟨hi, rfl⟩ := List.getElem?_eq_some_iff.mp hx
  have hsplit : l = l.take i ++ l[i] :: l.drop (i + 1) := by
    rw [getElem_cons_drop, take_append_drop]
  have hlength : (l.take i).length = i := by
    rw [length_take]
    omega
  have hcut : Cut c (l.take i ++ l[i] :: l.drop (i + 1)) true (l.take i).length := by
    apply Cut.found
    · intro a ha
      obtain ⟨j, hj, rfl⟩ := mem_take_iff_getElem.mp ha
      exact h.gt_of_lt_place (by omega) (List.getElem?_eq_getElem _) hx (by simp [hc])
    · exact hc
    · intro a ha
      obtain ⟨j, hj, rfl⟩ := mem_drop_iff_getElem.mp ha
      exact h.lt_of_lt_place (by omega) hx (List.getElem?_eq_getElem _) (by simp [hc])
  rwa [← hsplit, hlength] at hcut

theorem cut_gap {i : ℕ} (hi : i ≤ l.length) (hlow : ∀ j x, j < i → l[j]? = some x → c x = .gt)
    (hhigh : ∀ j x, i ≤ j → l[j]? = some x → c x = .lt) : Cut c l false i := by
  have hlength : (l.take i).length = i := by
    rw [length_take]
    omega
  have hcut : Cut c (l.take i ++ l.drop i) false (l.take i).length := by
    apply Cut.gap
    · intro a ha
      obtain ⟨j, hj, rfl⟩ := mem_take_iff_getElem.mp ha
      exact hlow j _ (by omega) (List.getElem?_eq_getElem _)
    · intro a ha
      obtain ⟨j, hj, rfl⟩ := mem_drop_iff_getElem.mp ha
      exact hhigh (j + i) _ (by omega) (by rw [Nat.add_comm]; exact List.getElem?_eq_getElem _)
  rwa [take_append_drop, hlength] at hcut

/-- Binary search ends at the cut. The bounds are such that everything before `lower` is
smaller and everything behind `upper` is larger than the key. -/
theorem bisect_cut (h : Probe.Sorted c l) : ∀ {fuel : ℕ} {lower upper : ℤ}, 0 ≤ lower →
    lower ≤ upper + 1 → upper < l.length → upper + 1 - lower ≤ fuel →
    (∀ (j : ℕ) x, (j : ℤ) < lower → l[j]? = some x → c x = .gt) →
    (∀ (j : ℕ) x, upper < (j : ℤ) → l[j]? = some x → c x = .lt) →
    Cut c l (bisect c l fuel lower upper).1 (bisect c l fuel lower upper).2 := by
  intro fuel
  have hdone : ∀ {lower upper : ℤ}, 0 ≤ lower → lower = upper + 1 → upper < l.length →
      (∀ (j : ℕ) x, (j : ℤ) < lower → l[j]? = some x → c x = .gt) →
      (∀ (j : ℕ) x, upper < (j : ℤ) → l[j]? = some x → c x = .lt) → Cut c l false lower.toNat := by
    intro lower upper h0 hlu hu hlow hhigh
    apply cut_gap (by omega)
    · intro j x hj hx
      exact hlow j x (by omega) hx
    · intro j x hj hx
      exact hhigh j x (by omega) hx
  induction fuel with
  | zero =>
    intro lower upper h0 hle hu hfuel hlow hhigh
    exact hdone h0 (by omega) hu hlow hhigh
  | succ fuel ih =>
    intro lower upper h0 hle hu hfuel hlow hhigh
    rw [bisect]
    by_cases hlu : lower ≤ upper
    · obtain ⟨x, hx⟩ : ∃ x, l[((lower + upper) / 2).toNat]? = some x :=
        ⟨_, List.getElem?_eq_getElem (by omega)⟩
      simp only [hlu, if_true, hx]
      match hc : c x with
      | .lt =>
        apply ih h0 (by omega) (by omega) (by omega) hlow
        intro j y hj hy
        by_cases hji : j = ((lower + upper) / 2).toNat
        · subst hji
          rw [hx] at hy
          cases hy
          exact hc
        · exact h.lt_of_lt_place (by omega) hx hy (by simp [hc])
      | .gt =>
        apply ih (by omega) (by omega) hu (by omega) _ hhigh
        intro j y hj hy
        by_cases hji : j = ((lower + upper) / 2).toNat
        · subst hji
          rw [hx] at hy
          cases hy
          exact hc
        · exact h.gt_of_lt_place (by omega) hy hx (by simp [hc])
      | .eq => exact h.cut_found hx hc
    · simp only [hlu, if_false]
      exact hdone h0 (by omega) hu hlow hhigh

theorem bisect_found {fuel : ℕ} {lower upper : ℤ} (h : (bisect c l fuel lower upper).1 = true) :
    ∃ x, l[(bisect c l fuel lower upper).2]? = some x ∧ c x = .eq := by
  induction fuel generalizing lower upper with
  | zero => simp [bisect] at h
  | succ fuel ih =>
    rw [bisect] at h ⊢
    by_cases hlu : lower ≤ upper
    · simp only [if_pos hlu] at h ⊢
      cases hx : l[((lower + upper) / 2).toNat]? with
      | none => simp [hx] at h
      | some x =>
        simp only [hx] at h ⊢
        cases hc : c x with
        | lt =>
          simp only [hc] at h ⊢
          exact ih h
        | gt =>
          simp only [hc] at h ⊢
          exact ih h
        | eq => exact ⟨x, hx, hc⟩
    · simp [hlu] at h

namespace Cut
variable {b : Bool} {i : ℕ}

theorem le_length (h : Cut c l b i) : i ≤ l.length := by
  cases h with
  | found before here behind => simp
  | gap before behind => simp

theorem lt_length (h : Cut c l true i) : i < l.length := by
  cases h with
  | found before here behind => simp

theorem all_before (h : Cut c l false l.length) : ∀ x ∈ l, c x = .gt := by
  generalize hi : l.length = i at h
  generalize hb : false = b at h
  cases h with
  | found before here behind => cases hb
  | gap before behind =>
    rename_i xs ys
    have hys : ys = [] := by
      rw [length_append] at hi
      exact length_eq_zero_iff.mp (by omega)
    simpa [hys] using before

theorem found_iff (h : Cut c l b i) : b = true ↔ ∃ x ∈ l, c x = .eq := by
  cases h with
  | found before here behind => exact iff_of_true rfl ⟨_, by simp, here⟩
  | gap before behind =>
    refine iff_of_false (by simp) ?_
    rintro ⟨x, hx, heq⟩
    rcases mem_append.mp hx with hx | hx
    · simp [before x hx] at heq
    · simp [behind x hx] at heq

theorem get_found (h : Cut c l true i) : ∃ x, l[i]? = some x ∧ c x = .eq := by
  cases h with
  | found before here behind => exact ⟨_, by rw [List.getElem?_append_right (Nat.le_refl _), Nat.sub_self, List.getElem?_cons_zero], here⟩

theorem gap_count (h : Cut c l false i) : i = l.countP (fun x => c x = .gt) := by
  cases h with
  | gap before behind =>
    rename_i xs ys
    have hxs : xs.countP (fun x => c x = .gt) = xs.length :=
      countP_eq_length.mpr (fun x hx => decide_eq_true (before x hx))
    have hys : ys.countP (fun x => c x = .gt) = 0 :=
      countP_eq_zero.mpr (fun x hx => by simp [behind x hx])
    rw [countP_append, hxs, hys, Nat.add_zero]

theorem append {pre post : List α} (h : Cut c l b i) (hpre : ∀ x ∈ pre, c x = .gt)
    (hpost : ∀ x ∈ post, c x = .lt) : Cut c (pre ++ (l ++ post)) b (pre.length + i) := by
  cases h with
  | found before here behind =>
    rename_i xs ys y
    have hcut : Cut c ((pre ++ xs) ++ y :: (ys ++ post)) true (pre ++ xs).length := by
      apply Cut.found
      · intro x hx
        exact (mem_append.mp hx).elim (hpre x) (before x)
      · exact here
      · intro x hx
        exact (mem_append.mp hx).elim (behind x) (hpost x)
    simpa using hcut
  | gap before behind =>
    rename_i xs ys
    have hcut : Cut c ((pre ++ xs) ++ (ys ++ post)) false (pre ++ xs).length := by
      apply Cut.gap
      · intro x hx
        exact (mem_append.mp hx).elim (hpre x) (before x)
      · intro x hx
        exact (mem_append.mp hx).elim (behind x) (hpost x)
    simpa using hcut

theorem find_behind (h : Cut c l b i) :
    l.find? (fun x => c x = .lt) = l[i + b.toNat]? := by
  have hskip : ∀ {xs ys : List α}, (∀ x ∈ xs, c x = .gt) →
      (xs ++ ys).find? (fun x => c x = .lt) = ys.find? (fun x => c x = .lt) := by
    intro xs ys hxs
    rw [List.find?_append, List.find?_eq_none.mpr (by simp +contextual [hxs]), Option.none_or]
  have hhead : ∀ {ys : List α}, (∀ x ∈ ys, c x = .lt) →
      ys.find? (fun x => c x = .lt) = ys.head? := by
    intro ys hys
    cases ys with
    | nil => rfl
    | cons y ys => simp [hys y (by simp)]
  cases h with
  | found before here behind =>
    rw [hskip before, List.find?_cons_of_neg (by simp [here]), hhead behind]
    rw [Bool.toNat_true, List.getElem?_append_right (Nat.le_add_right _ _), Nat.add_sub_cancel_left,
      List.getElem?_cons_succ, List.head?_eq_getElem?]
  | gap before behind =>
    rw [hskip before, hhead behind, Bool.toNat_false, Nat.add_zero,
      List.getElem?_append_right (Nat.le_refl _), Nat.sub_self, List.head?_eq_getElem?]

theorem find_before (h : Cut c l b i) :
    l.reverse.find? (fun x => c x = .gt) = if i = 0 then none else l[i - 1]? := by
  have hrest : ∀ {xs ys : List α}, (∀ x ∈ xs, c x = .gt) → (∀ y ∈ ys, c y ≠ .gt) →
      (xs ++ ys).reverse.find? (fun x => c x = .gt) =
        if xs.length = 0 then none else (xs ++ ys)[xs.length - 1]? := by
    intro xs ys hxs hys
    rw [reverse_append, List.find?_append, List.find?_eq_none.mpr, Option.none_or]
    · cases xs using List.reverseRecOn with
      | nil => simp
      | append_singleton xs x => simp [hxs x (by simp)]
    · intro y hy
      simpa using hys y (mem_reverse.mp hy)
  cases h with
  | found before here behind =>
    apply hrest before
    intro y hy
    rcases mem_cons.mp hy with rfl | hy
    · simp [here]
    · simp [behind y hy]
  | gap before behind =>
    apply hrest before
    intro y hy
    simp [behind y hy]

theorem floor (h : Cut c l b i) (hl : l ≠ []) : ∃ xs y ys, l = xs ++ y :: ys ∧
    (if b = false ∧ i ≠ 0 then i - 1 else i) = xs.length ∧ (xs = [] ∨ c y ≠ .lt) ∧
    ∀ x ∈ ys, c x = .lt := by
  cases h with
  | found before here behind =>
    rename_i xs ys y
    exact ⟨xs, y, ys, rfl, by simp, .inr (by simp [here]), behind⟩
  | gap before behind =>
    rename_i xs ys
    cases xs using List.reverseRecOn with
    | nil =>
      cases ys with
      | nil => exact absurd rfl hl
      | cons y ys =>
        exact ⟨[], y, ys, rfl, by simp, .inl rfl, fun x hx => behind x (mem_cons_of_mem _ hx)⟩
    | append_singleton xs x =>
      refine ⟨xs, x, ys, by simp, by simp, .inr ?_, behind⟩
      simp [before x (by simp)]

end Cut

end Darwin.Lib
