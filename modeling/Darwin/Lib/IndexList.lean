import Mathlib.Data.List.Nodup
import Mathlib.Logic.Function.Basic

/-! # Lists linked through an array

Each element holds the index of the next one, and `0` ends the list.
-/
namespace Darwin.Lib.IndexList
open Function List
variable {next : ℕ → ℕ} {i j : ℕ} {l pre post : List ℕ}

/-- From `i` on, the links lead through `l`. -/
def Linked (next : ℕ → ℕ) : ℕ → List ℕ → Prop
  | i, [] => next i = 0
  | i, j :: l => next i = j ∧ j ≠ 0 ∧ Linked next j l

/-- The element in front of `j`, with fuel. -/
def before (next : ℕ → ℕ) (j : ℕ) : ℕ → ℕ → Option ℕ
  | 0, _ => none
  | fuel + 1, i => if next i = j then some i else before next j fuel (next i)

theorem Linked.congr {next' : ℕ → ℕ} (h : Linked next i l)
    (heq : ∀ k, k = i ∨ k ∈ l → next' k = next k) : Linked next' i l := by
  induction l generalizing i with
  | nil => exact (heq i (.inl rfl)).trans h
  | cons j l ih =>
    obtain ⟨hj, hne, h⟩ := h
    refine ⟨(heq i (.inl rfl)).trans hj, hne, ih h ?_⟩
    intro k hk
    apply heq
    rcases hk with rfl | hk
    · exact .inr mem_cons_self
    · exact .inr (mem_cons_of_mem _ hk)

theorem Linked.not_mem_zero (h : Linked next i l) : 0 ∉ l := by
  induction l generalizing i with
  | nil => exact not_mem_nil
  | cons j l ih =>
    intro hmem
    rcases mem_cons.mp hmem with h0 | hmem
    · exact h.2.1 h0.symm
    · exact ih h.2.2 hmem

theorem Linked.push (h : Linked next i l) (hj : j ≠ 0) (hji : j ≠ i) (hjl : j ∉ l) (hil : i ∉ l) :
    Linked (update (update next j (next i)) i j) i (j :: l) := by
  refine ⟨update_self .., hj, ?_⟩
  have hnext : update (update next j (next i)) i j j = next i := by
    rw [update_of_ne hji, update_self]
  have hrest : ∀ k ∈ l, update (update next j (next i)) i j k = next k := by
    intro k hk
    rw [update_of_ne (by rintro rfl; exact hil hk),
      update_of_ne (by rintro rfl; exact hjl hk)]
  cases l with
  | nil => exact hnext.trans h
  | cons k l =>
    obtain ⟨hk, hne, h⟩ := h
    refine ⟨hnext.trans hk, hne, h.congr ?_⟩
    intro x hx
    apply hrest
    rcases hx with rfl | hx
    · exact mem_cons_self
    · exact mem_cons_of_mem _ hx

theorem Linked.remove {fuel : ℕ} (h : Linked next i (pre ++ j :: post))
    (hn : (i :: (pre ++ j :: post)).Nodup) (hfuel : pre.length < fuel) :
    ∃ k, before next j fuel i = some k ∧ (k = i ∨ k ∈ pre) ∧
      Linked (update next k (next j)) i (pre ++ post) := by
  induction pre generalizing i fuel with
  | nil =>
    obtain ⟨hj, -, h⟩ := h
    cases fuel with
    | zero => exact absurd hfuel (Nat.not_lt_zero _)
    | succ fuel =>
      refine ⟨i, if_pos hj, .inl rfl, ?_⟩
      have hni := (nodup_cons.mp hn).1
      cases post with
      | nil =>
        change update next i (next j) i = 0
        rw [update_self]
        exact h
      | cons k post =>
        obtain ⟨hk, hne, h⟩ := h
        refine ⟨?_, hne, h.congr ?_⟩
        · rw [update_self]
          exact hk
        · intro x hx
          apply update_of_ne
          rintro rfl
          apply hni
          rcases hx with rfl | hx
          · simp
          · simp [hx]
  | cons a pre ih =>
    obtain ⟨ha, hne, h⟩ := h
    cases fuel with
    | zero => exact absurd hfuel (Nat.not_lt_zero _)
    | succ fuel =>
      have hni := (nodup_cons.mp hn).1
      obtain ⟨k, hbefore, hk, hlinked⟩ := @ih a fuel h (nodup_cons.mp hn).2
        (by simpa using hfuel)
      have hkpre : k ∈ a :: pre := by
        rcases hk with rfl | hk
        · exact mem_cons_self
        · exact mem_cons_of_mem _ hk
      have haj : next i ≠ j := by
        rintro rfl
        have := (nodup_cons.mp (nodup_cons.mp hn).2).1
        rw [ha] at this
        exact this (by simp)
      refine ⟨k, ?_, .inr hkpre, ?_⟩
      · rw [before, if_neg haj, ha]
        exact hbefore
      · refine ⟨?_, hne, hlinked⟩
        rw [update_of_ne]
        · exact ha
        · rintro rfl
          exact hni (mem_append_left _ hkpre)

theorem Linked.pop (h : Linked next i (j :: l)) (hil : i ∉ l) :
    Linked (update next i (next j)) i l := by
  obtain ⟨-, -, h⟩ := h
  cases l with
  | nil =>
    change update next i (next j) i = 0
    rw [update_self]
    exact h
  | cons k l =>
    obtain ⟨hk, hne, h⟩ := h
    refine ⟨by rw [update_self]; exact hk, hne, h.congr ?_⟩
    intro x hx
    apply update_of_ne
    rintro rfl
    exact hil (mem_cons.mpr hx)

/-- From element 0 the links lead through the free elements, each one once. -/
structure FreeList (next : ℕ → ℕ) (free : ℕ → Prop) (l : List ℕ) : Prop where
  linked : Linked next 0 l
  nodup : l.Nodup
  mem : ∀ i, i ∈ l ↔ free i

namespace FreeList
variable {free free' : ℕ → Prop}

theorem congr (h : FreeList next free l) {next' : ℕ → ℕ} (h0 : next' 0 = next 0)
    (hnext : ∀ i, free i → next' i = next i) (hfree : ∀ i, free' i ↔ free i) :
    FreeList next' free' l := by
  refine ⟨h.linked.congr ?_, h.nodup, fun i => (h.mem i).trans (hfree i).symm⟩
  rintro k (rfl | hk)
  · exact h0
  · exact hnext k ((h.mem k).mp hk)

theorem zero_iff (h : FreeList next free l) : next 0 = 0 ↔ l = [] := by
  cases l with
  | nil => exact iff_of_true h.linked rfl
  | cons j l =>
    obtain ⟨hj, hne, -⟩ := h.linked
    exact iff_of_false (fun h0 => hne (hj.symm.trans h0)) (cons_ne_nil j l)

theorem eq_cons (h : FreeList next free l) (h0 : next 0 ≠ 0) : ∃ rest, l = next 0 :: rest := by
  cases l with
  | nil => exact absurd h.linked h0
  | cons j rest => exact ⟨rest, by rw [h.linked.1]⟩

theorem push (h : FreeList next free l) (hj : j ≠ 0) (hused : ¬ free j)
    (hfree : ∀ i, free' i ↔ i = j ∨ free i) :
    FreeList (update (update next j (next 0)) 0 j) free' (j :: l) := by
  have hjl : j ∉ l := fun hmem => hused ((h.mem j).mp hmem)
  refine ⟨h.linked.push hj hj hjl h.linked.not_mem_zero, nodup_cons.mpr ⟨hjl, h.nodup⟩, ?_⟩
  intro i
  rw [mem_cons, h.mem, hfree]

theorem pop (h : FreeList next free (j :: l)) (x : ℕ) (hfree : ∀ i, free' i ↔ free i ∧ i ≠ j) :
    FreeList (update (update next 0 (next j)) j x) free' l := by
  obtain ⟨hjl, hn⟩ := nodup_cons.mp h.nodup
  have h0 := h.linked.not_mem_zero
  have hj : (0 : ℕ) ≠ j := (ne_and_not_mem_of_not_mem_cons h0).1
  refine ⟨(h.linked.pop (not_mem_of_not_mem_cons h0)).congr ?_, hn, ?_⟩
  · intro k hk
    apply update_of_ne
    rintro rfl
    rcases hk with rfl | hk
    · exact hj rfl
    · exact hjl hk
  · intro i
    rw [hfree, ← h.mem, mem_cons]
    constructor
    · intro hi
      exact ⟨.inr hi, fun heq => hjl (heq ▸ hi)⟩
    · rintro ⟨rfl | hi, hne⟩
      · exact absurd rfl hne
      · exact hi

end FreeList

end Darwin.Lib.IndexList
