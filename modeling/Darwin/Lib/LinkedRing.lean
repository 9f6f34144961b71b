import Mathlib.Data.List.Chain
import Mathlib.Data.List.Nodup
import Mathlib.Logic.Function.Basic

/-! # Doubly linked rings

A list whose cells are linked through two pointer functions, with a header cell that closes
the ring: from the header `next` goes through the list and comes back, and `prev` goes the
other way round.
-/
namespace Darwin.Lib
open Function List
variable {α : Type*}

structure LinkedRing (next prev : α → α) (h : α) (l : List α) : Prop where
  nodup : (h :: l).Nodup
  chain : List.IsChain (fun a b => next a = b ∧ prev b = a) (h :: l ++ [h])

namespace LinkedRing
variable {next prev : α → α} {h a x : α} {l p q : List α}

theorem nil (hn : next h = h) (hp : prev h = h) : LinkedRing next prev h [] :=
  ⟨by simp, by simp [hn, hp]⟩

theorem split_iff : List.IsChain (fun a b => next a = b ∧ prev b = a) (h :: (p ++ q) ++ [h]) ↔
    List.IsChain (fun a b => next a = b ∧ prev b = a) (h :: p) ∧
    List.IsChain (fun a b => next a = b ∧ prev b = a) (q ++ [h]) ∧
    next (p.getLastD h) = q.headD h ∧ prev (q.headD h) = p.getLastD h := by
  have hlast : (h :: p).getLast? = some (p.getLastD h) := by
    cases p with
    | nil => rfl
    | cons b p => rw [List.getLast?_cons, getLastD_eq_getLast?]
  have hhead : (q ++ [h]).head? = some (q.headD h) := by
    cases q <;> rfl
  rw [← cons_append, append_assoc, isChain_append, hlast, hhead]
  simp

theorem next_last (hr : LinkedRing next prev h (p ++ q)) : next (p.getLastD h) = q.headD h :=
  (split_iff.mp hr.chain).2.2.1

theorem prev_head (hr : LinkedRing next prev h (p ++ q)) : prev (q.headD h) = p.getLastD h :=
  (split_iff.mp hr.chain).2.2.2

theorem next_header (hr : LinkedRing next prev h l) : next h = l.headD h :=
  next_last (p := []) hr

theorem prev_header (hr : LinkedRing next prev h l) : prev h = l.getLastD h := by
  have hr' : LinkedRing next prev h (l ++ []) := by rwa [append_nil]
  exact hr'.prev_head

theorem next_mem (hr : LinkedRing next prev h (p ++ a :: q)) : next a = q.headD h := by
  have hr' : LinkedRing next prev h ((p ++ [a]) ++ q) := by
    rwa [append_assoc, singleton_append]
  have hnext := hr'.next_last
  rwa [getLastD_concat] at hnext

theorem prev_mem (hr : LinkedRing next prev h (p ++ a :: q)) : prev a = p.getLastD h :=
  hr.prev_head

/-- The cells that `next` goes through from `a`. -/
def walk (next : α → α) : ℕ → α → List α
  | 0, _ => []
  | n + 1, a => a :: walk next n (next a)

theorem walk_last (hr : LinkedRing next prev h (p ++ q)) :
    walk next q.length (next (p.getLastD h)) = q := by
  induction q generalizing p with
  | nil => rfl
  | cons b q ih =>
    have hr' : LinkedRing next prev h ((p ++ [b]) ++ q) := by
      rwa [append_assoc, singleton_append]
    have hrest := ih hr'
    rw [getLastD_concat] at hrest
    rw [length_cons, hr.next_last, headD_cons, walk, hrest]

theorem walk_header (hr : LinkedRing next prev h l) : walk next l.length (next h) = l :=
  walk_last (p := []) hr

theorem getLastD_mem (p : List α) (h : α) : p.getLastD h ∈ h :: p := by
  cases p with
  | nil => exact mem_singleton.mpr rfl
  | cons b p =>
    rw [getLastD_eq_getLast?, List.getLast?_eq_some_getLast (cons_ne_nil b p)]
    exact mem_cons_of_mem _ (getLast_mem _)

theorem headD_mem (q : List α) (h : α) : q.headD h ∈ q ++ [h] := by
  cases q <;> simp

theorem headD_notMem (hn : (h :: (p ++ q)).Nodup) : q.headD h ∉ p := by
  rw [nodup_cons, nodup_append] at hn
  cases q with
  | nil => exact fun hmem => hn.1 (mem_append_left _ hmem)
  | cons b q => exact fun hmem => hn.2.2.2 b hmem b mem_cons_self rfl

theorem headD_notMem_tail (hn : (h :: q).Nodup) : q.headD h ∉ (q ++ [h]).tail := by
  cases q with
  | nil => simp
  | cons b q =>
    rw [nodup_cons, nodup_cons] at hn
    simp only [headD_cons, cons_append, tail_cons, mem_append,
      mem_singleton, not_or]
    exact ⟨hn.2.1, fun heq => hn.1 (heq ▸ mem_cons_self)⟩

theorem parts {next' prev' : α → α} (hn : (h :: (p ++ q)).Nodup)
    (hp : List.IsChain (fun a b => next a = b ∧ prev b = a) (h :: p))
    (hq : List.IsChain (fun a b => next a = b ∧ prev b = a) (q ++ [h]))
    (hborder : next (p.getLastD h) ∉ p ∧ next (p.getLastD h) ∉ (q ++ [h]).tail)
    (hnext : ∀ u ∈ h :: (p ++ q), u ≠ p.getLastD h → next' u = next u)
    (hprev : ∀ v ∈ h :: (p ++ q), v ≠ q.headD h → prev' v = prev v) :
    List.IsChain (fun a b => next' a = b ∧ prev' b = a) (h :: p) ∧
      List.IsChain (fun a b => next' a = b ∧ prev' b = a) (q ++ [h]) := by
  constructor
  · refine hp.imp_of_mem_tail_imp ?_
    rintro u v hu hv ⟨huv, hvu⟩
    rw [tail_cons] at hv
    constructor
    · rw [hnext u, huv]
      · rw [← cons_append]
        exact mem_append_left _ hu
      · rintro rfl
        exact hborder.1 (huv ▸ hv)
    · rw [hprev v (mem_cons_of_mem _ (mem_append_left _ hv)), hvu]
      rintro rfl
      exact headD_notMem hn hv
  · refine hq.imp_of_mem_tail_imp ?_
    rintro u v hu hv ⟨huv, hvu⟩
    have hsub : (h :: q).Nodup := by
      rw [nodup_cons, nodup_append] at hn
      exact nodup_cons.mpr ⟨fun hmem => hn.1 (mem_append_right _ hmem), hn.2.2.1⟩
    have hmem : ∀ w ∈ q ++ [h], w ∈ h :: (p ++ q) := by
      intro w hw
      rcases mem_append.mp hw with hw | hw
      · exact mem_cons_of_mem _ (mem_append_right _ hw)
      · rw [mem_singleton.mp hw]
        exact mem_cons_self
    constructor
    · rw [hnext u (hmem u hu), huv]
      rintro rfl
      exact hborder.2 (huv ▸ hv)
    · rw [hprev v (hmem v (mem_of_mem_tail hv)), hvu]
      rintro rfl
      exact headD_notMem_tail hsub hv

theorem tail_nodup (hn : (h :: (p ++ q)).Nodup) : (h :: q).Nodup :=
  hn.sublist (.cons_cons h (sublist_append_right p q))

variable [DecidableEq α]

/-- `x` is linked after `a`. -/
def linkNext (next : α → α) (a x : α) : α → α :=
  update (update next x (next a)) a x

def linkPrev (next prev : α → α) (a x : α) : α → α :=
  update (update prev x a) (next a) x

theorem link (hr : LinkedRing next prev h (p ++ q)) (ha : p.getLastD h = a)
    (hx : x ∉ h :: (p ++ q)) :
    LinkedRing (linkNext next a x) (linkPrev next prev a x) h (p ++ x :: q) := by
  obtain ⟨hp, hq, hnext, -⟩ := split_iff.mp hr.chain
  subst ha
  have hne : ∀ u ∈ h :: (p ++ q), u ≠ x := by
    rintro u hu rfl
    exact hx hu
  have hlast : p.getLastD h ∈ h :: (p ++ q) := by
    rw [← cons_append]
    exact mem_append_left _ (getLastD_mem p h)
  have hhead : q.headD h ∈ h :: (p ++ q) := by
    rcases mem_append.mp (headD_mem q h) with hw | hw
    · exact mem_cons_of_mem _ (mem_append_right _ hw)
    · rw [mem_singleton.mp hw]
      exact mem_cons_self
  have hn' : ∀ u ∈ h :: (p ++ q), u ≠ p.getLastD h →
      linkNext next (p.getLastD h) x u = next u := by
    intro u hu hul
    rw [linkNext, update_of_ne hul, update_of_ne (hne u hu)]
  have hp' : ∀ v ∈ h :: (p ++ q), v ≠ q.headD h →
      linkPrev next prev (p.getLastD h) x v = prev v := by
    intro v hv hvh
    rw [linkPrev, hnext, update_of_ne hvh, update_of_ne (hne v hv)]
  have hborder : next (p.getLastD h) ∉ p ∧ next (p.getLastD h) ∉ (q ++ [h]).tail := by
    rw [hnext]
    exact ⟨headD_notMem hr.nodup, headD_notMem_tail (tail_nodup hr.nodup)⟩
  obtain ⟨hpart, hpart'⟩ := parts hr.nodup hp hq hborder hn' hp'
  refine ⟨?_, split_iff.mpr ⟨hpart, ?_, ?_, ?_⟩⟩
  · have hperm : List.Perm (h :: (p ++ x :: q)) (x :: h :: (p ++ q)) :=
      (List.Perm.cons h perm_middle).trans (.swap x h _)
    exact hperm.nodup_iff.mpr (nodup_cons.mpr ⟨hx, hr.nodup⟩)
  · rw [cons_append, isChain_cons]
    refine ⟨?_, hpart'⟩
    intro b hb
    have hb' : b = q.headD h := by
      cases q with
      | nil => exact (Option.some.inj hb).symm
      | cons c q => exact (Option.some.inj hb).symm
    subst hb'
    constructor
    · rw [linkNext, update_of_ne (hne _ hlast).symm, update_self, hnext]
    · rw [linkPrev, hnext, update_self]
  · rw [linkNext, update_self, headD_cons]
  · rw [linkPrev, headD_cons, hnext, update_of_ne (hne _ hhead).symm,
      update_self]

theorem unlink (hr : LinkedRing next prev h (p ++ a :: q)) :
    LinkedRing (update next (prev a) (next a)) (update prev (next a) (prev a)) h
      (p ++ q) := by
  have hnext := hr.next_mem
  have hprev := hr.prev_mem
  obtain ⟨hp, hq, hlast, -⟩ := split_iff.mp hr.chain
  have hnodup : (h :: (p ++ q)).Nodup :=
    hr.nodup.sublist (.cons_cons h (List.Sublist.append_left (sublist_cons_self a q) p))
  have hq' : List.IsChain (fun a b => next a = b ∧ prev b = a) (q ++ [h]) := by
    rw [cons_append, isChain_cons] at hq
    exact hq.2
  have hborder : next (p.getLastD h) ∉ p ∧ next (p.getLastD h) ∉ (q ++ [h]).tail := by
    rw [hlast]
    refine ⟨headD_notMem hr.nodup, fun hmem => ?_⟩
    apply headD_notMem_tail (tail_nodup hr.nodup)
    exact mem_of_mem_tail hmem
  rw [hnext, hprev]
  have hn' : ∀ u ∈ h :: (p ++ q), u ≠ p.getLastD h →
      update next (p.getLastD h) (q.headD h) u = next u :=
    fun u _ hul => update_of_ne hul _ _
  have hp' : ∀ v ∈ h :: (p ++ q), v ≠ q.headD h →
      update prev (q.headD h) (p.getLastD h) v = prev v :=
    fun v _ hvh => update_of_ne hvh _ _
  obtain ⟨hpart, hpart'⟩ := parts hnodup hp hq' hborder hn' hp'
  exact ⟨hnodup, split_iff.mpr
    ⟨hpart, hpart', update_self _ _ _, update_self _ _ _⟩⟩

end LinkedRing

end Darwin.Lib
