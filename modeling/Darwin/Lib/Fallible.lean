import Mathlib.Logic.Function.Basic
import Mathlib.Tactic.SplitIfs
import Mathlib.Data.Nat.Notation

/-! # Programs whose operations may fail

A program with state and errors performs operations, numbered in the order of their calls,
and an environment says which of them succeed. `Takes` is the triple for such programs:
from the given state the program performs exactly `c` operations when all of them succeed,
and ends with an error when one of them fails. A frame relates the state before to the
state after in both cases.
-/
namespace Darwin.Lib

structure Io (σ : Type) where
  /-- Whether the operation of this number succeeds. -/
  env : ℕ → Bool
  /-- How many operations have been started. -/
  ops : ℕ
  st : σ

abbrev IoM (ε σ : Type) := EStateM ε (Io σ)

variable {ε σ α β : Type}

/-- The state a program leaves, whether it returns or fails. -/
def finalState : EStateM.Result ε (Io σ) α → σ
  | .ok _ s => s.st
  | .error _ s => s.st

/-- One operation of the environment. -/
def operation (e : ε) : IoM ε σ Unit := fun s =>
  if s.env s.ops = true then .ok () { s with ops := s.ops + 1 }
  else .error e { s with ops := s.ops + 1 }

def current : IoM ε σ σ := fun s => .ok s.st s

def IoM.update (f : σ → σ) : IoM ε σ Unit := fun s => .ok () { s with st := f s.st }

theorem operation_run (e : ε) (s : Io σ) : (operation e).run s =
    if s.env s.ops = true then .ok () { s with ops := s.ops + 1 }
    else .error e { s with ops := s.ops + 1 } := rfl

theorem bind_ok {m : IoM ε σ α} {f : α → IoM ε σ β} {s s' : Io σ} {a : α}
    (h : m.run s = .ok a s') : (m >>= f).run s = (f a).run s' := by
  change EStateM.bind m f s = _
  change m s = _ at h
  rw [EStateM.bind, h]
  rfl

theorem bind_error {m : IoM ε σ α} {f : α → IoM ε σ β} {s s' : Io σ} {e : ε}
    (h : m.run s = .error e s') : (m >>= f).run s = .error e s' := by
  change EStateM.bind m f s = _
  change m s = _ at h
  rw [EStateM.bind, h]

theorem current_bind_apply (f : σ → IoM ε σ α) (s : Io σ) :
    (current >>= f).run s = (f s.st).run s := rfl

theorem update_bind_apply (g : σ → σ) (f : Unit → IoM ε σ α) (s : Io σ) :
    (IoM.update g >>= f).run s = (f ()).run { s with st := g s.st } := rfl

/-- All of the next `c` operations succeed. -/
def Io.Succeeds (s : Io σ) (c : ℕ) : Prop := ∀ i < c, s.env (s.ops + i) = true

theorem Io.succeeds_add {s : Io σ} {c c' : ℕ} (t : σ) :
    s.Succeeds (c + c') ↔ s.Succeeds c ∧ Io.Succeeds ⟨s.env, s.ops + c, t⟩ c' := by
  constructor
  · intro h
    refine ⟨fun i hi => h i (by omega), ?_⟩
    intro i hi
    have := h (c + i) (by omega)
    rwa [← Nat.add_assoc] at this
  · rintro ⟨h, h'⟩ i hi
    by_cases hic : i < c
    · exact h i hic
    · have := h' (i - c) (by omega)
      rwa [show s.ops + c + (i - c) = s.ops + i by omega] at this

/-- A program from `s` performs `c` operations and ends in `Q`, or fails with one of them;
what it changes is in the frame `F`. -/
structure Takes (F : σ → σ → Prop) (m : IoM ε σ α) (s : Io σ) (c : ℕ) (Q : α → σ → Prop) :
    Prop where
  ok : s.Succeeds c → ∃ a t, m.run s = .ok a ⟨s.env, s.ops + c, t⟩ ∧ F s.st t ∧ Q a t
  error : ¬ s.Succeeds c → ∃ e s', m.run s = .error e s' ∧ F s.st s'.st

namespace Takes
variable {F : σ → σ → Prop} {m : IoM ε σ α} {s : Io σ} {c : ℕ} {Q : α → σ → Prop}

theorem of_ok (h : Takes F m s c Q) {a : α} {s' : Io σ} (hm : m.run s = .ok a s') :
    s.Succeeds c ∧ F s.st s'.st ∧ Q a s'.st := by
  by_cases hs : s.Succeeds c
  · obtain ⟨b, t, hb, hF, hQ⟩ := h.ok hs
    rw [hm] at hb
    cases hb
    exact ⟨hs, hF, hQ⟩
  · obtain ⟨e, s'', he, -⟩ := h.error hs
    rw [hm] at he
    cases he

theorem of_error (h : Takes F m s c Q) {e : ε} {s' : Io σ} (hm : m.run s = .error e s') :
    ¬ s.Succeeds c ∧ F s.st s'.st := by
  by_cases hs : s.Succeeds c
  · obtain ⟨b, t, hb, -, -⟩ := h.ok hs
    rw [hm] at hb
    cases hb
  · obtain ⟨e', s'', he, hF⟩ := h.error hs
    rw [hm] at he
    cases he
    exact ⟨hs, hF⟩

theorem run_cases (h : Takes F m s c Q) :
    (∃ a t, m.run s = .ok a ⟨s.env, s.ops + c, t⟩ ∧ F s.st t ∧ Q a t) ∨
      ∃ e s', m.run s = .error e s' ∧ F s.st s'.st := by
  by_cases hs : s.Succeeds c
  · exact .inl (h.ok hs)
  · exact .inr (h.error hs)

theorem conseq {F' : σ → σ → Prop} {Q' : α → σ → Prop} (h : Takes F m s c Q)
    (hF : ∀ t, F s.st t → F' s.st t) (hQ : ∀ a t, F s.st t → Q a t → Q' a t) :
    Takes F' m s c Q' := by
  constructor
  · intro hs
    obtain ⟨a, t, hm, hFt, hQt⟩ := h.ok hs
    exact ⟨a, t, hm, hF t hFt, hQ a t hFt hQt⟩
  · intro hs
    obtain ⟨e, s', hm, hFt⟩ := h.error hs
    exact ⟨e, s', hm, hF _ hFt⟩

theorem pure {a : α} (hF : F s.st s.st) (hQ : Q a s.st) :
    Takes F (Pure.pure a : IoM ε σ α) s 0 Q := by
  constructor
  · intro _
    exact ⟨a, s.st, rfl, hF, hQ⟩
  · intro hs
    exact absurd (fun i hi => absurd hi (Nat.not_lt_zero i)) hs

theorem operation {e : ε} {Q : Unit → σ → Prop} (hF : F s.st s.st) (hQ : Q () s.st) :
    Takes F (Lib.operation e) s 1 Q := by
  constructor
  · intro hs
    have h0 : s.env s.ops = true := hs 0 Nat.one_pos
    exact ⟨(), s.st, (operation_run e s).trans (if_pos h0), hF, hQ⟩
  · intro hs
    have h0 : ¬ s.env s.ops = true := by
      intro h0
      apply hs
      intro i hi
      obtain rfl : i = 0 := by omega
      exact h0
    exact ⟨e, { s with ops := s.ops + 1 }, (operation_run e s).trans (if_neg h0), hF⟩

theorem update {f : σ → σ} {Q : Unit → σ → Prop} (hF : F s.st (f s.st))
    (hQ : Q () (f s.st)) : Takes F (IoM.update f : IoM ε σ Unit) s 0 Q := by
  constructor
  · intro _
    exact ⟨(), f s.st, rfl, hF, hQ⟩
  · intro hs
    exact absurd (fun i hi => absurd hi (Nat.not_lt_zero i)) hs

theorem update_bind {g : σ → σ} {f : Unit → IoM ε σ α} {F' : σ → σ → Prop}
    (h : Takes F (f ()) { s with st := g s.st } c Q) (hF : ∀ t, F (g s.st) t → F' s.st t) :
    Takes F' (IoM.update g >>= f) s c Q := by
  constructor
  · intro hs
    obtain ⟨a, t, hm, hFt, hQ⟩ := h.ok hs
    exact ⟨a, t, hm, hF t hFt, hQ⟩
  · intro hs
    obtain ⟨e, s', hm, hFt⟩ := h.error hs
    exact ⟨e, s', hm, hF _ hFt⟩

theorem current_bind {f : σ → IoM ε σ α} (h : Takes F (f s.st) s c Q) :
    Takes F (Lib.current >>= f) s c Q :=
  ⟨fun hs => h.ok hs, fun hs => h.error hs⟩

theorem bind {f : α → IoM ε σ β} {c' : ℕ} {R : β → σ → Prop} (h : Takes F m s c Q)
    (htrans : ∀ t u, F s.st t → F t u → F s.st u)
    (hf : ∀ a t, F s.st t → Q a t → Takes F (f a) ⟨s.env, s.ops + c, t⟩ c' R) :
    Takes F (m >>= f) s (c + c') R := by
  constructor
  · intro hs
    obtain ⟨a, t, hm, hFt, hQt⟩ := h.ok ((Io.succeeds_add s.st).mp hs).1
    obtain ⟨b, u, hb, hFu, hR⟩ := (hf a t hFt hQt).ok ((Io.succeeds_add t).mp hs).2
    refine ⟨b, u, ?_, htrans t u hFt hFu, hR⟩
    rw [bind_ok hm, hb, Nat.add_assoc]
  · intro hs
    by_cases hfirst : s.Succeeds c
    · obtain ⟨a, t, hm, hFt, hQt⟩ := h.ok hfirst
      have hrest : ¬ Io.Succeeds ⟨s.env, s.ops + c, t⟩ c' :=
        fun hr => hs ((Io.succeeds_add t).mpr ⟨hfirst, hr⟩)
      obtain ⟨e, s', he, hFu⟩ := (hf a t hFt hQt).error hrest
      exact ⟨e, s', (bind_ok hm).trans he, htrans t s'.st hFt hFu⟩
    · obtain ⟨e, s', he, hFt⟩ := h.error hfirst
      exact ⟨e, s', bind_error he, hFt⟩

end Takes

/-! ## Every run -/

/-- Every run of the program from `s` returns with `Q` or fails with an error in `E`. -/
structure Ensures (E : ε → Prop) (m : IoM ε σ α) (s : Io σ) (Q : α → σ → Prop) : Prop where
  ok : ∀ a s', m.run s = .ok a s' → Q a s'.st
  error : ∀ e s', m.run s = .error e s' → E e

namespace Ensures
variable {E : ε → Prop} {m : IoM ε σ α} {s : Io σ} {Q : α → σ → Prop}

theorem conseq {Q' : α → σ → Prop} (h : Ensures E m s Q) (hQ : ∀ a t, Q a t → Q' a t) : Ensures E m s Q' :=
  ⟨fun a s' hm => hQ a s'.st (h.ok a s' hm), h.error⟩

theorem pure {a : α} (h : Q a s.st) : Ensures E (Pure.pure a : IoM ε σ α) s Q := by
  constructor
  · rintro b s' hm
    cases hm
    exact h
  · rintro e s' hm
    cases hm

theorem throw {e : ε} (h : E e) : Ensures E (MonadExcept.throw e : IoM ε σ α) s Q := by
  constructor
  · rintro b s' hm
    cases hm
  · rintro e' s' hm
    cases hm
    exact h

theorem bind {f : α → IoM ε σ β} {R : β → σ → Prop} (h : Ensures E m s Q)
    (hf : ∀ a env ops t, Q a t → Ensures E (f a) ⟨env, ops, t⟩ R) : Ensures E (m >>= f) s R := by
  cases hm : m.run s with
  | ok a s' =>
    have hrest := hf a s'.env s'.ops s'.st (h.ok a s' hm)
    constructor
    · intro b t hb
      rw [bind_ok hm] at hb
      exact hrest.ok b t hb
    · intro e t hb
      rw [bind_ok hm] at hb
      exact hrest.error e t hb
  | error e s' =>
    constructor
    · intro b t hb
      rw [bind_error hm] at hb
      cases hb
    · intro e' t hb
      rw [bind_error hm] at hb
      cases hb
      exact h.error e s' hm

theorem current_bind {f : σ → IoM ε σ α} (h : Ensures E (f s.st) s Q) : Ensures E (Lib.current >>= f) s Q :=
  ⟨fun a s' hm => h.ok a s' hm, fun e s' hm => h.error e s' hm⟩

theorem update_bind {g : σ → σ} {f : Unit → IoM ε σ α} (h : Ensures E (f ()) { s with st := g s.st } Q) :
    Ensures E (IoM.update g >>= f) s Q :=
  ⟨fun a s' hm => h.ok a s' hm, fun e s' hm => h.error e s' hm⟩

theorem update {g : σ → σ} {Q : Unit → σ → Prop} (h : Q () (g s.st)) :
    Ensures E (IoM.update g : IoM ε σ Unit) s Q := by
  constructor
  · rintro b s' hm
    cases hm
    exact h
  · rintro e s' hm
    cases hm

theorem operation {e : ε} (h : E e) : Ensures E (Lib.operation e) s (fun _ t => t = s.st) := by
  constructor
  · intro b s' hm
    rw [operation_run] at hm
    split_ifs at hm with h0
    cases hm
    rfl
  · intro e' s' hm
    rw [operation_run] at hm
    split_ifs at hm with h0
    cases hm
    exact h

end Ensures

/-- Whether a run returns. -/
def returns : EStateM.Result ε (Io σ) α → Bool
  | .ok _ _ => true
  | .error _ _ => false

theorem exists_of_returns {m : IoM ε σ α} {s : Io σ} (h : returns (m.run s) = true) : ∃ a s', m.run s = .ok a s' := by
  cases hm : m.run s with
  | ok a s' => exact ⟨a, s', rfl⟩
  | error e s' =>
    rw [hm] at h
    cases h

theorem Takes.ensures {F : σ → σ → Prop} {m : IoM ε σ α} {s : Io σ} {c : ℕ} {Q : α → σ → Prop} {E : ε → Prop}
    (h : Takes F m s c Q) (hE : ∀ e s', m.run s = .error e s' → E e) :
    Ensures E m s (fun a t => F s.st t ∧ Q a t) :=
  ⟨fun _ _ hm => (h.of_ok hm).2, hE⟩

end Darwin.Lib
