import Mathlib.Tactic.Common

/-! # Outcomes of programs with state and errors

`Ends E m s Q` says what comes of a program that is run from the state `s`: it returns into `Q`, or it
fails with one of the errors in `E`.
-/
namespace Darwin.Lib
variable {ε σ α β : Type} {E : ε → Prop} {m : EStateM ε σ α} {s t : σ} {Q R : α → σ → Prop}

def Ends (E : ε → Prop) (m : EStateM ε σ α) (s : σ) (Q : α → σ → Prop) : Prop :=
  match m s with
  | .ok a t => Q a t
  | .error e _ => E e

namespace Ends

theorem of_ok {a : α} (h : m s = .ok a t) (hQ : Q a t) : Ends E m s Q := by
  rw [Ends, h]
  exact hQ

theorem of_error {e : ε} (h : m s = .error e t) (he : E e) : Ends E m s Q := by
  rw [Ends, h]
  exact he

theorem of_fun (hok : ∀ a t, m s = .ok a t → Q a t) (herror : ∀ e t, m s = .error e t → E e) : Ends E m s Q := by
  rw [Ends]
  match h : m s with
  | .ok a t => exact hok a t h
  | .error e t => exact herror e t h

theorem ok (h : Ends E m s Q) {a : α} (hm : m s = .ok a t) : Q a t := by
  rwa [Ends, hm] at h

theorem error (h : Ends E m s Q) {e : ε} (hm : m s = .error e t) : E e := by
  rwa [Ends, hm] at h

theorem mono (h : Ends E m s Q) (hQ : ∀ a t, Q a t → R a t) : Ends E m s R :=
  of_fun (fun a t hm => hQ a t (h.ok hm)) (fun _ _ hm => h.error hm)

theorem bind {f : α → EStateM ε σ β} {R : β → σ → Prop} (h : Ends E m s Q)
    (hf : ∀ a t, Q a t → Ends E (f a) t R) : Ends E (m >>= f) s R := by
  change match EStateM.bind m f s with | .ok b t => R b t | .error e _ => E e
  match hm : m s with
  | .ok a t =>
    rw [EStateM.bind, hm]
    exact hf a t (h.ok hm)
  | .error e t =>
    rw [EStateM.bind, hm]
    exact h.error hm

theorem pure {a : α} (h : Q a s) : Ends E (pure a : EStateM ε σ α) s Q := h

theorem throw {e : ε} (h : E e) : Ends E (throw e : EStateM ε σ α) s Q := h

theorem get_bind {f : σ → EStateM ε σ β} {R : β → σ → Prop} (h : Ends E (f s) s R) :
    Ends E (get >>= f) s R := h

theorem modify_bind {g : σ → σ} {f : PUnit → EStateM ε σ β} {R : β → σ → Prop}
    (h : Ends E (f ⟨⟩) (g s) R) : Ends E (modify g >>= f) s R := h

theorem of_modify {g : σ → σ} {R : PUnit → σ → Prop} (h : R ⟨⟩ (g s)) :
    Ends E (modify g : EStateM ε σ PUnit) s R := h

end Ends

end Darwin.Lib
