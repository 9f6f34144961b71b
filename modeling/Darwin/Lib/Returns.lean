import Mathlib.Tactic.Common

/-! # What programs return

`Returns m Q` says that the value of a program that may stop is in `Q`, if it has one.
-/
namespace Darwin.Lib
variable {ε α β : Type} {m : Except ε α} {f : α → Except ε β} {Q R : α → Prop} {S : β → Prop}

def Returns (m : Except ε α) (Q : α → Prop) : Prop := ∀ a, m = .ok a → Q a

namespace Returns

theorem pure {a : α} (h : Q a) : Returns (Pure.pure a : Except ε α) Q := by
  intro b hb
  cases hb
  exact h

theorem error (e : ε) : Returns (.error e) Q := by
  intro b hb
  cases hb

theorem mono (h : Returns m Q) (hQ : ∀ a, Q a → R a) : Returns m R := fun a ha => hQ a (h a ha)

theorem bind (h : Returns m Q) (hf : ∀ a, Q a → Returns (f a) S) : Returns (m >>= f) S := by
  intro b hb
  cases m with
  | error e => cases hb
  | ok a => exact hf a (h a rfl) b hb

theorem bind_eq (hf : ∀ a, m = .ok a → Returns (f a) S) : Returns (m >>= f) S :=
  bind (Q := fun a => m = .ok a) (fun _ ha => ha) hf

theorem ite {c : Prop} [Decidable c] {m' : Except ε α} (h : c → Returns m Q) (h' : ¬ c → Returns m' Q) :
    Returns (if c then m else m') Q := by
  split_ifs with hc
  · exact h hc
  · exact h' hc

end Returns

end Darwin.Lib
