import Mathlib.Data.List.Induction

/-! # Finite runs of a labelled transition relation

A run is the sequence of labels it takes and the state it ends in. Invariants are
proved for one step and transported to every state a run reaches.
-/
namespace Darwin.Lib
variable {σ α : Type*}

/-- `Run step s as t`: the labels `as`, taken in order from `s`, end in `t`. -/
inductive Run (step : σ → α → σ → Prop) : σ → List α → σ → Prop where
  | nil (s : σ) : Run step s [] s
  | snoc {s t u : σ} {as : List α} {a : α} : Run step s as t → step t a u → Run step s (as ++ [a]) u

/-- The runs every step of which meets the condition `C` on the state before it. -/
abbrev RunUnder (C : σ → α → Prop) (step : σ → α → σ → Prop) : σ → List α → σ → Prop :=
  Run (fun s a t => C s a ∧ step s a t)

theorem Run.invariant {step : σ → α → σ → Prop} {I : σ → Prop}
    (hstep : ∀ s a t, I s → step s a t → I t) {s t : σ} {as : List α}
    (hr : Run step s as t) (hs : I s) : I t := by
  induction hr with
  | nil => exact hs
  | snoc _ he ih => exact hstep _ _ _ ih he

theorem Run.mono {step step' : σ → α → σ → Prop} (h : ∀ s a t, step s a t → step' s a t)
    {s t : σ} {as : List α} (hr : Run step s as t) : Run step' s as t := by
  induction hr with
  | nil => exact .nil _
  | snoc _ he ih => exact .snoc ih (h _ _ _ he)

theorem Run.of_foldlM {f : σ → α → Option σ} {as : List α} {s t : σ}
    (h : as.foldlM f s = some t) : Run (fun s a t => f s a = some t) s as t := by
  induction as using List.reverseRecOn generalizing t with
  | nil =>
    cases h
    exact .nil s
  | append_singleton as a ih =>
    rw [List.foldlM_append] at h
    obtain ⟨u, hu, h⟩ := Option.bind_eq_some_iff.mp h
    simp only [List.foldlM_cons, List.foldlM_nil] at h
    obtain ⟨w, hw, h⟩ := Option.bind_eq_some_iff.mp h
    cases h
    exact .snoc (ih hu) hw

theorem RunUnder.of_foldlM {C : σ → α → Bool} {f : σ → α → Option σ} {as : List α} {s t : σ}
    (h : as.foldlM (fun s a => if C s a then f s a else none) s = some t) :
    RunUnder (fun s a => C s a = true) (fun s a t => f s a = some t) s as t :=
  (Run.of_foldlM h).mono (fun _ _ _ ha => Option.ite_none_right_eq_some.mp ha)

theorem RunUnder.invariant {C : σ → α → Prop} {step : σ → α → σ → Prop} {I : σ → Prop}
    (hstep : ∀ s a t, I s → C s a → step s a t → I t) {s t : σ} {as : List α}
    (hr : RunUnder C step s as t) (hs : I s) : I t :=
  Run.invariant (fun s a t h he => hstep s a t h he.1 he.2) hr hs

end Darwin.Lib
