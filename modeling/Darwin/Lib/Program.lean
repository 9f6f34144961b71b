import Mathlib.Data.Option.Basic

/-! # Programs over operations

A program calls operations and goes on with their answers, or it fails. What the operations
do is given separately: as a relation with a precondition, for reasoning, or as a function,
for running the program. The weakest precondition of a program speaks about every run.
-/
namespace Darwin.Lib

/-- A program with results in `α`. The answer to an operation `o` is in `Ans o`. -/
inductive Program {Op : Type} (Ans : Op → Type) (ε α : Type) : Type where
  | ret (a : α)
  | fail (e : ε)
  | call (o : Op) (k : Ans o → Program Ans ε α)

namespace Program
variable {Op : Type} {Ans : Op → Type} {ε α β σ : Type}

def bind : Program Ans ε α → (α → Program Ans ε β) → Program Ans ε β
  | ret a, f => f a
  | fail e, _ => fail e
  | call o k, f => call o (fun x => (k x).bind f)

instance : Monad (Program Ans ε) where
  pure := ret
  bind := bind

/-- The operation itself as a program. -/
def op (Ans : Op → Type) {ε : Type} (o : Op) : Program Ans ε (Ans o) := call o ret

/-- What the operations do to a state: when they may be called, and with which answer and
state they return. -/
structure Spec (Ans : Op → Type) (σ : Type) where
  pre : Op → σ → Prop
  post : (o : Op) → σ → Ans o → σ → Prop

/-- Every run from the state calls the operations as it may; those that return end in `Q` and
those that fail in `E`. -/
def wp (S : Spec Ans σ) : Program Ans ε α → (α → σ → Prop) → (ε → σ → Prop) → σ → Prop
  | ret a, Q, _, s => Q a s
  | fail e, _, E, s => E e s
  | call o k, Q, E, s => S.pre o s ∧ ∀ x s', S.post o s x s' → (k x).wp S Q E s'

/-- A run of the program, with its result or its failure. -/
def Runs (S : Spec Ans σ) : Program Ans ε α → σ → Except ε α → σ → Prop
  | ret a, s, r, s' => r = .ok a ∧ s' = s
  | fail e, s, r, s' => r = .error e ∧ s' = s
  | call o k, s, r, s' => ∃ x s₁, S.post o s x s₁ ∧ (k x).Runs S s₁ r s'

/-- The program with operations that are functions; `none` when one of them fails. -/
def eval (h : (o : Op) → σ → Option (Ans o × σ)) : Program Ans ε α → σ → Option (Except ε α × σ)
  | ret a, s => some (.ok a, s)
  | fail e, s => some (.error e, s)
  | call o k, s => (h o s).bind (fun r => (k r.1).eval h r.2)

section eval
variable {h : (o : Op) → σ → Option (Ans o × σ)} {s s' : σ} {r : Except ε α}

@[simp] theorem eval_pure (a : α) : (pure a : Program Ans ε α).eval h s = some (.ok a, s) := rfl

@[simp] theorem eval_fail (e : ε) : (fail e : Program Ans ε α).eval h s = some (.error e, s) := rfl

theorem eval_bind (p : Program Ans ε α) (f : α → Program Ans ε β) :
    (p >>= f).eval h s = (p.eval h s).bind (fun r =>
      match r.1 with
      | .ok a => (f a).eval h r.2
      | .error e => some (.error e, r.2)) := by
  change (p.bind f).eval h s = _
  induction p generalizing s with
  | ret a => rfl
  | fail e => rfl
  | call o k ih =>
    rw [bind, eval, eval, Option.bind_assoc]
    exact congrArg _ (funext fun r => ih r.1)

end eval

section wp
variable {S : Spec Ans σ} {Q Q' : α → σ → Prop} {E E' : ε → σ → Prop} {s s' : σ}

@[simp] theorem wp_pure (a : α) : (pure a : Program Ans ε α).wp S Q E s ↔ Q a s := Iff.rfl

@[simp] theorem wp_fail (e : ε) : (fail e : Program Ans ε α).wp S Q E s ↔ E e s := Iff.rfl

@[simp] theorem wp_op (o : Op) {Q : Ans o → σ → Prop} :
    (op Ans o : Program Ans ε (Ans o)).wp S Q E s ↔
      S.pre o s ∧ ∀ x s', S.post o s x s' → Q x s' := Iff.rfl

@[simp] theorem wp_bind (p : Program Ans ε α) (f : α → Program Ans ε β) {Q : β → σ → Prop} :
    (p >>= f).wp S Q E s ↔ p.wp S (fun a s => (f a).wp S Q E s) E s := by
  change (p.bind f).wp S Q E s ↔ _
  induction p generalizing s with
  | ret a => rfl
  | fail e => rfl
  | call o k ih =>
    refine and_congr_right fun _ => forall_congr' fun x => forall_congr' fun s' => ?_
    exact imp_congr_right fun _ => ih x

theorem wp_mono {p : Program Ans ε α} (hp : p.wp S Q E s) (hQ : ∀ a s, Q a s → Q' a s)
    (hE : ∀ e s, E e s → E' e s) : p.wp S Q' E' s := by
  induction p generalizing s with
  | ret a => exact hQ a s hp
  | fail e => exact hE e s hp
  | call o k ih => exact ⟨hp.1, fun x s' hx => ih x (hp.2 x s' hx)⟩

/-- What the weakest precondition says of a run. -/
def Post (Q : α → σ → Prop) (E : ε → σ → Prop) : Except ε α → σ → Prop
  | .ok a, s => Q a s
  | .error e, s => E e s

theorem Runs.post {p : Program Ans ε α} {r : Except ε α} (hr : p.Runs S s r s')
    (hp : p.wp S Q E s) : Post Q E r s' := by
  induction p generalizing s with
  | ret a =>
    obtain ⟨rfl, rfl⟩ := hr
    exact hp
  | fail e =>
    obtain ⟨rfl, rfl⟩ := hr
    exact hp
  | call o k ih =>
    obtain ⟨x, s₁, hx, hr⟩ := hr
    exact ih x hr (hp.2 x s₁ hx)

end wp

end Program

end Darwin.Lib
