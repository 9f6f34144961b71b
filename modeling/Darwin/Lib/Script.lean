import Darwin.Lib.Fallible

/-! # Programs that follow a script

A program follows a script when it performs the actions of a list, one after the other, until one
of them fails, whatever it computes between them. When no action's outcome depends on one part of
the state, the whole script is a transformation of that part, made of those of the actions that it
reaches.
-/
namespace Darwin.Lib
variable {ε σ τ κ A α β : Type}

/-- The actions one after the other, until one fails. -/
def exec (act : A → IoM ε σ Unit) : List A → IoM ε σ Unit
  | [] => pure ()
  | a :: as => act a >>= fun _ => exec act as

/-- The program `p` fails where `q` does and leaves the same state; what it returns has the
property `Q`. -/
structure Mirrors (p : IoM ε σ α) (q : IoM ε σ β) (Q : α → Prop) : Prop where
  error : ∀ s e s', q.run s = .error e s' → p.run s = .error e s'
  ok : ∀ s b s', q.run s = .ok b s' → ∃ a, p.run s = .ok a s' ∧ Q a

section mirrors
variable {p : IoM ε σ α} {q : IoM ε σ β} {Q : α → Prop} {α' β' : Type}

theorem Mirrors.pure {a : α} {b : β} (hQ : Q a) : Mirrors (pure a : IoM ε σ α) (pure b : IoM ε σ β) Q where
  error := by rintro s e s' ⟨⟩
  ok := by
    rintro s _ s' ⟨⟩
    exact ⟨a, rfl, hQ⟩

theorem Mirrors.throw {e : ε} : Mirrors (throw e : IoM ε σ α) (throw e : IoM ε σ β) Q where
  error := by
    rintro s _ s' ⟨⟩
    rfl
  ok := by rintro s _ s' ⟨⟩

theorem Mirrors.refl : Mirrors p p (fun _ => True) :=
  ⟨fun _ _ _ h => h, fun _ b _ h => ⟨b, h, trivial⟩⟩

theorem Mirrors.bind {f : α → IoM ε σ α'} {g : β → IoM ε σ β'} {R : α' → Prop} (h : Mirrors p q Q)
    (hf : ∀ a b, Q a → Mirrors (f a) (g b) R) : Mirrors (p >>= f) (q >>= g) R where
  error := by
    intro s e s' hg
    cases hq : q.run s with
    | ok b t =>
      obtain ⟨a, ha, hQ⟩ := h.ok s b t hq
      rw [bind_ok hq] at hg
      rw [bind_ok ha]
      exact (hf a b hQ).error t e s' hg
    | error e' t =>
      rw [bind_error hq] at hg
      cases hg
      exact bind_error (h.error s _ _ hq)
  ok := by
    intro s b' s' hg
    cases hq : q.run s with
    | ok b t =>
      obtain ⟨a, ha, hQ⟩ := h.ok s b t hq
      rw [bind_ok hq] at hg
      rw [bind_ok ha]
      exact (hf a b hQ).ok t b' s' hg
    | error e' t =>
      rw [bind_error hq] at hg
      cases hg

theorem Mirrors.discard (h : Mirrors p q Q) : Mirrors p (q >>= fun _ => Pure.pure ()) Q where
  error := by
    intro s e s' hd
    cases hq : q.run s with
    | ok b t =>
      rw [bind_ok hq] at hd
      cases hd
    | error e' t =>
      rw [bind_error hq] at hd
      cases hd
      exact h.error s _ _ hq
  ok := by
    intro s u s' hd
    cases hq : q.run s with
    | ok b t =>
      rw [bind_ok hq] at hd
      cases hd
      exact h.ok s b _ hq
    | error e' t =>
      rw [bind_error hq] at hd
      cases hd

theorem Mirrors.same {m : IoM ε σ α'} {f : α' → IoM ε σ α} {g : α' → IoM ε σ β}
    (hf : ∀ a, Mirrors (f a) (g a) Q) : Mirrors (m >>= f) (m >>= g) Q where
  error := by
    intro s e s' hg
    cases hm : m.run s with
    | ok a t =>
      rw [bind_ok hm] at hg ⊢
      exact (hf a).error t e s' hg
    | error e' t =>
      rw [bind_error hm] at hg ⊢
      cases hg
      rfl
  ok := by
    intro s b s' hg
    cases hm : m.run s with
    | ok a t =>
      rw [bind_ok hm] at hg ⊢
      exact (hf a).ok t b s' hg
    | error e' t =>
      rw [bind_error hm] at hg
      cases hg

theorem Mirrors.conseq {R : α → Prop} (h : Mirrors p q Q) (hQ : ∀ a, Q a → R a) : Mirrors p q R where
  error := h.error
  ok := by
    intro s b s' hq
    obtain ⟨a, ha, hQa⟩ := h.ok s b s' hq
    exact ⟨a, ha, hQ a hQa⟩

theorem Mirrors.of_error (h : Mirrors p q Q) {s s' : Io σ} {e : ε} (hp : p.run s = .error e s') :
    q.run s = .error e s' := by
  cases hq : q.run s with
  | ok b t =>
    obtain ⟨a, ha, -⟩ := h.ok s b t hq
    rw [hp] at ha
    cases ha
  | error e' t =>
    have he := h.error s e' t hq
    rw [hp] at he
    cases he
    rfl

end mirrors

/-- The program does what the script says, and returns a value with the property `Q`. -/
abbrev Follows (act : A → IoM ε σ Unit) (p : IoM ε σ α) (as : List A) (Q : α → Prop) : Prop :=
  Mirrors p (exec act as) Q

section follows
variable {act : A → IoM ε σ Unit} {p : IoM ε σ α} {as bs : List A} {Q : α → Prop}

theorem exec_append : exec act (as ++ bs) = exec act as >>= fun _ => exec act bs := by
  induction as with
  | nil => rfl
  | cons a as ih => rw [List.cons_append, exec, exec, ih, bind_assoc]

theorem Follows.append {f : α → IoM ε σ β} {R : β → Prop} (h : Follows act p as Q)
    (hf : ∀ a, Q a → Follows act (f a) bs R) : Follows act (p >>= f) (as ++ bs) R := by
  rw [Follows, exec_append]
  exact h.bind (fun a _ => hf a)

theorem Follows.append_nil {f : α → IoM ε σ β} {R : β → Prop} (h : Follows act p as Q)
    (hf : ∀ a, Q a → Follows act (f a) [] R) : Follows act (p >>= f) as R := by
  have happ := h.append hf
  rwa [List.append_nil] at happ

theorem Follows.single {a : A} (h : Mirrors p (act a) Q) : Follows act p [a] Q where
  error := by
    intro s e s' ha
    cases hact : (act a).run s with
    | ok u t =>
      rw [exec, bind_ok hact] at ha
      cases ha
    | error e' t =>
      rw [exec, bind_error hact] at ha
      cases ha
      exact h.error s _ _ hact
  ok := by
    intro s b s' ha
    cases hact : (act a).run s with
    | ok u t =>
      rw [exec, bind_ok hact] at ha
      cases ha
      exact h.ok s _ _ hact
    | error e' t =>
      rw [exec, bind_error hact] at ha
      cases ha

end follows

/-! ## Programs that keep a property of the state -/

def Keeps (I : σ → Prop) (p : IoM ε σ α) : Prop := ∀ s : Io σ, I s.st → I (finalState (p.run s))

section keeps
variable {I : σ → Prop} {p : IoM ε σ α}

theorem Keeps.pure {a : α} : Keeps I (pure a : IoM ε σ α) := fun _ h => h

theorem Keeps.throw {e : ε} : Keeps I (throw e : IoM ε σ α) := fun _ h => h

theorem Keeps.operation {e : ε} : Keeps I (operation e : IoM ε σ Unit) := by
  intro s h
  rw [operation_run]
  split <;> exact h

theorem Keeps.update {f : σ → σ} (hf : ∀ s, I s → I (f s)) : Keeps I (IoM.update f : IoM ε σ Unit) :=
  fun s h => hf s.st h

theorem Keeps.bind {f : α → IoM ε σ β} (h : Keeps I p) (hf : ∀ a, Keeps I (f a)) :
    Keeps I (p >>= f) := by
  intro s hs
  have hp := h s hs
  cases hrun : p.run s with
  | ok a t =>
    rw [bind_ok hrun]
    rw [hrun] at hp
    exact hf a t hp
  | error e t =>
    rw [bind_error hrun]
    rwa [hrun] at hp

theorem Keeps.current {f : σ → IoM ε σ β} (hf : ∀ s, Keeps I (f s)) : Keeps I (current >>= f) :=
  fun s hs => hf s.st s hs

theorem Keeps.exec {act : A → IoM ε σ Unit} {as : List A} (h : ∀ a ∈ as, Keeps I (act a)) :
    Keeps I (exec act as) := by
  induction as with
  | nil => exact Keeps.pure
  | cons a as ih =>
    obtain ⟨ha, has⟩ := List.forall_mem_cons.mp h
    exact ha.bind (fun _ => ih has)

end keeps

/-! ## A part of the state that does not steer -/

/-- A state of the part that steers, with the other part. -/
def Io.pair (s : Io τ) (k : κ) : Io (τ × κ) := ⟨s.env, s.ops, (s.st, k)⟩

def pairResult (r : EStateM.Result ε (Io τ) α) (k : κ) : EStateM.Result ε (Io (τ × κ)) α :=
  match r with
  | .ok a s => .ok a (s.pair k)
  | .error e s => .error e (s.pair k)

/-- From `s` the program ends with `r`, and changes the other part by `f`. -/
def Changes (p : IoM ε (τ × κ) α) (s : Io τ) (r : EStateM.Result ε (Io τ) α) (f : κ → κ) : Prop :=
  ∀ k, p.run (s.pair k) = pairResult r (f k)

/-- The program does not change the other part. -/
def Steers (p : IoM ε (τ × κ) α) : Prop := ∀ s : Io τ, ∃ r, Changes p s r id

/-- The script reaches the action `a`, and is then in the state `t`. -/
inductive Reaches (act : A → IoM ε (τ × κ) Unit) : List A → Io τ → A → Io τ → Prop where
  | head (a : A) (as : List A) (s : Io τ) : Reaches act (a :: as) s a s
  | cons {a b : A} {as : List A} {s s' t : Io τ} {f : κ → κ} :
    Changes (act a) s (.ok () s') f → Reaches act as s' b t → Reaches act (a :: as) s b t

section changes
variable {act : A → IoM ε (τ × κ) Unit} {p : IoM ε (τ × κ) α} {q : α → IoM ε (τ × κ) β} {as : List A}
  {s s' : Io τ} {a : A} {r r' : EStateM.Result ε (Io τ) α} {r'' : EStateM.Result ε (Io τ) β} {f g : κ → κ}

theorem Io.pair_inj {k k' : κ} (h : s.pair k = s'.pair k') : s = s' := by
  obtain ⟨env, ops, st⟩ := s
  obtain ⟨env', ops', st'⟩ := s'
  simp only [Io.pair, Io.mk.injEq, Prod.mk.injEq] at h
  obtain ⟨rfl, rfl, rfl, -⟩ := h
  rfl

theorem pairResult_inj {k k' : κ} (h : pairResult r k = pairResult r' k') : r = r' := by
  cases r <;> cases r' <;> simp only [pairResult, EStateM.Result.ok.injEq, EStateM.Result.error.injEq,
    reduceCtorEq] at h
  · rw [h.1, Io.pair_inj h.2]
  · rw [h.1, Io.pair_inj h.2]

theorem Changes.unique [Nonempty κ] (h : Changes p s r f) (h' : Changes p s r' g) : r = r' :=
  have k : κ := Classical.ofNonempty
  pairResult_inj ((h k).symm.trans (h' k))

theorem Changes.bind_ok {x : α} (hp : Changes p s (.ok x s') f) (hq : Changes (q x) s' r'' g) :
    Changes (p >>= q) s r'' (g ∘ f) := fun k => (Lib.bind_ok (hp k)).trans (hq (f k))

theorem Changes.bind_error {e : ε} (hp : Changes p s (.error e s') f) :
    Changes (p >>= q) s (.error e s') f := fun k => Lib.bind_error (hp k)

theorem Changes.steers (hp : Changes p s r f) (hq : ∀ x, Steers (q x)) :
    ∃ r', Changes (p >>= q) s r' f := by
  cases r with
  | ok x s' =>
    obtain ⟨r', hr'⟩ := hq x s'
    exact ⟨r', hp.bind_ok hr'⟩
  | error e s' => exact ⟨_, hp.bind_error⟩

theorem Changes.nil : Changes (exec act []) s (.ok () s) id := fun _ => rfl

theorem Steers.pure {x : α} : Steers (pure x : IoM ε (τ × κ) α) := fun s => ⟨.ok x s, fun _ => rfl⟩

theorem Steers.throw {e : ε} : Steers (throw e : IoM ε (τ × κ) α) := fun s => ⟨.error e s, fun _ => rfl⟩

theorem Steers.operation {e : ε} : Steers (operation e : IoM ε (τ × κ) Unit) := by
  intro s
  by_cases henv : s.env s.ops = true
  · exact ⟨.ok () { s with ops := s.ops + 1 }, fun k => (operation_run e _).trans (if_pos henv)⟩
  · exact ⟨.error e { s with ops := s.ops + 1 }, fun k => (operation_run e _).trans (if_neg henv)⟩

theorem Steers.update {f : τ → τ} : Steers (IoM.update (fun s => (f s.1, s.2)) : IoM ε (τ × κ) Unit) :=
  fun s => ⟨.ok () { s with st := f s.st }, fun _ => rfl⟩

theorem Steers.bind (hp : Steers p) (hq : ∀ x, Steers (q x)) : Steers (p >>= q) := by
  intro s
  obtain ⟨r, hr⟩ := hp s
  exact hr.steers hq

theorem Steers.current {f : τ × κ → IoM ε (τ × κ) β} (hread : ∀ t k k', f (t, k) = f (t, k'))
    (hf : ∀ s, Steers (f s)) [Nonempty κ] : Steers (current >>= f) := by
  intro s
  have k₀ : κ := Classical.ofNonempty
  obtain ⟨r, hr⟩ := hf (s.st, k₀) s
  refine ⟨r, fun k => ?_⟩
  rw [← hr k, hread s.st k₀ k]
  rfl

/-- The actions that meet `acts` change the other part, each in a way that later ones do not undo;
the rest leave it alone. The script changes it if and only if it reaches one of the former. -/
theorem exec_changes [Nonempty κ] {acts : A → Io τ → Prop} {D : (κ → κ) → Prop}
    (hact : ∀ a s, ∃ r f, Changes (act a) s r f ∧ (acts a s → D f) ∧ (¬ acts a s → f = id))
    (hcomp : ∀ f g, D f → (g = id ∨ D g) → D (f ∘ g)) (as : List A) : ∀ s : Io τ,
    ∃ r f, Changes (exec act as) s r f ∧ ((∃ a t, Reaches act as s a t ∧ acts a t) → D f) ∧
      ((∀ a t, Reaches act as s a t → ¬ acts a t) → f = id) := by
  induction as with
  | nil =>
    refine fun s => ⟨_, _, Changes.nil, ?_, fun _ => rfl⟩
    rintro ⟨a, t, hreach, -⟩
    cases hreach
  | cons a as ih =>
    intro s
    obtain ⟨r, f, hchanges, hacts, hidle⟩ := hact a s
    cases r with
    | error e s' =>
      refine ⟨_, f, hchanges.bind_error, ?_, fun hnone => hidle (hnone a s (.head a as s))⟩
      rintro ⟨b, t, hreach, hb⟩
      cases hreach with
      | head => exact hacts hb
      | cons hok _ => cases hok.unique hchanges
    | ok u s' =>
      obtain ⟨r', g, hrest, hacts', hidle'⟩ := ih s'
      refine ⟨r', g ∘ f, hchanges.bind_ok hrest, ?_, ?_⟩
      · rintro ⟨b, t, hreach, hb⟩
        have hf : f = id ∨ D f := by
          by_cases ha : acts a s
          · exact .inr (hacts ha)
          · exact .inl (hidle ha)
        by_cases hlater : ∃ b t, Reaches act as s' b t ∧ acts b t
        · exact hcomp g f (hacts' hlater) hf
        · have hg : g = id := hidle' (fun b t hb hab => hlater ⟨b, t, hb, hab⟩)
          rw [hg, Function.id_comp]
          cases hreach with
          | head => exact hacts hb
          | cons hok hreach =>
            cases hok.unique hchanges
            exact absurd ⟨b, t, hreach, hb⟩ hlater
      · intro hnone
        rw [hidle (hnone a s (.head a as s)),
          hidle' (fun b t hb => hnone b t (.cons hchanges hb))]
        rfl

end changes

end Darwin.Lib
