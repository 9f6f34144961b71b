import Darwin.Kern.MachLoaderScript
import Mathlib.Logic.Function.Iterate

/-! # Loads that fail

A load that fails leaves the calling task as it was if and only if it fails before it has set the
status of a thread or created one.
-/
namespace Darwin.Kern
open Darwin.Lib

section
variable {Regs : Type} {env : LoadEnv Regs}

/-! ## What acts on threads -/

/-- The first status of the thread command is accepted. -/
def setsStatus (env : LoadEnv Regs) (file : MachFile) (tcp : Word) : Prop :=
  0 < env.turns ∧ (file.statuses tcp).2 ≠ 0 ∧
    env.threadSetstatus (file.long (file.statuses tcp).1)
      (file.longs ((file.statuses tcp).1 + 8) (file.long ((file.statuses tcp).1 + 4))) ≠ none

/-- The action sets the status of the current thread, or creates a thread. -/
def LoadAction.ActsOnThreads (env : LoadEnv Regs) : LoadAction → Io Maps → Prop
  | .thread file tcp true, _ => setsStatus env file tcp
  | .thread _ _ false, s => s.env s.ops = true
  | .unixthread file tcp true, _ => (∃ v, loadThreadstack env file tcp = .ok v) ∧
    (∃ v, loadThreadentry env file tcp = .ok v) ∧ setsStatus env file tcp
  | _, _ => False

/-- Some registers are not what the function leaves. -/
def Avoids (f : Regs → Regs) : Prop := ∃ regs, ∀ before, f before ≠ regs

/-- What `thread_setstatus` accepts, it writes over something that may have been different. -/
def LoadEnv.Overwrites (env : LoadEnv Regs) : Prop :=
  ∀ flavor ts set, env.threadSetstatus flavor ts = some set → Avoids set

/-- A task that is changed so, was not always the same before. -/
structure Disturbs (f : Task Regs → Task Regs) : Prop where
  le : ∀ t, t.threads.length ≤ (f t).threads.length
  changed : (∀ t, t.threads.length < (f t).threads.length) ∨ ∃ regs, ∀ t, (f t).regs ≠ regs

theorem Disturbs.comp {f g : Task Regs → Task Regs} (hf : Disturbs f) (hg : g = id ∨ Disturbs g) :
    Disturbs (f ∘ g) := by
  have hle : ∀ t, t.threads.length ≤ (g t).threads.length := by
    rcases hg with rfl | hg
    · exact fun _ => le_refl _
    · exact hg.le
  refine ⟨fun t => (hle t).trans (hf.le (g t)), ?_⟩
  rcases hf.changed with hlt | ⟨regs, hregs⟩
  · exact .inl (fun t => (hle t).trans_lt (hlt (g t)))
  · exact .inr ⟨regs, fun t => hregs (g t)⟩

theorem Disturbs.ne {f : Task Regs → Task Regs} (hf : Disturbs f) (threads : List Regs) (regs : Regs) :
    ∃ t, f t ≠ t := by
  rcases hf.changed with hlt | ⟨regs, hregs⟩
  · refine ⟨⟨regs, threads⟩, fun heq => ?_⟩
    have hlt' := hlt ⟨regs, threads⟩
    rw [heq] at hlt'
    exact lt_irrefl _ hlt'
  · refine ⟨⟨regs, threads⟩, fun heq => hregs ⟨regs, threads⟩ ?_⟩
    rw [heq]

theorem forStatuses_changes {file : MachFile} {set : Word → List Word → Option (Regs → Regs)}
    (hset : ∀ flavor ts f, set flavor ts = some f → Avoids f) (n : ℕ) : ∀ ts totalSize, ∃ r g,
    (∀ regs, file.forStatuses (fun flavor ts regs => (set flavor ts).map (fun f => f regs)) n ts totalSize regs =
      (r, g regs)) ∧
    (0 < n ∧ totalSize ≠ 0 ∧ set (file.long ts) (file.longs (ts + 8) (file.long (ts + 4))) ≠ none → Avoids g) ∧
    (¬ (0 < n ∧ totalSize ≠ 0 ∧ set (file.long ts) (file.longs (ts + 8) (file.long (ts + 4))) ≠ none) → g = id) := by
  induction n with
  | zero => exact fun ts totalSize => ⟨_, id, fun _ => rfl, fun h => absurd h.1 (lt_irrefl 0), fun _ => rfl⟩
  | succ n ih =>
    intro ts totalSize
    simp only [MachFile.forStatuses]
    by_cases hzero : totalSize = 0
    · exact ⟨.ok (), id, fun _ => by rw [if_pos hzero]; rfl, fun h => absurd hzero h.2.1, fun _ => rfl⟩
    · cases hfirst : set (file.long ts) (file.longs (ts + 8) (file.long (ts + 4))) with
      | none =>
        exact ⟨.error .failure, id, fun _ => by rw [if_neg hzero]; rfl, fun h => absurd rfl h.2.2, fun _ => rfl⟩
      | some f =>
        obtain ⟨r, g, hrest, hacts, hidle⟩ := ih (ts + 8 + 4 * file.long (ts + 4))
          (totalSize - (file.long (ts + 4) + 2) * 4)
        refine ⟨r, g ∘ f, fun regs => ?_, fun _ => ?_, fun h => ?_⟩
        · rw [if_neg hzero]
          exact hrest (f regs)
        · by_cases hlater : 0 < n ∧ totalSize - (file.long (ts + 4) + 2) * 4 ≠ 0 ∧ set
            (file.long (ts + 8 + 4 * file.long (ts + 4)))
            (file.longs (ts + 8 + 4 * file.long (ts + 4) + 8)
              (file.long (ts + 8 + 4 * file.long (ts + 4) + 4))) ≠ none
          · obtain ⟨regs, hregs⟩ := hacts hlater
            exact ⟨regs, fun before => hregs (f before)⟩
          · rw [hidle hlater]
            exact hset _ _ f hfirst
        · exact absurd ⟨Nat.succ_pos n, hzero, by simp⟩ h

theorem loadThreadstate_changes (hset : env.Overwrites) (file : MachFile) (tcp : Word) : ∃ r g,
    (∀ regs, loadThreadstate env file tcp regs = (r, g regs)) ∧ (setsStatus env file tcp → Avoids g) ∧
      (¬ setsStatus env file tcp → g = id) :=
  forStatuses_changes hset env.turns _ _

/-! ## What an action does to the task -/

theorem ofExcept_steers {α : Type} {x : Except LoadReturn α} : Steers (ofExcept x : LoadM Regs α) := by
  cases x with
  | ok a => exact Steers.pure
  | error e => exact Steers.throw

theorem setMap_steers {map : ℕ} {ranges : List (Word × Word)} : Steers (setMap map ranges : LoadM Regs Unit) :=
  Steers.update (f := fun (maps : Maps) => Function.update maps map ranges)

theorem copySegment_steers {file : MachFile} {fileoff filesize : Word} :
    Steers (copySegment file fileoff filesize : LoadM Regs Unit) := by
  unfold copySegment
  simp only
  split
  · exact Steers.throw
  split
  · exact Steers.pure
  refine Steers.operation.bind (fun _ => ?_)
  split
  · refine Steers.operation.bind (fun _ => Steers.operation.bind (fun _ => ?_))
    exact Steers.operation.bind (fun _ => Steers.operation)
  · exact Steers.operation

theorem loadSegment_steers [Nonempty Regs] {file : MachFile} {scp : Word} {map : ℕ} {result : LoadResult} :
    Steers (loadSegment env file scp map result) := by
  have : Nonempty (Task Regs) := ⟨⟨Classical.ofNonempty, []⟩⟩
  unfold loadSegment
  simp only
  split
  · exact Steers.throw
  split
  · exact Steers.throw
  split
  · exact Steers.pure
  refine Steers.current (fun _ _ _ => rfl) (fun s => ?_)
  split
  · exact Steers.throw
  · exact setMap_steers.bind (fun _ => copySegment_steers.bind (fun _ => Steers.pure))

theorem copyDylinker_steers [Nonempty Regs] {map : ℕ} {entryPoint : Word} :
    Steers (copyDylinker env map entryPoint) := by
  have : Nonempty (Task Regs) := ⟨⟨Classical.ofNonempty, []⟩⟩
  unfold copyDylinker
  refine Steers.current (fun _ _ _ => rfl) (fun s => ?_)
  split
  · simp only
    split
    · exact setMap_steers.bind (fun _ => Steers.operation.bind (fun _ => Steers.pure))
    split
    · exact setMap_steers.bind (fun _ => Steers.operation.bind (fun _ => Steers.pure))
    · exact Steers.throw
  · exact Steers.throw

theorem onCurrent_changes {f : Regs → Except LoadReturn Unit × Regs} {r : Except LoadReturn Unit}
    {g : Regs → Regs} (hf : ∀ regs, f regs = (r, g regs)) (s : Io Maps) :
    ∃ r', Changes (onCurrent f) s r' (fun t => { t with regs := g t.regs }) := by
  cases r with
  | ok u =>
    refine ⟨.ok () s, fun t => ?_⟩
    rw [onCurrent, current_bind_apply, update_bind_apply]
    simp only [hf, Io.pair]
    rfl
  | error e =>
    refine ⟨.error e s, fun t => ?_⟩
    rw [onCurrent, current_bind_apply, update_bind_apply]
    simp only [hf, Io.pair]
    rfl

theorem onCreated_changes (f : Regs → Except LoadReturn Unit × Regs) (new : Regs) (s : Io Maps) :
    ∃ r', Changes (onCreated new f) s r' (fun t => { t with threads := t.threads ++ [(f new).2] }) := by
  have hupdate : Changes (IoM.update (fun s => (s.1, { s.2 with threads := s.2.threads ++ [(f new).2] })) :
      LoadM Regs Unit) s (.ok () s) (fun t => { t with threads := t.threads ++ [(f new).2] }) :=
    fun _ => rfl
  exact hupdate.steers (fun _ => ofExcept_steers)

theorem onCurrent_disturbs (hset : env.Overwrites) (file : MachFile) (tcp : Word) (s : Io Maps) :
    ∃ r f, Changes (onCurrent (loadThreadstate env file tcp)) s r f ∧
      (setsStatus env file tcp → Disturbs f) ∧ (¬ setsStatus env file tcp → f = id) := by
  obtain ⟨r, g, hstate, hacts, hidle⟩ := loadThreadstate_changes hset file tcp
  obtain ⟨r', hr'⟩ := onCurrent_changes hstate s
  refine ⟨r', _, hr', ?_, ?_⟩
  · intro h
    obtain ⟨regs, hregs⟩ := hacts h
    exact ⟨fun _ => le_refl _, .inr ⟨regs, fun t => hregs t.regs⟩⟩
  · intro h
    rw [hidle h]
    rfl

theorem thread_changes (hset : env.Overwrites) (file : MachFile) (tcp : Word) (s : Io Maps) :
    ∃ r f, Changes (loadThread env file tcp (.sample true)) s r f ∧
      (setsStatus env file tcp → Disturbs f) ∧ (¬ setsStatus env file tcp → f = id) := by
  obtain ⟨r, f, hchanges, hacts, hidle⟩ := onCurrent_disturbs hset file tcp s
  rw [loadThread, if_pos (show (LoadResult.sample true).threadCount = 0 from rfl)]
  obtain ⟨r', hr'⟩ := hchanges.steers (fun _ => ofExcept_steers.bind (fun userStack =>
    ofExcept_steers.bind (fun entryPoint => Steers.pure (x := { LoadResult.sample true with
      userStack := userStack
      entryPoint := entryPoint
      threadCount := (LoadResult.sample true).threadCount + 1 }))))
  exact ⟨r', f, hr', hacts, hidle⟩

theorem newThread_changes (file : MachFile) (tcp : Word) (s : Io Maps) :
    ∃ r f, Changes (loadThread env file tcp (.sample false)) s r f ∧
      (s.env s.ops = true → Disturbs f) ∧ (¬ s.env s.ops = true → f = id) := by
  rw [loadThread, if_neg (by simp [LoadResult.sample])]
  by_cases henv : s.env s.ops = true
  · have hop : Changes (operation .resource : LoadM Regs Unit) s (.ok () { s with ops := s.ops + 1 }) id :=
      fun _ => (operation_run _ _).trans (if_pos henv)
    obtain ⟨r, hr⟩ := onCreated_changes (loadThreadstate env file tcp) env.newThread
      { s with ops := s.ops + 1 }
    obtain ⟨r', hr'⟩ := hr.steers (fun _ => Steers.pure (x := { LoadResult.sample false with
      threadCount := (LoadResult.sample false).threadCount + 1 }))
    have hlt : ∀ t : Task Regs, t.threads.length <
        (t.threads ++ [(loadThreadstate env file tcp env.newThread).2]).length := by
      intro t
      rw [List.length_append]
      exact Nat.lt_succ_self _
    refine ⟨r', _, hop.bind_ok hr', fun _ => ⟨fun t => (hlt t).le, .inl hlt⟩, fun h => absurd henv h⟩
  · have hop : Changes (operation .resource : LoadM Regs Unit) s
        (.error .resource { s with ops := s.ops + 1 }) id :=
      fun _ => (operation_run _ _).trans (if_neg henv)
    exact ⟨_, id, hop.bind_error, fun h => absurd h henv, fun _ => rfl⟩

theorem unixthread_changes (hset : env.Overwrites) (file : MachFile) (tcp : Word) (s : Io Maps) :
    ∃ r f, Changes (loadUnixthread env file tcp (.sample true)) s r f ∧
      (LoadAction.ActsOnThreads env (.unixthread file tcp true) s → Disturbs f) ∧
      (¬ LoadAction.ActsOnThreads env (.unixthread file tcp true) s → f = id) := by
  rw [loadUnixthread, if_neg (by simp [LoadResult.sample])]
  cases hstack : loadThreadstack env file tcp with
  | error e =>
    refine ⟨.error e s, id, fun _ => rfl, ?_, fun _ => rfl⟩
    rintro ⟨⟨v, hv⟩, -⟩
    rw [hstack] at hv
    cases hv
  | ok userStack =>
    cases hentry : loadThreadentry env file tcp with
    | error e =>
      refine ⟨.error e s, id, fun _ => rfl, ?_, fun _ => rfl⟩
      rintro ⟨-, ⟨v, hv⟩, -⟩
      rw [hentry] at hv
      cases hv
    | ok entryPoint =>
      obtain ⟨r, f, hchanges, hacts, hidle⟩ := onCurrent_disturbs hset file tcp s
      obtain ⟨r', hr'⟩ := hchanges.steers (fun _ => Steers.pure (x := { LoadResult.sample true with
        userStack := userStack
        entryPoint := entryPoint
        unixproc := true
        threadCount := (LoadResult.sample true).threadCount + 1 }))
      refine ⟨r', f, hr', fun h => hacts h.2.2, fun h => hidle (fun hsets => h ?_)⟩
      exact ⟨⟨userStack, hstack⟩, ⟨entryPoint, hentry⟩, hsets⟩

theorem perform_changes [Nonempty Regs] (hset : env.Overwrites) (a : LoadAction) (s : Io Maps) :
    ∃ r f, Changes (a.perform env) s r f ∧ (a.ActsOnThreads env s → Disturbs f) ∧
      (¬ a.ActsOnThreads env s → f = id) := by
  have hsteers : Steers (a.perform env) → ¬ a.ActsOnThreads env s → ∃ r f,
      Changes (a.perform env) s r f ∧ (a.ActsOnThreads env s → Disturbs f) ∧
        (¬ a.ActsOnThreads env s → f = id) := by
    intro hsteers hacts
    obtain ⟨r, hr⟩ := hsteers s
    exact ⟨r, id, hr, fun h => absurd h hacts, fun _ => rfl⟩
  cases a with
  | refuse e => exact hsteers Steers.throw id
  | mapCommands => exact hsteers Steers.operation id
  | newMap map => exact hsteers setMap_steers id
  | segment file scp map => exact hsteers (loadSegment_steers.bind (fun _ => Steers.pure)) id
  | copyDylinker map => exact hsteers (copyDylinker_steers.bind (fun _ => Steers.pure)) id
  | thread file tcp first =>
    cases first with
    | true =>
      obtain ⟨r, f, hchanges, hacts, hidle⟩ := thread_changes hset file tcp s
      obtain ⟨r', hr'⟩ := hchanges.steers (fun _ => Steers.pure (x := ()))
      exact ⟨r', f, hr', hacts, hidle⟩
    | false =>
      obtain ⟨r, f, hchanges, hacts, hidle⟩ := @newThread_changes _ env file tcp s
      obtain ⟨r', hr'⟩ := hchanges.steers (fun _ => Steers.pure (x := ()))
      exact ⟨r', f, hr', hacts, hidle⟩
  | unixthread file tcp first =>
    cases first with
    | true =>
      obtain ⟨r, f, hchanges, hacts, hidle⟩ := unixthread_changes hset file tcp s
      obtain ⟨r', hr'⟩ := hchanges.steers (fun _ => Steers.pure (x := ()))
      exact ⟨r', f, hr', hacts, hidle⟩
    | false => exact hsteers (fun s => ⟨.error .failure s, fun _ => rfl⟩) id

/-! ## The caller's map -/

/-- The action writes no map, or another one than the caller's. -/
def LoadAction.SparesCaller : LoadAction → Prop
  | .newMap map | .segment _ _ map | .copyDylinker map => map ≠ 0
  | _ => True

theorem setMap_keeps {map : ℕ} (hmap : map ≠ 0) {ranges ranges₀ : List (Word × Word)} :
    Keeps (fun s => s.1 0 = ranges₀) (setMap map ranges : LoadM Regs Unit) :=
  Keeps.update (fun s hs => (Function.update_of_ne hmap.symm ranges s.1).trans hs)

theorem ofExcept_keeps {α : Type} {I : Maps × Task Regs → Prop} {x : Except LoadReturn α} :
    Keeps I (ofExcept x : LoadM Regs α) := by
  cases x with
  | ok a => exact Keeps.pure
  | error e => exact Keeps.throw

theorem taskOnly_keeps {ranges : List (Word × Word)} {f : Task Regs → Task Regs} :
    Keeps (fun s => s.1 0 = ranges) (IoM.update (fun s => (s.1, f s.2)) : LoadM Regs Unit) :=
  Keeps.update (fun _ hs => hs)

theorem onCurrent_keeps {ranges : List (Word × Word)} {f : Regs → Except LoadReturn Unit × Regs} :
    Keeps (fun s => s.1 0 = ranges) (onCurrent f) :=
  Keeps.current (fun _ => (taskOnly_keeps (f := fun t => { t with regs := (f t.regs).2 })).bind
    (fun _ => ofExcept_keeps))

theorem onCreated_keeps {ranges : List (Word × Word)} {new : Regs} {f : Regs → Except LoadReturn Unit × Regs} :
    Keeps (fun s => s.1 0 = ranges) (onCreated new f) :=
  (taskOnly_keeps (f := fun t => { t with threads := t.threads ++ [(f new).2] })).bind
    (fun _ => ofExcept_keeps)

theorem loadThread_keeps {file : MachFile} {tcp : Word} {result : LoadResult} {ranges : List (Word × Word)} :
    Keeps (fun s => s.1 0 = ranges) (loadThread env file tcp result) := by
  unfold loadThread
  split
  · exact onCurrent_keeps.bind (fun _ => ofExcept_keeps.bind (fun _ => ofExcept_keeps.bind
      (fun _ => Keeps.pure)))
  · exact Keeps.operation.bind (fun _ => onCreated_keeps.bind (fun _ => Keeps.pure))

theorem loadUnixthread_keeps {file : MachFile} {tcp : Word} {result : LoadResult}
    {ranges : List (Word × Word)} :
    Keeps (fun s => s.1 0 = ranges) (loadUnixthread env file tcp result) := by
  unfold loadUnixthread
  split
  · exact Keeps.throw
  · exact ofExcept_keeps.bind (fun _ => ofExcept_keeps.bind (fun _ => onCurrent_keeps.bind
      (fun _ => Keeps.pure)))

theorem copySegment_keeps {I : Maps × Task Regs → Prop} {file : MachFile} {fileoff filesize : Word} :
    Keeps I (copySegment file fileoff filesize : LoadM Regs Unit) := by
  unfold copySegment
  simp only
  split
  · exact Keeps.throw
  split
  · exact Keeps.pure
  refine Keeps.operation.bind (fun _ => ?_)
  split
  · exact Keeps.operation.bind (fun _ => Keeps.operation.bind (fun _ => Keeps.operation.bind
      (fun _ => Keeps.operation)))
  · exact Keeps.operation

theorem loadSegment_keeps {file : MachFile} {scp : Word} {map : ℕ} (hmap : map ≠ 0) {result : LoadResult}
    {ranges : List (Word × Word)} :
    Keeps (fun s => s.1 0 = ranges) (loadSegment env file scp map result) := by
  unfold loadSegment
  simp only
  split
  · exact Keeps.throw
  split
  · exact Keeps.throw
  split
  · exact Keeps.pure
  refine Keeps.current (fun _ => ?_)
  split
  · exact Keeps.throw
  · exact (setMap_keeps hmap).bind (fun _ => copySegment_keeps.bind (fun _ => Keeps.pure))

theorem copyDylinker_keeps {map : ℕ} (hmap : map ≠ 0) {entryPoint : Word} {ranges : List (Word × Word)} :
    Keeps (fun s => s.1 0 = ranges) (copyDylinker env map entryPoint) := by
  unfold copyDylinker
  refine Keeps.current (fun _ => ?_)
  split
  · simp only
    split
    · exact (setMap_keeps hmap).bind (fun _ => Keeps.operation.bind (fun _ => Keeps.pure))
    split
    · exact (setMap_keeps hmap).bind (fun _ => Keeps.operation.bind (fun _ => Keeps.pure))
    · exact Keeps.throw
  · exact Keeps.throw

theorem perform_keeps {a : LoadAction} (ha : a.SparesCaller) {ranges : List (Word × Word)} :
    Keeps (fun s => s.1 0 = ranges) (a.perform env) := by
  cases a with
  | refuse e => exact Keeps.throw
  | mapCommands => exact Keeps.operation
  | newMap map => exact setMap_keeps ha
  | segment file scp map => exact (loadSegment_keeps ha).bind (fun _ => Keeps.pure)
  | copyDylinker map => exact (copyDylinker_keeps ha).bind (fun _ => Keeps.pure)
  | thread file tcp first => exact loadThread_keeps.bind (fun _ => Keeps.pure)
  | unixthread file tcp first => exact loadUnixthread_keeps.bind (fun _ => Keeps.pure)

/-! ### The whole script spares it -/

def SparesCaller (as : List LoadAction) : Prop := ∀ a ∈ as, a.SparesCaller

theorem SparesCaller.nil : SparesCaller [] := List.forall_mem_nil _

theorem SparesCaller.cons {a : LoadAction} {as : List LoadAction} (ha : a.SparesCaller)
    (has : SparesCaller as) : SparesCaller (a :: as) := List.forall_mem_cons.mpr ⟨ha, has⟩

theorem SparesCaller.append {as bs : List LoadAction} (ha : SparesCaller as) (hb : SparesCaller bs) :
    SparesCaller (as ++ bs) := List.forall_mem_append.mpr ⟨ha, hb⟩

theorem refusal_spares {α : Type} {x : Except LoadReturn α} : SparesCaller (refusal x) := by
  cases x with
  | ok a => exact .nil
  | error e => exact .cons trivial .nil

section spares
variable {script : ParseScript} (hscript : ∀ file map depth v, map ≠ 0 → SparesCaller (script file map depth v).1)
  {file : MachFile} {map depth : ℕ}
include hscript

theorem fvmlibScript_spares (hmap : map ≠ 0) {lcp : Word} : SparesCaller (fvmlibScript env script file lcp map depth) := by
  unfold fvmlibScript
  split
  · exact .cons trivial .nil
  · refine (hscript _ map depth _ hmap).append ?_
    split
    · exact .cons trivial .nil
    · exact .nil

theorem dylinkerScript_spares (hmap : map ≠ 0) {lcp : Word} :
    SparesCaller (dylinkerScript env script file lcp map depth) := by
  unfold dylinkerScript
  split
  · exact .cons trivial .nil
  · exact .cons (Nat.succ_ne_zero map) ((hscript _ (map + 1) depth none (Nat.succ_ne_zero map)).append
      (.cons hmap .nil))

theorem commandScript_spares (hmap : map ≠ 0) {pass : Pass} {lcp : Word} {st : Planned} :
    SparesCaller (commandScript env script file map depth pass lcp st).1 := by
  unfold commandScript
  split
  · exact .cons hmap .nil
  · exact .cons trivial .nil
  · exact .cons trivial .nil
  · exact fvmlibScript_spares hscript hmap
  · exact .nil
  · split
    · exact .nil
    · exact .cons trivial .nil
  · exact .nil

omit hscript in
theorem commandsScript_spares (file : MachFile) {body : Word → Planned → List LoadAction × Planned}
    (hbody : ∀ lcp st, SparesCaller (body lcp st).1) (ncmds : ℕ) :
    ∀ offset st, SparesCaller (commandsScript body file ncmds offset st).1 := by
  induction ncmds with
  | zero => exact fun _ _ => .nil
  | succ ncmds ih =>
    intro offset st
    simp only [commandsScript]
    split
    · exact .cons trivial .nil
    · exact (hbody _ st).append (ih _ _)

end spares

theorem parseScript_spares (left : ℕ) : ∀ file map depth v, map ≠ 0 →
    SparesCaller (parseScript env left file map depth v).1 := by
  induction left with
  | zero => exact fun _ _ _ _ _ => .cons trivial .nil
  | succ left ih =>
    intro file map depth v hmap
    simp only [parseScript]
    have hbody : ∀ pass lcp st, SparesCaller
        (commandScript env (parseScript env left) file map (depth + 1) pass lcp st).1 :=
      fun _ _ _ => commandScript_spares ih hmap
    have hpass := fun pass => commandsScript_spares file (hbody pass) file.header.ncmds.toNat headerSize
    refine refusal_spares.append (refusal_spares.append (.cons trivial ?_))
    refine (hpass .first _).append ((hpass .second _).append (SparesCaller.append ?_ ?_))
    · unfold dlpScript
      split
      · exact .nil
      · exact dylinkerScript_spares ih hmap
    · split
      · exact .cons trivial .nil
      · exact .nil

theorem loadScript_spares (file : MachFile) : SparesCaller (loadScript env file) :=
  .cons Nat.one_ne_zero (parseScript_spares 7 file 1 0 none Nat.one_ne_zero)

/-! ## When a failure leaves the task as it was -/

/-- A load that fails leaves every calling task as it was, with its map and its threads, if and only
if it has reached no thread command that sets the status of the current thread or creates a thread. -/
theorem loadMachfile_intact_iff (hset : env.Overwrites) {file : MachFile} {s : Io Maps} (hfails : ∃ t e s',
    e ≠ .never ∧ (loadMachfile env file).run (s.pair t) = .error e s') :
    (∀ t e s', (loadMachfile env file).run (s.pair t) = .error e s' → s'.st.2 = t ∧ s'.st.1 0 = s.st 0) ↔
      ∀ a s', Reaches (LoadAction.perform env) (loadScript env file) s a s' → ¬ a.ActsOnThreads env s' := by
  obtain ⟨t₀, e₀, s₀, -, hfail⟩ := hfails
  have : Nonempty Regs := ⟨t₀.regs⟩
  have : Nonempty (Task Regs) := ⟨t₀⟩
  obtain ⟨r, f, hchanges, hacts, hidle⟩ := exec_changes (perform_changes hset)
    (fun f g hf hg => Disturbs.comp hf hg) (loadScript env file) s
  have hexec := (loadMachfile_error.mp hfail).symm.trans (hchanges t₀)
  cases r with
  | ok u s₁ => cases hexec
  | error e s₁ =>
    -- The outcome is the same for every task, and the new task is `f` of the old one.
    have hall : ∀ t, (loadMachfile env file).run (s.pair t) = .error e (s₁.pair (f t)) :=
      fun t => loadMachfile_error.mpr (hchanges t)
    constructor
    · intro hintact a s' hreach ha
      obtain ⟨t, ht⟩ := (hacts ⟨a, s', hreach, ha⟩).ne t₀.threads t₀.regs
      exact ht (hintact t e _ (hall t)).1
    · intro hnone t e' s' hrun
      rw [hall t, hidle hnone] at hrun
      cases hrun
      refine ⟨rfl, ?_⟩
      have hkeeps : Keeps (fun s' => s'.1 0 = s.st 0)
          (exec (LoadAction.perform env) (loadScript env file)) :=
        Keeps.exec (fun a ha => perform_keeps (loadScript_spares file a ha))
      have hkept := hkeeps (s.pair t) rfl
      rwa [hchanges t] at hkept

end

/-! ## Two files -/

/-- A PowerPC whose files name nothing that exists. The registers are the words of
`ppc_thread_state`. -/
def powerpc : LoadEnv (List Word) where
  cpuType := 18
  checkCpuSubtype := fun _ => true
  threadSetstatus := fun flavor ts =>
    if flavor = 1 ∧ 40 ≤ ts.length then some (fun _ => (ts.take 40).set 1 (ts.getD 1 0 ||| 0xd030)) else none
  threadUserstack := fun flavor ts _ =>
    if flavor = 1 ∧ 40 ≤ ts.length then some (if ts.getD 3 0 = 0 then 0xc0000000 else ts.getD 3 0) else none
  threadEntrypoint := fun flavor ts _ => if flavor = 1 ∧ 40 ≤ ts.length then some (ts.getD 0 0) else none
  newThread := List.replicate 40 0
  getMachoVnode := fun _ => .error (.errno 2)
  findSpace := fun _ _ _ => none
  minOffset := 0
  maxOffset := 0xc0000000
  unset := 0
  turns := 2

theorem powerpc_overwrites : powerpc.Overwrites := by
  intro flavor ts set hset
  obtain ⟨hlength, hset⟩ := Option.ite_none_right_eq_some.mp hset
  cases hset
  refine ⟨[], fun _ heq => ?_⟩
  have hzero := congrArg List.length heq
  rw [List.length_set, List.length_take, min_eq_left hlength.2] at hzero
  cases hzero

/-- An executable of 4096 bytes with these words behind its header. -/
def executable (ncmds : Word) (words : List Word) : MachFile where
  header := ⟨18, 0, 2, ncmds, BitVec.ofNat 32 (4 * words.length)⟩
  addr := 4096
  byte := fun p => ((words.getD ((p.toNat - 4124) / 4) 0) >>> (8 * (3 - p.toNat % 4))).truncate 8
  long := fun p => words.getD ((p.toNat - 4124) / 4) 0
  fileOffset := 0
  machoSize := 4096
  vnodeSize := 4096

/-- `LC_UNIXTHREAD` with a program counter. -/
def threadWords : List Word := [5, 176, 1, 40, 4096] ++ List.replicate 39 0

/-- Behind it, `LC_LOAD_DYLINKER` for a file that is not there. -/
def noDylinker : MachFile := executable 2 (threadWords ++ [14, 16, 12, 0x2f610000])

/-- All operations succeed, and the caller's map has one page. -/
def atStart : Io Maps := ⟨fun _ => true, 0, fun map => if map = 0 then [(0, 4096)] else []⟩

def caller : Task (List Word) := ⟨List.replicate 40 0, []⟩

/-- The load fails, and the caller's program counter is that of the file. -/
theorem load_changes_registers : ∃ s', (loadMachfile powerpc noDylinker).run (atStart.pair caller) =
    .error (.errno 2) s' ∧ s'.st.2.regs ≠ caller.regs :=
  ⟨_, rfl, by decide⟩

/-- Before the thread command, `LC_SEGMENT` for a segment behind the end of the file. -/
def noSegment : MachFile := executable 2 ([1, 56, 0, 0, 0, 0, 4096, 65536, 0, 65536, 7, 7, 0, 0] ++ threadWords)

theorem load_noSegment_intact : (∃ s', (loadMachfile powerpc noSegment).run (atStart.pair caller) =
      .error .badmacho s') ∧
    ∀ t e s', (loadMachfile powerpc noSegment).run (atStart.pair t) = .error e s' →
      s'.st.2 = t ∧ s'.st.1 0 = atStart.st 0 := by
  have hfails : ∃ s', (loadMachfile powerpc noSegment).run (atStart.pair caller) = .error .badmacho s' :=
    ⟨_, rfl⟩
  obtain ⟨s', hs'⟩ := hfails
  refine ⟨⟨s', hs'⟩, (loadMachfile_intact_iff powerpc_overwrites ⟨caller, .badmacho, s', by decide, hs'⟩).mpr ?_⟩
  obtain ⟨rest, hscript⟩ : ∃ rest, loadScript powerpc noSegment =
      .newMap 1 :: .mapCommands :: .segment noSegment 4124 1 :: rest := ⟨_, rfl⟩
  have hrefused : ∀ s, (LoadAction.perform powerpc (.segment noSegment 4124 1)).run (Io.pair s caller) =
      .error .badmacho (s.pair caller) := fun _ => rfl
  rw [hscript]
  intro a t hreach
  cases hreach with
  | head => exact id
  | cons _ hreach =>
    cases hreach with
    | head => exact id
    | cons _ hreach =>
      cases hreach with
      | head => exact id
      | cons hok _ => cases (hrefused _).symm.trans (hok caller)

end Darwin.Kern
