import Darwin.Kern.MachLoader
import Darwin.Lib.Script

/-! # What a load does, as a script

No result of a command decides which command comes next, except that a refusal ends the load. So
the files alone say what the loader does up to then, and `parse_machfile` follows that script.
-/
namespace Darwin.Kern
open Darwin.Lib

/-- An action of the loader. `first` is set when the file has had no thread command yet. -/
inductive LoadAction where
  | refuse (e : LoadReturn)
  | mapCommands
  | newMap (map : ℕ)
  | segment (file : MachFile) (scp : Word) (map : ℕ)
  | thread (file : MachFile) (tcp : Word) (first : Bool)
  | unixthread (file : MachFile) (tcp : Word) (first : Bool)
  | copyDylinker (map : ℕ)

/-- A result with a thread, or without one. -/
def LoadResult.sample (first : Bool) : LoadResult := { LoadResult.zero with threadCount := if first then 0 else 1 }

section
variable {Regs : Type} (env : LoadEnv Regs)

def LoadAction.perform : LoadAction → LoadM Regs Unit
  | .refuse e => throw e
  | .mapCommands => operation .nospace
  | .newMap map => setMap map []
  | .segment file scp map => loadSegment env file scp map .zero >>= fun _ => pure ()
  | .thread file tcp first => loadThread env file tcp (.sample first) >>= fun _ => pure ()
  | .unixthread file tcp first => loadUnixthread env file tcp (.sample first) >>= fun _ => pure ()
  | .copyDylinker map => Kern.copyDylinker env map 0 >>= fun _ => pure ()

/-- What decides about later commands. -/
structure Planned where
  threads : Bool
  libVersion : Option Word
  dlp : Option Word

def Parsed.planned (st : Parsed) : Planned := ⟨decide (st.result.threadCount ≠ 0), st.libVersion, st.dlp⟩

abbrev ParseScript := MachFile → ℕ → ℕ → Option Word → List LoadAction × Option Word

def refusal {α : Type} : Except LoadReturn α → List LoadAction
  | .ok _ => []
  | .error e => [.refuse e]

/-- The file of a name in a command. -/
def namedFile (file : MachFile) (lcp : Word) : Except LoadReturn MachFile :=
  match file.name lcp with
  | none => .error .badmacho
  | some name => env.getMachoVnode name

def fvmlibScript (parse : ParseScript) (file : MachFile) (lcp : Word) (map depth : ℕ) : List LoadAction :=
  match namedFile env file lcp with
  | .error e => [.refuse e]
  | .ok lib =>
    let r := parse lib map depth (some env.unset)
    r.1 ++ if r.2.getD env.unset < file.minorVersion lcp then [.refuse .shlib] else []

def dylinkerScript (parse : ParseScript) (file : MachFile) (lcp : Word) (map depth : ℕ) : List LoadAction :=
  match namedFile env file lcp with
  | .error e => [.refuse e]
  | .ok dylinker => .newMap (map + 1) :: ((parse dylinker (map + 1) depth none).1 ++ [.copyDylinker map])

def commandScript (parse : ParseScript) (file : MachFile) (map depth : ℕ) (pass : Pass) (lcp : Word)
    (st : Planned) : List LoadAction × Planned :=
  match pass, file.cmd lcp with
  | .first, .segment => ([.segment file lcp map], st)
  | .second, .thread => ([.thread file lcp (!st.threads)], { st with threads := true })
  | .second, .unixthread => ([.unixthread file lcp (!st.threads)], { st with threads := true })
  | .first, .loadfvmlib => (fvmlibScript env parse file lcp map depth, st)
  | .first, .idfvmlib => ([], { st with libVersion := st.libVersion.map (fun _ => file.minorVersion lcp) })
  | .second, .loadDylinker =>
    if depth = 1 ∨ st.dlp = none then ([], { st with dlp := some lcp }) else ([.refuse .failure], st)
  | _, _ => ([], st)

def commandsScript (body : Word → Planned → List LoadAction × Planned) (file : MachFile) : ℕ → Word → Planned →
    List LoadAction × Planned
  | 0, _, st => ([], st)
  | ncmds + 1, offset, st =>
    let lcp := file.addr + offset
    let offset := offset + file.cmdsize lcp
    if file.header.sizeofcmds + headerSize < offset then ([.refuse .badmacho], st)
    else
      let r := body lcp st
      let rest := commandsScript body file ncmds offset r.2
      (r.1 ++ rest.1, rest.2)

def dlpScript (parse : ParseScript) (file : MachFile) (map depth : ℕ) (st : Planned) : List LoadAction :=
  match st.dlp with
  | none => []
  | some dlp => dylinkerScript env parse file dlp map depth

def parseScript : ℕ → ParseScript
  | 0 => fun _ _ _ libVersion => ([.refuse .failure], libVersion)
  | left + 1 => fun file map depth libVersion =>
    let depth := depth + 1
    let body := commandScript env (parseScript left) file map depth
    let ncmds := file.header.ncmds.toNat
    let first := commandsScript (body .first) file ncmds headerSize ⟨false, libVersion, none⟩
    let second := commandsScript (body .second) file ncmds headerSize first.2
    (refusal (checkHeader env file.header depth) ++ (refusal (checkSize file) ++ (.mapCommands ::
      (first.1 ++ (second.1 ++ (dlpScript env (parseScript left) file map depth second.2 ++
      if depth = 1 ∧ second.2.threads = false then [.refuse .failure] else []))))),
      second.2.libVersion)

/-- The script of `load_machfile`, without the commitment at its end. -/
def loadScript (file : MachFile) : List LoadAction :=
  .newMap 1 :: (parseScript env 7 file 1 0 none).1

/-! ## The loader follows it -/

variable {env}

abbrev FollowsScript {α : Type} (env : LoadEnv Regs) (p : LoadM Regs α) (as : List LoadAction)
    (Q : α → Prop) : Prop := Follows (LoadAction.perform env) p as Q

theorem ofExcept_follows {α : Type} (x : Except LoadReturn α) :
    FollowsScript env (ofExcept x) (refusal x) (fun a => x = .ok a) := by
  cases x with
  | ok a => exact Mirrors.pure rfl
  | error e => exact Follows.single Mirrors.throw

theorem ofExcept_ok_bind {α β : Type} {a : α} {f : α → LoadM Regs β} :
    (ofExcept (.ok a) : LoadM Regs α) >>= f = f a := rfl

theorem refused_follows {α β : Type} {f : α → LoadM Regs β} {e : LoadReturn} {Q : β → Prop} :
    FollowsScript env (ofExcept (.error e) >>= f) [.refuse e] Q :=
  have hthrow : (ofExcept (.error e) : LoadM Regs α) >>= f = throw e := rfl
  hthrow ▸ Follows.single Mirrors.throw

theorem loadThread_mirrors (file : MachFile) (tcp : Word) (result : LoadResult) :
    Mirrors (loadThread env file tcp result)
      (LoadAction.perform env (.thread file tcp (result.threadCount = 0))) (fun r => r.threadCount ≠ 0) := by
  refine Mirrors.discard ?_
  unfold loadThread
  by_cases hfirst : result.threadCount = 0
  · rw [if_pos hfirst, if_pos (by simp [LoadResult.sample, hfirst])]
    refine Mirrors.same (fun _ => Mirrors.same (fun _ => Mirrors.same (fun _ => ?_)))
    exact Mirrors.pure (Nat.succ_ne_zero _)
  · rw [if_neg hfirst, if_neg (by simp [LoadResult.sample, hfirst])]
    refine Mirrors.same (fun _ => Mirrors.same (fun _ => ?_))
    exact Mirrors.pure (Nat.succ_ne_zero _)

theorem loadUnixthread_mirrors (file : MachFile) (tcp : Word) (result : LoadResult) :
    Mirrors (loadUnixthread env file tcp result)
      (LoadAction.perform env (.unixthread file tcp (result.threadCount = 0)))
      (fun r => r.threadCount ≠ 0) := by
  refine Mirrors.discard ?_
  unfold loadUnixthread
  by_cases hfirst : result.threadCount = 0
  · rw [if_neg (not_not.mpr hfirst), if_neg (by simp [LoadResult.sample, hfirst])]
    refine Mirrors.same (fun _ => Mirrors.same (fun _ => Mirrors.same (fun _ => ?_)))
    exact Mirrors.pure (Nat.succ_ne_zero _)
  · rw [if_pos hfirst, if_pos (by simp [LoadResult.sample, hfirst])]
    exact Mirrors.throw

theorem loadSegment_mirrors (file : MachFile) (scp : Word) (map : ℕ) (result : LoadResult) :
    Mirrors (loadSegment env file scp map result) (LoadAction.perform env (.segment file scp map))
      (fun r => r.threadCount = result.threadCount) := by
  refine Mirrors.discard ?_
  unfold loadSegment
  simp only
  split
  · exact Mirrors.throw
  split
  · exact Mirrors.throw
  split
  · exact Mirrors.pure rfl
  refine Mirrors.same (fun s => ?_)
  split
  · exact Mirrors.throw
  · refine Mirrors.same (fun _ => Mirrors.same (fun _ => Mirrors.pure ?_))
    split <;> rfl

theorem copyDylinker_mirrors (map : ℕ) (entryPoint : Word) :
    Mirrors (copyDylinker env map entryPoint) (LoadAction.perform env (.copyDylinker map))
      (fun _ => True) := by
  refine Mirrors.discard ?_
  unfold copyDylinker
  refine Mirrors.same (fun s => ?_)
  split
  · simp only
    split
    · exact Mirrors.same (fun _ => Mirrors.same (fun _ => Mirrors.pure trivial))
    · split
      · exact Mirrors.same (fun _ => Mirrors.same (fun _ => Mirrors.pure trivial))
      · exact Mirrors.throw
  · exact Mirrors.throw

/-- The parser of one more level follows its script. -/
def ParseFollows (env : LoadEnv Regs) (parse : Parse Regs) (script : ParseScript) : Prop :=
  ∀ file map depth libVersion, FollowsScript env (parse file map depth libVersion .zero)
    (script file map depth libVersion).1 (fun r => r.2 = (script file map depth libVersion).2)

section commands
variable {parse : Parse Regs} {script : ParseScript} (hparse : ParseFollows env parse script)
include hparse

theorem loadFvmlib_follows (file : MachFile) (lcp : Word) (map depth : ℕ) :
    FollowsScript env (loadFvmlib env parse file lcp map depth)
      (fvmlibScript env script file lcp map depth) (fun _ => True) := by
  have hnamed : loadFvmlib env parse file lcp map depth = ofExcept (namedFile env file lcp) >>=
      fun lib => parse lib map depth (some env.unset) .zero >>= fun r =>
        if r.2.getD env.unset < file.minorVersion lcp then throw .shlib else pure () := by
    unfold loadFvmlib namedFile
    cases file.name lcp <;> rfl
  rw [hnamed, fvmlibScript]
  cases namedFile env file lcp with
  | error e => exact refused_follows
  | ok lib =>
    rw [ofExcept_ok_bind]
    refine Follows.append (hparse lib map depth (some env.unset)) ?_
    intro r hr
    rw [hr]
    split_ifs
    · exact Follows.single Mirrors.throw
    · exact Mirrors.pure trivial

theorem loadDylinker_follows (file : MachFile) (lcp : Word) (map depth : ℕ) (result : LoadResult) :
    FollowsScript env (loadDylinker env parse file lcp map depth result)
      (dylinkerScript env script file lcp map depth) (fun r => r.threadCount = result.threadCount) := by
  have hnamed : loadDylinker env parse file lcp map depth result = ofExcept (namedFile env file lcp) >>=
      fun dylinker => setMap (map + 1) [] >>= fun _ =>
        parse dylinker (map + 1) depth none .zero >>= fun r =>
          copyDylinker env map r.1.entryPoint >>= fun entryPoint =>
            pure { result with dynlinker := true, entryPoint := entryPoint } := by
    unfold loadDylinker namedFile
    cases file.name lcp <;> rfl
  rw [hnamed, dylinkerScript]
  cases namedFile env file lcp with
  | error e => exact refused_follows
  | ok dylinker =>
    have hnew : FollowsScript env (setMap (map + 1) []) [.newMap (map + 1)] (fun _ => True) :=
      Follows.single Mirrors.refl
    rw [ofExcept_ok_bind]
    refine hnew.append (fun _ _ => Follows.append (hparse dylinker (map + 1) depth none) ?_)
    intro r _
    have hcopy : FollowsScript env (copyDylinker env map r.1.entryPoint) [.copyDylinker map]
        (fun _ => True) := Follows.single (copyDylinker_mirrors map r.1.entryPoint)
    rw [← List.append_nil [LoadAction.copyDylinker map]]
    exact hcopy.append (fun _ _ => Mirrors.pure rfl)

theorem loadDlp_follows (file : MachFile) (map depth : ℕ) (st : Parsed) :
    FollowsScript env (loadDlp env parse file map depth st)
      (dlpScript env script file map depth st.planned)
      (fun r => r.threadCount = st.result.threadCount) := by
  unfold loadDlp dlpScript Parsed.planned
  cases st.dlp with
  | none => exact Mirrors.pure rfl
  | some dlp => exact loadDylinker_follows hparse file dlp map depth st.result

theorem loadCommand_follows (file : MachFile) (map depth : ℕ) (pass : Pass) (lcp : Word) (st : Parsed) :
    FollowsScript env (loadCommand env parse file map depth pass lcp st)
      (commandScript env script file map depth pass lcp st.planned).1
      (fun st' => st'.planned = (commandScript env script file map depth pass lcp st.planned).2) := by
  unfold loadCommand commandScript
  cases pass with
  | first =>
    cases file.cmd lcp with
    | segment =>
      refine Follows.append_nil (Follows.single (loadSegment_mirrors file lcp map st.result)) ?_
      intro result hresult
      exact Mirrors.pure (by simp [Parsed.planned, hresult])
    | loadfvmlib =>
      exact Follows.append_nil (loadFvmlib_follows hparse file lcp map depth) (fun _ _ => Mirrors.pure rfl)
    | _ => exact Mirrors.pure rfl
  | second =>
    cases file.cmd lcp with
    | thread =>
      have hfirst : (!st.planned.threads) = decide (st.result.threadCount = 0) := by
        simp [Parsed.planned]
      rw [hfirst]
      refine Follows.append_nil (Follows.single (loadThread_mirrors file lcp st.result)) ?_
      intro result hresult
      exact Mirrors.pure (by simp [Parsed.planned, hresult])
    | unixthread =>
      have hfirst : (!st.planned.threads) = decide (st.result.threadCount = 0) := by
        simp [Parsed.planned]
      rw [hfirst]
      refine Follows.append_nil (Follows.single (loadUnixthread_mirrors file lcp st.result)) ?_
      intro result hresult
      exact Mirrors.pure (by simp [Parsed.planned, hresult])
    | loadDylinker =>
      have hdlp : st.planned.dlp = st.dlp := rfl
      simp only [hdlp]
      by_cases htaken : depth = 1 ∨ st.dlp = none
      · rw [if_pos htaken, if_pos htaken]
        exact Mirrors.pure rfl
      · rw [if_neg htaken, if_neg htaken]
        exact Follows.single Mirrors.throw
    | _ => exact Mirrors.pure rfl

omit hparse in
theorem loadCommands_follows {body : Word → Parsed → LoadM Regs Parsed}
    {bodyScript : Word → Planned → List LoadAction × Planned} (file : MachFile)
    (hbody : ∀ lcp st, FollowsScript env (body lcp st) (bodyScript lcp st.planned).1
      (fun st' => st'.planned = (bodyScript lcp st.planned).2)) (ncmds : ℕ) :
    ∀ offset st, FollowsScript env (loadCommands body file ncmds offset st)
      (commandsScript bodyScript file ncmds offset st.planned).1
      (fun st' => st'.planned = (commandsScript bodyScript file ncmds offset st.planned).2) := by
  induction ncmds with
  | zero => exact fun _ _ => Mirrors.pure rfl
  | succ ncmds ih =>
    intro offset st
    simp only [loadCommands, commandsScript]
    split_ifs
    · exact Follows.single Mirrors.throw
    · refine Follows.append (hbody _ st) ?_
      intro st' hst'
      rw [← hst']
      exact ih _ st'

end commands

theorem parseMachfile_follows (left : ℕ) : ParseFollows env (parseMachfile env left) (parseScript env left) := by
  induction left with
  | zero => exact fun _ _ _ _ => Follows.single Mirrors.throw
  | succ left ih =>
    intro file map depth libVersion
    simp only [parseMachfile, parseScript]
    refine (ofExcept_follows _).append (fun _ _ => (ofExcept_follows _).append (fun _ _ => ?_))
    have hmap : FollowsScript env (operation .nospace) [.mapCommands] (fun _ => True) :=
      Follows.single Mirrors.refl
    refine hmap.append (fun _ _ => ?_)
    have hpass := fun pass =>
      loadCommands_follows file (loadCommand_follows ih file map (depth + 1) pass) file.header.ncmds.toNat
        headerSize
    refine (hpass .first ⟨.zero, libVersion, none⟩).append ?_
    intro first hfirst
    have hplanned : (Parsed.mk .zero libVersion none).planned = ⟨false, libVersion, none⟩ := rfl
    rw [hplanned] at hfirst
    rw [← hfirst]
    refine (hpass .second first).append ?_
    intro second hsecond
    rw [← hsecond]
    refine (loadDlp_follows ih file map (depth + 1) second).append ?_
    intro result hresult
    have hcount : (depth + 1 = 1 ∧ result.threadCount = 0) ↔
        depth + 1 = 1 ∧ second.planned.threads = false := by
      simp [Parsed.planned, hresult]
    by_cases hnone : depth + 1 = 1 ∧ result.threadCount = 0
    · rw [if_pos hnone, if_pos (hcount.mp hnone)]
      exact Follows.single Mirrors.throw
    · rw [if_neg hnone, if_neg (hcount.not.mp hnone)]
      exact Mirrors.pure rfl

theorem loadMachfile_follows (file : MachFile) :
    FollowsScript env (setMap 1 [] >>= fun _ => parseMachfile env 7 file 1 0 none .zero)
      (loadScript env file) (fun _ => True) := by
  have hnew : FollowsScript env (setMap 1 []) [.newMap 1] (fun _ => True) := Follows.single Mirrors.refl
  exact hnew.append (fun _ _ => (parseMachfile_follows 7 file 1 0 none).conseq (fun _ _ => trivial))

theorem loadMachfile_error {file : MachFile} {s s' : Io (Maps × Task Regs)} {e : LoadReturn} :
    (loadMachfile env file).run s = .error e s' ↔
      (exec (LoadAction.perform env) (loadScript env file)).run s = .error e s' := by
  have hfollows : FollowsScript env _ _ _ := loadMachfile_follows file
  have hcommit : loadMachfile env file =
      (setMap 1 [] >>= fun _ => parseMachfile env 7 file 1 0 none .zero) >>= fun r =>
        current >>= fun s => setMap 0 (s.1 1) >>= fun _ => pure r.1 := rfl
  rw [hcommit]
  constructor
  · intro h
    cases hrun : (setMap 1 [] >>= fun _ => parseMachfile env 7 file 1 0 none .zero).run s with
    | ok r t =>
      rw [bind_ok hrun] at h
      cases h
    | error e' t =>
      rw [bind_error hrun] at h
      cases h
      exact hfollows.of_error hrun
  · exact fun h => bind_error (hfollows.error s e s' h)

end

end Darwin.Kern
