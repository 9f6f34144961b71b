import Darwin.Lib.Fallible
import Mathlib.Data.BitVec

/-! # The Mach-O loader

`load_machfile` builds a new map from the commands of a file, and of the libraries and the dynamic
linker that they name. A map is the list of its allocated ranges. Map 0 is the calling task's, map 1 the new
one, and each dynamic linker has the next one while it is loaded.

What a call outside of the loader may refuse (an allocation in the kernel's map, a mapping of the
file, a copy, a new thread) is an operation.
-/
namespace Darwin.Kern
open Darwin.Lib

abbrev Word := BitVec 32

/-- The errors that a load returns. `errno` is one from the file system; a load that never returns
has `never`. -/
inductive LoadReturn where
  | badarch
  | badmacho
  | shlib
  | failure
  | nospace
  | resource
  | errno (error : ℕ)
  | never
  deriving DecidableEq, Repr

/-- `struct mach_header`. -/
structure MachHeader where
  cputype : Word
  cpusubtype : Word
  filetype : Word
  ncmds : Word
  sizeofcmds : Word

/-- A file with its header. Its commands are seen at `addr` behind the header, when they have been
mapped. -/
structure MachFile where
  header : MachHeader
  addr : Word
  byte : Word → BitVec 8
  long : Word → Word
  fileOffset : Word
  machoSize : Word
  vnodeSize : Word

/-- What the loader calls: the machine's part, the file system, and the search of a map for free
space. The status of a thread is what it was with the new parts in place. -/
structure LoadEnv (Regs : Type) where
  cpuType : Word
  checkCpuSubtype : Word → Bool
  threadSetstatus : Word → List Word → Option (Regs → Regs)
  threadUserstack : Word → List Word → Word → Option Word
  threadEntrypoint : Word → List Word → Word → Option Word
  newThread : Regs
  getMachoVnode : List (BitVec 8) → Except LoadReturn MachFile
  findSpace : List (Word × Word) → Word → Word → Option Word
  minOffset : Word
  maxOffset : Word
  /-- What a local variable holds that is not set. -/
  unset : Word
  /-- How many statuses a thread command may have at most before it is called endless. -/
  turns : ℕ

/-- `load_result_t`. -/
structure LoadResult where
  machHeader : Word
  entryPoint : Word
  userStack : Word
  threadCount : ℕ
  unixproc : Bool
  dynlinker : Bool
  deriving DecidableEq, Repr

def LoadResult.zero : LoadResult := ⟨0, 0, 0, 0, false, false⟩

abbrev Maps := ℕ → List (Word × Word)

/-- The calling task, whose map is map 0: the registers of the current thread, and those of its
others. -/
structure Task (Regs : Type) where
  regs : Regs
  threads : List Regs

abbrev LoadM (Regs : Type) := IoM LoadReturn (Maps × Task Regs)

section
variable {Regs : Type} {α : Type}

/-! ## Maps and the thread that is loaded -/

def setMap (map : ℕ) (ranges : List (Word × Word)) : LoadM Regs Unit :=
  IoM.update (fun s => (Function.update s.1 map ranges, s.2))

/-- A new range, in the order of addresses. -/
def insertRange (range : Word × Word) : List (Word × Word) → List (Word × Word)
  | [] => [range]
  | r :: rest => if range.1 < r.1 then range :: r :: rest else r :: insertRange range rest

/-- `vm_map_find` at a fixed address. -/
def vmMapFind (env : LoadEnv Regs) (ranges : List (Word × Word)) (start length : Word) :
    Option (List (Word × Word)) :=
  let stop := start + length
  if start < env.minOffset ∨ env.maxOffset < stop ∨ stop ≤ start then none
  else if ranges.any (fun r => r.1 < stop ∧ start < r.2) then none
  else some (insertRange (start, stop) ranges)

def ofExcept : Except LoadReturn α → LoadM Regs α
  | .ok a => pure a
  | .error e => throw e

/-- The current thread gets a new status, of which the last part may be refused. -/
def onCurrent (f : Regs → Except LoadReturn Unit × Regs) : LoadM Regs Unit := do
  let s ← current
  IoM.update (fun s => (s.1, { s.2 with regs := (f s.2.regs).2 }))
  ofExcept (f s.2.regs).1

/-- So does a thread that has just been created. -/
def onCreated (new : Regs) (f : Regs → Except LoadReturn Unit × Regs) : LoadM Regs Unit := do
  IoM.update (fun s => (s.1, { s.2 with threads := s.2.threads ++ [(f new).2] }))
  ofExcept (f new).1

/-! ## Pages -/

def pageSize : Word := 4096

def roundPage (x : Word) : Word := (x + (pageSize - 1)) &&& ~~~(pageSize - 1)

def truncPage (x : Word) : Word := x &&& ~~~(pageSize - 1)

/-! ## Commands -/

/-- The commands that are not ignored. -/
inductive LoadCommand where
  | segment
  | thread
  | unixthread
  | loadfvmlib
  | idfvmlib
  | loadDylinker
  | other
  deriving DecidableEq, Repr

namespace MachFile
variable (file : MachFile)

def cmd (lcp : Word) : LoadCommand :=
  match (file.long lcp).toNat with
  | 1 => .segment
  | 4 => .thread
  | 5 => .unixthread
  | 6 => .loadfvmlib
  | 7 => .idfvmlib
  | 14 => .loadDylinker
  | _ => .other

def cmdsize (lcp : Word) : Word := file.long (lcp + 4)

/-- The loop that looks for the end of the string before the end of the command. -/
def stringFrom (limit : Word) : ℕ → Word → Option (List (BitVec 8))
  | 0, _ => none
  | n + 1, p =>
    if limit ≤ p then none
    else if file.byte p = 0 then some []
    else (stringFrom limit n (p + 1)).map (file.byte p :: ·)

/-- The name of a library or dynamic linker, if the command has all of it. -/
def name (lcp : Word) : Option (List (BitVec 8)) :=
  let limit := lcp + file.cmdsize lcp
  file.stringFrom limit (limit.toNat + 1) (lcp + file.long (lcp + 8))

def minorVersion (lcp : Word) : Word := file.long (lcp + 12)

/-- The longs of a status. -/
def longs (ts size : Word) : List Word :=
  (List.range size.toNat).map (fun i => file.long (ts + 4 * BitVec.ofNat 32 i))

/-- The loop of `load_threadstate`, `load_threadstack` and `load_threadentry`. The size is
unsigned, so that a status behind the end of the command is not noticed. -/
def forStatuses (call : Word → List Word → α → Option α) : ℕ → Word → Word → α → Except LoadReturn Unit × α
  | 0, _, _, a => (.error .never, a)
  | n + 1, ts, totalSize, a =>
    if totalSize = 0 then (.ok (), a)
    else
      let flavor := file.long ts
      let size := file.long (ts + 4)
      match call flavor (file.longs (ts + 8) size) a with
      | none => (.error .failure, a)
      | some a => forStatuses call n (ts + 8 + 4 * size) (totalSize - (size + 2) * 4) a

end MachFile

/-- Where the statuses of a thread command start, and how long they are. -/
def MachFile.statuses (file : MachFile) (tcp : Word) : Word × Word := (tcp + 8, file.cmdsize tcp - 8)

def loadThreadstate (env : LoadEnv Regs) (file : MachFile) (tcp : Word) (thread : Regs) :
    Except LoadReturn Unit × Regs :=
  file.forStatuses (fun flavor ts thread => (env.threadSetstatus flavor ts).map (fun set => set thread))
    env.turns (file.statuses tcp).1 (file.statuses tcp).2 thread

def loadThreadstack (env : LoadEnv Regs) (file : MachFile) (tcp : Word) : Except LoadReturn Word :=
  let r := file.forStatuses env.threadUserstack env.turns (file.statuses tcp).1 (file.statuses tcp).2 0
  r.1.map (fun _ => r.2)

def loadThreadentry (env : LoadEnv Regs) (file : MachFile) (tcp : Word) : Except LoadReturn Word :=
  let r := file.forStatuses env.threadEntrypoint env.turns (file.statuses tcp).1 (file.statuses tcp).2 0
  r.1.map (fun _ => r.2)

def loadUnixthread (env : LoadEnv Regs) (file : MachFile) (tcp : Word) (result : LoadResult) :
    LoadM Regs LoadResult :=
  if result.threadCount ≠ 0 then throw .failure
  else do
    let userStack ← ofExcept (loadThreadstack env file tcp)
    let entryPoint ← ofExcept (loadThreadentry env file tcp)
    onCurrent (loadThreadstate env file tcp)
    pure { result with
      userStack := userStack
      entryPoint := entryPoint
      unixproc := true
      threadCount := result.threadCount + 1 }

def loadThread (env : LoadEnv Regs) (file : MachFile) (tcp : Word) (result : LoadResult) :
    LoadM Regs LoadResult :=
  if result.threadCount = 0 then do
    onCurrent (loadThreadstate env file tcp)
    let userStack ← ofExcept (loadThreadstack env file tcp)
    let entryPoint ← ofExcept (loadThreadentry env file tcp)
    pure { result with
      userStack := userStack
      entryPoint := entryPoint
      threadCount := result.threadCount + 1 }
  else do
    operation .resource
    onCreated env.newThread (loadThreadstate env file tcp)
    pure { result with threadCount := result.threadCount + 1 }

/-- The segment's pages are copied into the map; the last one goes through the kernel's map when it
has to be filled up with zeros. -/
def copySegment (file : MachFile) (fileoff filesize : Word) : LoadM Regs Unit := do
  let copysize := roundPage filesize
  let copyoffset := fileoff + file.fileOffset
  if copysize.msb then throw .badmacho
  else if copysize = 0 then pure ()
  else
    operation .nospace
    if copysize ≠ filesize ∧ (file.vnodeSize = 0 ∨ copyoffset + filesize ≠ file.vnodeSize) then
      operation .nospace
      operation .failure
      operation .failure
      operation .failure
    else operation .failure

def loadSegment (env : LoadEnv Regs) (file : MachFile) (scp : Word) (map : ℕ) (result : LoadResult) :
    LoadM Regs LoadResult := do
  let vmaddr := file.long (scp + 24)
  let fileoff := file.long (scp + 32)
  let filesize := file.long (scp + 36)
  let vmsize := roundPage (file.long (scp + 28))
  if file.machoSize < fileoff + filesize then throw .badmacho
  else if vmsize.msb then throw .badmacho
  else if vmsize = 0 then pure result
  else
    let destAddr := truncPage vmaddr
    let s ← current
    match vmMapFind env (s.1 map) destAddr vmsize with
    | none => throw .nospace
    | some ranges =>
      setMap map ranges
      copySegment file fileoff filesize
      pure (if fileoff = 0 ∧ filesize ≠ 0 then { result with machHeader := destAddr } else result)

/-! ## Files -/

/-- `parse_machfile` for another file: its map, its depth, the place for its version, and the
result to fill in. -/
abbrev Parse (Regs : Type) :=
  MachFile → ℕ → ℕ → Option Word → LoadResult → LoadM Regs (LoadResult × Option Word)

def loadFvmlib (env : LoadEnv Regs) (parse : Parse Regs) (file : MachFile) (lcp : Word) (map depth : ℕ) :
    LoadM Regs Unit :=
  match file.name lcp with
  | none => throw .badmacho
  | some name => do
    let lib ← ofExcept (env.getMachoVnode name)
    let r ← parse lib map depth (some env.unset) .zero
    if r.2.getD env.unset < file.minorVersion lcp then throw .shlib else pure ()

/-- The dynamic linker's map is copied into the map, at the same addresses or, if they are taken,
at others. -/
def copyDylinker (env : LoadEnv Regs) (map : ℕ) (entryPoint : Word) : LoadM Regs Word := do
  let s ← current
  match (s.1 (map + 1)).head?, (s.1 (map + 1)).getLast? with
  | some first, some last =>
    let dylStart := first.1
    let dylLength := last.2 - dylStart
    match vmMapFind env (s.1 map) dylStart dylLength with
    | some ranges => do
      setMap map ranges
      operation .nospace
      pure entryPoint
    | none =>
      match env.findSpace (s.1 map) dylStart dylLength with
      | some mapAddr => do
        setMap map (insertRange (mapAddr, mapAddr + dylLength) (s.1 map))
        operation .nospace
        pure (entryPoint + (mapAddr - dylStart))
      | none => throw .nospace
  | _, _ => throw .failure

def loadDylinker (env : LoadEnv Regs) (parse : Parse Regs) (file : MachFile) (lcp : Word) (map depth : ℕ)
    (result : LoadResult) : LoadM Regs LoadResult :=
  match file.name lcp with
  | none => throw .badmacho
  | some name => do
    let dylinker ← ofExcept (env.getMachoVnode name)
    setMap (map + 1) []
    let r ← parse dylinker (map + 1) depth none .zero
    let entryPoint ← copyDylinker env map r.1.entryPoint
    pure { result with dynlinker := true, entryPoint := entryPoint }

/-- What the commands of a file have left so far. -/
structure Parsed where
  result : LoadResult
  libVersion : Option Word
  dlp : Option Word

inductive Pass where
  | first
  | second
  deriving DecidableEq, Repr

/-- One command. -/
def loadCommand (env : LoadEnv Regs) (parse : Parse Regs) (file : MachFile) (map depth : ℕ) (pass : Pass)
    (lcp : Word) (st : Parsed) : LoadM Regs Parsed :=
  match pass, file.cmd lcp with
  | .first, .segment => do
    let result ← loadSegment env file lcp map st.result
    pure { st with result := result }
  | .second, .thread => do
    let result ← loadThread env file lcp st.result
    pure { st with result := result }
  | .second, .unixthread => do
    let result ← loadUnixthread env file lcp st.result
    pure { st with result := result }
  | .first, .loadfvmlib => do
    loadFvmlib env parse file lcp map depth
    pure st
  | .first, .idfvmlib => pure { st with libVersion := st.libVersion.map (fun _ => file.minorVersion lcp) }
  | .second, .loadDylinker =>
    if depth = 1 ∨ st.dlp = none then pure { st with dlp := some lcp } else throw .failure
  | _, _ => pure st

/-- The size of `struct mach_header`. -/
def headerSize : Word := 28

/-- One pass over the commands. -/
def loadCommands (body : Word → Parsed → LoadM Regs Parsed) (file : MachFile) : ℕ → Word → Parsed →
    LoadM Regs Parsed
  | 0, _, st => pure st
  | ncmds + 1, offset, st =>
    let lcp := file.addr + offset
    let offset := offset + file.cmdsize lcp
    if file.header.sizeofcmds + headerSize < offset then throw .badmacho
    else do
      let st ← body lcp st
      loadCommands body file ncmds offset st

/-- The checks of the header, at a depth that counts the file. -/
def checkHeader (env : LoadEnv Regs) (header : MachHeader) (depth : ℕ) : Except LoadReturn Unit :=
  if header.cputype ≠ env.cpuType ∨ env.checkCpuSubtype header.cpusubtype = false then .error .badarch
  else
    match header.filetype.toNat with
    | 1 | 2 | 5 => if depth ≠ 1 then .error .failure else .ok ()
    | 3 | 6 => if depth = 1 then .error .failure else .ok ()
    | 7 => if depth ≠ 2 then .error .failure else .ok ()
    | _ => .error .failure

/-- The checks of the size of the commands. -/
def checkSize (file : MachFile) : Except LoadReturn Unit :=
  if file.machoSize < headerSize + file.header.sizeofcmds then .error .badmacho
  else if roundPage (headerSize + file.header.sizeofcmds) = 0 then .error .badmacho
  else .ok ()

/-- The dynamic linker is loaded behind the last pass. -/
def loadDlp (env : LoadEnv Regs) (parse : Parse Regs) (file : MachFile) (map depth : ℕ) (st : Parsed) :
    LoadM Regs LoadResult :=
  match st.dlp with
  | none => pure st.result
  | some dlp => loadDylinker env parse file dlp map depth st.result

/-- The first argument is how many files deep a load may still go; it starts with 7. -/
def parseMachfile (env : LoadEnv Regs) : ℕ → Parse Regs
  | 0 => fun _ _ _ _ _ => throw .failure
  | left + 1 => fun file map depth libVersion result => do
    let depth := depth + 1
    ofExcept (checkHeader env file.header depth)
    ofExcept (checkSize file)
    operation .nospace
    let body := loadCommand env (parseMachfile env left) file map depth
    let ncmds := file.header.ncmds.toNat
    let st ← loadCommands (body .first) file ncmds headerSize ⟨result, libVersion, none⟩
    let st ← loadCommands (body .second) file ncmds headerSize st
    let result ← loadDlp env (parseMachfile env left) file map depth st
    if depth = 1 ∧ result.threadCount = 0 then throw .failure
    else pure (result, st.libVersion)

/-- `load_machfile`, which commits to the new map at its end. -/
def loadMachfile (env : LoadEnv Regs) (file : MachFile) : LoadM Regs LoadResult := do
  setMap 1 []
  let r ← parseMachfile env 7 file 1 0 none .zero
  let s ← current
  setMap 0 (s.1 1)
  pure r.1

end

end Darwin.Kern
