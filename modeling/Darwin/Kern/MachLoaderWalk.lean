import Darwin.Kern.MachLoaderFailure

/-! # The walk over the load commands

`parse_machfile` adds the declared sizes up and checks each sum against the end of the commands. It
does not notice a sum that wraps back below them, nor a command that begins too near their end for
what its handler reads, and a name is checked against the end of its command only.
-/
namespace Darwin.Kern
open Darwin.Lib List

theorem bind_returns {ε σ α β : Type} {m : IoM ε σ α} {f : α → IoM ε σ β} {s s' : Io σ} {b : β}
    (h : (m >>= f).run s = .ok b s') : ∃ a t, m.run s = .ok a t ∧ (f a).run t = .ok b s' := by
  cases hm : m.run s with
  | ok a t =>
    rw [bind_ok hm] at h
    exact ⟨a, t, rfl, h⟩
  | error e t =>
    rw [bind_error hm] at h
    cases h

/-- How far into its command a handler reads, apart from a name: to `initprot` of a segment, to
`minor_version` of a library, and to the offset of the name of a dynamic linker. -/
def LoadCommand.extent : LoadCommand → ℕ
  | .segment => 48
  | .loadfvmlib | .idfvmlib => 16
  | .loadDylinker => 12
  | .thread | .unixthread | .other => 8

namespace MachFile
variable (file : MachFile)

/-- The commands that a pass looks at; the sum of the sizes is checked behind each. -/
def walk : ℕ → Word → List Word
  | 0, _ => []
  | n + 1, offset =>
    let next := offset + file.cmdsize (file.addr + offset)
    (file.addr + offset) :: if file.header.sizeofcmds + headerSize < next then [] else walk n next

def commands : List Word := file.walk file.header.ncmds.toNat headerSize

/-- Where the `n`th command begins. -/
def commandAt : ℕ → Word
  | 0 => headerSize
  | n + 1 => commandAt n + file.cmdsize (file.addr + commandAt n)

/-- The commands whose name is read: those of libraries, and the last one of a dynamic linker. -/
def namesRead : List Word :=
  file.commands.filter (fun lcp => file.cmd lcp = .loadfvmlib) ++
    (file.commands.filter (fun lcp => file.cmd lcp = .loadDylinker)).getLast?.toList

def nameStart (lcp : Word) : Word := lcp + file.long (lcp + 8)

/-- The bytes lie behind the header and within the bytes of the commands. -/
def Within (a : Word) (n : ℕ) : Prop :=
  file.addr.toNat + headerSize.toNat ≤ a.toNat ∧
    a.toNat + n ≤ file.addr.toNat + headerSize.toNat + file.header.sizeofcmds.toNat

/-- Everything that is read of the commands is within them. -/
structure WalkConfined : Prop where
  fields : ∀ lcp ∈ file.commands, file.Within lcp (file.cmd lcp).extent
  names : ∀ lcp ∈ file.namesRead, ∀ s, file.name lcp = some s → file.Within (file.nameStart lcp) (s.length + 1)

/-- The declared sizes never lead back before the first command, each command has room for what its
handler reads, and the offset of a name does not lead back either. -/
structure SizesHold : Prop where
  forward : ∀ n < file.header.ncmds.toNat, headerSize ≤ file.commandAt n
  room : ∀ n < file.header.ncmds.toNat, (file.cmd (file.addr + file.commandAt n)).extent ≤
    headerSize.toNat + file.header.sizeofcmds.toNat - (file.commandAt n).toNat
  names : ∀ lcp ∈ file.namesRead, file.name lcp ≠ none →
    file.addr.toNat + headerSize.toNat ≤ (file.nameStart lcp).toNat

/-- The commands are in pages of the kernel's map, which ends before the last address. -/
def Mapped : Prop :=
  file.addr.toNat + max pageSize.toNat (headerSize + file.header.sizeofcmds).toNat < 2 ^ 32

end MachFile

section
variable {Regs : Type} {env : LoadEnv Regs} {file : MachFile}

/-! ## A pass that is accepted -/

/-- All sums that a pass makes are accepted. -/
def MachFile.Checked (file : MachFile) : ℕ → Word → Prop
  | 0, _ => True
  | n + 1, offset =>
    ¬ file.header.sizeofcmds + headerSize < offset + file.cmdsize (file.addr + offset) ∧
      file.Checked n (offset + file.cmdsize (file.addr + offset))

theorem loadCommands_returns {body : Word → Parsed → LoadM Regs Parsed} {n : ℕ} {offset : Word}
    {st st' : Parsed} {s s' : Io (Maps × Task Regs)}
    (h : (loadCommands body file n offset st).run s = .ok st' s') :
    file.Checked n offset ∧
      ((file.walk n offset).foldlM (fun st lcp => body lcp st) st).run s = .ok st' s' := by
  induction n generalizing offset st s with
  | zero => exact ⟨trivial, h⟩
  | succ n ih =>
    simp only [loadCommands] at h
    split_ifs at h with hcheck
    · cases h
    · obtain ⟨st₁, s₁, hbody, hrest⟩ := bind_returns h
      obtain ⟨hchecked, hfold⟩ := ih hrest
      refine ⟨⟨hcheck, hchecked⟩, ?_⟩
      simp only [MachFile.walk, if_neg hcheck, foldlM_cons]
      rw [bind_ok hbody]
      exact hfold

theorem walk_checked {n i : ℕ} (h : file.Checked n (file.commandAt i)) :
    file.walk n (file.commandAt i) = (List.range' i n).map (fun j => file.addr + file.commandAt j) := by
  induction n generalizing i with
  | zero => rfl
  | succ n ih =>
    obtain ⟨hcheck, hrest⟩ := h
    have hnext := @ih (i + 1) hrest
    simp only [MachFile.walk, if_neg hcheck, List.range'_succ, map_cons]
    exact congrArg _ hnext

theorem Checked.next {n i j : ℕ} (h : file.Checked n (file.commandAt i)) (hi : i ≤ j) (hj : j < i + n) :
    file.commandAt (j + 1) ≤ headerSize + file.header.sizeofcmds := by
  induction n generalizing i with
  | zero => omega
  | succ n ih =>
    obtain ⟨hcheck, hrest⟩ := h
    by_cases heq : i = j
    · subst heq
      rw [BitVec.add_comm]
      exact BitVec.not_lt.mp hcheck
    · exact @ih (i + 1) hrest (by omega) (by omega)

theorem MachFile.commands_checked (h : file.Checked file.header.ncmds.toNat headerSize) :
    file.commands = (List.range file.header.ncmds.toNat).map (fun n => file.addr + file.commandAt n) := by
  rw [range_eq_range']
  exact walk_checked (i := 0) h

theorem commandAt_le (h : file.Checked file.header.ncmds.toNat headerSize) {n : ℕ}
    (hn : n ≤ file.header.ncmds.toNat) :
    (file.commandAt n).toNat ≤ max pageSize.toNat (headerSize + file.header.sizeofcmds).toNat := by
  cases n with
  | zero => exact le_max_of_le_left (by decide : headerSize.toNat ≤ pageSize.toNat)
  | succ n =>
    have hnext : file.commandAt (n + 1) ≤ headerSize + file.header.sizeofcmds :=
      @Checked.next file _ 0 n h (by omega) (by omega)
    exact le_max_of_le_right hnext

theorem MachFile.Mapped.address (hmapped : file.Mapped) {offset : Word}
    (hle : offset.toNat ≤ max pageSize.toNat (headerSize + file.header.sizeofcmds).toNat) :
    (file.addr + offset).toNat = file.addr.toNat + offset.toNat := by
  rw [BitVec.toNat_add]
  exact Nat.mod_eq_of_lt (lt_of_le_of_lt (Nat.add_le_add_left hle _) hmapped)

theorem stringFrom_end {limit p : Word} {n : ℕ} {s : List (BitVec 8)}
    (h : file.stringFrom limit n p = some s) : p.toNat + s.length < limit.toNat := by
  induction n generalizing p s with
  | zero => cases h
  | succ n ih =>
    rw [MachFile.stringFrom] at h
    split_ifs at h with hend hnul
    · cases h
      exact BitVec.not_le.mp hend
    · obtain ⟨rest, hrest, rfl⟩ := Option.map_eq_some_iff.mp h
      have hlt := ih hrest
      have hp : p.toNat < limit.toNat := BitVec.not_le.mp hend
      have hsucc : (p + 1).toNat = p.toNat + 1 := by
        have hlimit := limit.isLt
        bv_omega
      rw [length_cons]
      omega

theorem LoadCommand.extent_pos (cmd : LoadCommand) : 0 < cmd.extent := by
  cases cmd <;> decide

theorem namesRead_subset {lcp : Word} (h : lcp ∈ file.namesRead) : lcp ∈ file.commands := by
  rcases mem_append.mp h with h | h
  · exact (mem_filter.mp h).1
  · exact (mem_filter.mp (mem_of_getLast? (Option.mem_toList.mp h))).1

theorem MachFile.walkConfined_iff (hmapped : file.Mapped)
    (h : file.Checked file.header.ncmds.toNat headerSize) : file.WalkConfined ↔ file.SizesHold := by
  have haddress : ∀ n ≤ file.header.ncmds.toNat,
      (file.addr + file.commandAt n).toNat = file.addr.toNat + (file.commandAt n).toNat :=
    fun n hn => hmapped.address (commandAt_le h hn)
  have hmem : ∀ lcp, lcp ∈ file.commands ↔
      ∃ n < file.header.ncmds.toNat, file.addr + file.commandAt n = lcp := by
    intro lcp
    rw [MachFile.commands_checked h, mem_map]
    simp only [mem_range]
  have hfields : (∀ lcp ∈ file.commands, file.Within lcp (file.cmd lcp).extent) ↔
      ∀ n < file.header.ncmds.toNat, headerSize ≤ file.commandAt n ∧
        (file.cmd (file.addr + file.commandAt n)).extent ≤
          headerSize.toNat + file.header.sizeofcmds.toNat - (file.commandAt n).toNat := by
    have hone : ∀ n < file.header.ncmds.toNat,
        (file.Within (file.addr + file.commandAt n) (file.cmd (file.addr + file.commandAt n)).extent ↔
          headerSize ≤ file.commandAt n ∧ (file.cmd (file.addr + file.commandAt n)).extent ≤
            headerSize.toNat + file.header.sizeofcmds.toNat - (file.commandAt n).toNat) := by
      intro n hn
      have hpos := (file.cmd (file.addr + file.commandAt n)).extent_pos
      rw [MachFile.Within, haddress n hn.le, BitVec.le_def]
      omega
    constructor
    · exact fun hall n hn => (hone n hn).mp (hall _ ((hmem _).mpr ⟨n, hn, rfl⟩))
    · intro hall lcp hlcp
      obtain ⟨n, hn, rfl⟩ := (hmem lcp).mp hlcp
      exact (hone n hn).mpr (hall n hn)
  have hnames : ∀ lcp ∈ file.namesRead, ∀ s, file.name lcp = some s →
      (file.Within (file.nameStart lcp) (s.length + 1) ↔
        file.addr.toNat + headerSize.toNat ≤ (file.nameStart lcp).toNat) := by
    intro lcp hlcp s hs
    obtain ⟨n, hn, rfl⟩ := (hmem lcp).mp (namesRead_subset hlcp)
    have hend := stringFrom_end hs
    have hlimit := haddress (n + 1) hn
    have hnext : file.commandAt (n + 1) ≤ headerSize + file.header.sizeofcmds :=
      @Checked.next file _ 0 n h (by omega) (by omega)
    rw [MachFile.commandAt, ← BitVec.add_assoc] at hlimit
    rw [hlimit] at hend
    have hwrap : (headerSize + file.header.sizeofcmds).toNat ≤
        headerSize.toNat + file.header.sizeofcmds.toNat := by
      rw [BitVec.toNat_add]
      exact Nat.mod_le _ _
    rw [BitVec.le_def, MachFile.commandAt] at hnext
    refine and_iff_left ?_
    change (file.nameStart (file.addr + file.commandAt n)).toNat + s.length < _ at hend
    omega
  constructor
  · intro hconfined
    have hall := hfields.mp hconfined.fields
    refine ⟨fun n hn => (hall n hn).1, fun n hn => (hall n hn).2, ?_⟩
    intro lcp hlcp hne
    obtain ⟨s, hs⟩ := Option.ne_none_iff_exists'.mp hne
    exact (hnames lcp hlcp s hs).mp (hconfined.names lcp hlcp s hs)
  · intro hsizes
    refine ⟨hfields.mpr fun n hn => ⟨hsizes.forward n hn, hsizes.room n hn⟩, ?_⟩
    intro lcp hlcp s hs
    exact (hnames lcp hlcp s hs).mpr (hsizes.names lcp hlcp (by rw [hs]; exact Option.some_ne_none s))

theorem ofExcept_returns {α : Type} {x : Except LoadReturn α} {a : α} {s s' : Io (Maps × Task Regs)}
    (h : (ofExcept x : LoadM Regs α).run s = .ok a s') : s' = s := by
  cases x with
  | ok a' =>
    cases h
    rfl
  | error e => cases h

/-- Of a file that is accepted, each of the two passes takes the same commands in the same order, as
many as are counted, and all that is read of them is within their bytes just when the sizes hold. -/
theorem walk_confined_iff {left map depth : ℕ} {libVersion : Option Word} {result : LoadResult}
    {r : LoadResult × Option Word} {s s' : Io (Maps × Task Regs)} (hmapped : file.Mapped)
    (haccept : (parseMachfile env (left + 1) file map depth libVersion result).run s = .ok r s') :
    file.commands.length = file.header.ncmds.toNat ∧
    (∃ first second s₁ s₂ s₃ last, (operation .nospace : LoadM Regs Unit).run s = .ok () s₁ ∧
      (file.commands.foldlM (fun st lcp => loadCommand env (parseMachfile env left) file map (depth + 1)
        .first lcp st) ⟨result, libVersion, none⟩).run s₁ = .ok first s₂ ∧
      (file.commands.foldlM (fun st lcp => loadCommand env (parseMachfile env left) file map (depth + 1)
        .second lcp st) first).run s₂ = .ok second s₃ ∧
      (loadDlp env (parseMachfile env left) file map (depth + 1) second).run s₃ = .ok last s') ∧
    (file.WalkConfined ↔ file.SizesHold) := by
  simp only [parseMachfile] at haccept
  obtain ⟨_, _, hheader, haccept⟩ := bind_returns haccept
  obtain ⟨_, _, hsize, haccept⟩ := bind_returns haccept
  obtain ⟨_, s₁, hmap, haccept⟩ := bind_returns haccept
  obtain ⟨first, s₂, hfirst, haccept⟩ := bind_returns haccept
  obtain ⟨second, s₃, hsecond, haccept⟩ := bind_returns haccept
  obtain ⟨last, s₄, hlast, haccept⟩ := bind_returns haccept
  obtain rfl : s' = s₄ := by
    split_ifs at haccept
    · cases haccept
    · cases haccept
      rfl
  obtain rfl := ofExcept_returns hheader
  obtain rfl := ofExcept_returns hsize
  obtain ⟨hchecked, hfold⟩ := loadCommands_returns hfirst
  obtain ⟨-, hfold'⟩ := loadCommands_returns hsecond
  refine ⟨?_, ⟨first, second, s₁, s₂, s₃, last, hmap, hfold, hfold', hlast⟩,
    MachFile.walkConfined_iff hmapped hchecked⟩
  rw [MachFile.commands_checked hchecked, length_map, length_range]

end

/-- Two commands are counted, and behind the first there is nothing. -/
def endlessCount : MachFile := executable 2 threadWords

/-- A page, a thread, and the name of a dynamic linker. -/
def linked : MachFile := executable 3
  ([1, 56, 0, 0, 0, 0, 4096, 4096, 0, 4096, 7, 7, 0, 0] ++ threadWords ++ [14, 16, 12, 0x2f610000])

/-- A dynamic linker of one page. -/
def linker : MachFile :=
  let file := executable 1 [1, 56, 0, 0, 0, 0, 65536, 4096, 0, 4096, 7, 7, 0, 0]
  { file with header := { file.header with filetype := 7 } }

theorem walk_confined_iff_linked : linked.commands.length = 3 ∧ linked.namesRead.length = 1 ∧
    (linked.WalkConfined ↔ linked.SizesHold) := by
  obtain ⟨r, s', haccept⟩ : ∃ r s',
      (parseMachfile { powerpc with getMachoVnode := fun _ => .ok linker } 7 linked 1 0 none .zero).run
        (atStart.pair caller) = .ok r s' := ⟨_, _, rfl⟩
  have hmapped : linked.Mapped := by
    rw [MachFile.Mapped]
    decide
  obtain ⟨hlength, -, hiff⟩ := walk_confined_iff hmapped haccept
  exact ⟨hlength, by decide, hiff⟩

/-- The file is accepted, and the second command has no byte. -/
theorem endlessCount_accepted : (∃ r s', (parseMachfile powerpc 7 endlessCount 1 0 none .zero).run
      (atStart.pair caller) = .ok r s') ∧ ¬ endlessCount.WalkConfined := by
  refine ⟨⟨_, _, rfl⟩, fun hconfined => ?_⟩
  have hmem : endlessCount.addr + 204 ∈ endlessCount.commands := by decide
  exact absurd (hconfined.fields _ hmem).2 (by decide)

end Darwin.Kern
