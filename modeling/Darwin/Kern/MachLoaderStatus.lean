import Darwin.Kern.MachLoader

/-! # The statuses of a thread command

`load_threadstate`, `load_threadstack` and `load_threadentry` go over the statuses behind the header
of a thread command. The size that is left is unsigned, and the test for a negative one never finds
anything: a status that runs past the end of the command is passed on.
-/
namespace Darwin.Kern
open Darwin.Lib List

section
variable {Regs α : Type} {file : MachFile} {call : Word → List Word → α → Option α}

/-- The statuses that the loop reads and passes on: where each one is, and its count. -/
def MachFile.statusReads (file : MachFile) (call : Word → List Word → α → Option α) :
    ℕ → Word → Word → α → List (Word × Word)
  | 0, _, _, _ => []
  | n + 1, ts, totalSize, a =>
    if totalSize = 0 then []
    else
      let flavor := file.long ts
      let size := file.long (ts + 4)
      (ts, size) :: match call flavor (file.longs (ts + 8) size) a with
        | none => []
        | some a => file.statusReads call n (ts + 8 + 4 * size) (totalSize - (size + 2) * 4) a

/-- Where the status ends, from the start on. -/
def statusEnd (start : Word) (r : Word × Word) : ℕ := (r.1 - start).toNat + 8 + 4 * r.2.toNat

/-- The loop has returned, its words and counts are within the bytes from `start` on, and a status that
is not has been refused. -/
structure Confined (start : Word) (total : ℕ) (reads : List (Word × Word)) (ret : Except LoadReturn Unit) :
    Prop where
  returns : ret ≠ .error .never
  words : ∀ r ∈ reads, (r.1 - start).toNat + 8 ≤ total
  counts : ∀ r ∈ reads, statusEnd start r ≤ total
  past : ∀ r ∈ reads, total < statusEnd start r → ret = .error .badmacho

/-- The bytes behind the header of a thread command. -/
def MachFile.statusBytes (file : MachFile) (tcp : Word) : ℕ := (file.cmdsize tcp).toNat - 8

/-- A loop over the statuses that is confined to the command; `ret` is its result for a number of turns. -/
def MachFile.StatusesConfined (file : MachFile) (tcp : Word) (call : Word → List Word → α → Option α) (a : α)
    (ret : ℕ → Except LoadReturn Unit) : Prop :=
  ∃ n, Confined (file.statuses tcp).1 (file.statusBytes tcp)
    (file.statusReads call n (file.statuses tcp).1 (file.statuses tcp).2 a) (ret n)

/-- The statuses fit in `n` bytes: they fill them, or the last one is refused by the machine. -/
inductive StatusesFit (file : MachFile) (call : Word → List Word → α → Option α) : Word → ℕ → α → Prop where
  | done (ts : Word) (a : α) : StatusesFit file call ts 0 a
  | refused (ts : Word) (n : ℕ) (a : α) : 8 + 4 * (file.long (ts + 4)).toNat ≤ n →
      call (file.long ts) (file.longs (ts + 8) (file.long (ts + 4))) a = none → StatusesFit file call ts n a
  | next (ts : Word) (n : ℕ) (a a' : α) : 8 + 4 * (file.long (ts + 4)).toNat ≤ n →
      call (file.long ts) (file.longs (ts + 8) (file.long (ts + 4))) a = some a' →
      StatusesFit file call (ts + 8 + 4 * file.long (ts + 4)) (n - (8 + 4 * (file.long (ts + 4)).toNat)) a' →
      StatusesFit file call ts n a

/-! ## One turn -/

theorem status_offset {start ts size : Word} {total : ℕ} (htotal : total < 2 ^ 32)
    (hend : statusEnd start (ts, size) ≤ total) :
    (ts + 8 + 4 * size - start).toNat = statusEnd start (ts, size) := by
  simp only [statusEnd] at *
  bv_omega

theorem status_left {totalSize size : Word} (h : 8 + 4 * size.toNat ≤ totalSize.toNat) :
    (totalSize - (size + 2) * 4).toNat = totalSize.toNat - (8 + 4 * size.toNat) := by
  bv_omega

/-! ## The loop -/

theorem StatusesFit.confined {start ts totalSize : Word} {total n : ℕ} {a : α}
    (h : StatusesFit file call ts n a) (htotal : total < 2 ^ 32) (hn : totalSize.toNat = n)
    (hsum : (ts - start).toNat + n = total) :
    ∃ fuel, Confined start total (file.statusReads call fuel ts totalSize a)
      (file.forStatuses call fuel ts totalSize a).1 := by
  induction h generalizing totalSize with
  | done ts a =>
    obtain rfl : totalSize = 0 := BitVec.eq_of_toNat_eq hn
    refine ⟨1, ?_⟩
    simp only [MachFile.statusReads, MachFile.forStatuses, if_true]
    exact ⟨nofun, nofun, nofun, nofun⟩
  | refused ts n a hfit hcall =>
    have hne : totalSize ≠ 0 := by
      rintro rfl
      simp at hn
      omega
    refine ⟨1, ?_⟩
    simp only [MachFile.statusReads, MachFile.forStatuses, if_neg hne, hcall]
    have hend : statusEnd start (ts, file.long (ts + 4)) ≤ total := by
      simp only [statusEnd]
      omega
    refine ⟨nofun, ?_, ?_, ?_⟩
    · intro r hr
      obtain rfl := mem_singleton.mp hr
      simp only
      omega
    · intro r hr
      obtain rfl := mem_singleton.mp hr
      exact hend
    · intro r hr hlt
      obtain rfl := mem_singleton.mp hr
      omega
  | next ts n a a' hfit hcall _ ih =>
    have hne : totalSize ≠ 0 := by
      rintro rfl
      simp at hn
      omega
    have hend : statusEnd start (ts, file.long (ts + 4)) ≤ total := by
      simp only [statusEnd]
      omega
    have hleft := status_left (show 8 + 4 * (file.long (ts + 4)).toNat ≤ totalSize.toNat by omega)
    have hoffset := status_offset htotal hend
    obtain ⟨fuel, hconfined⟩ := @ih (totalSize - (file.long (ts + 4) + 2) * 4) (by rw [hleft, hn]) (by
      rw [hoffset]
      simp only [statusEnd]
      omega)
    refine ⟨fuel + 1, ?_⟩
    simp only [MachFile.statusReads, MachFile.forStatuses, if_neg hne, hcall]
    refine ⟨hconfined.returns, ?_, ?_, ?_⟩
    · intro r hr
      rcases mem_cons.mp hr with rfl | hr
      · simp only
        omega
      · exact hconfined.words r hr
    · intro r hr
      rcases mem_cons.mp hr with rfl | hr
      · exact hend
      · exact hconfined.counts r hr
    · intro r hr hlt
      rcases mem_cons.mp hr with rfl | hr
      · omega
      · exact hconfined.past r hr hlt

theorem StatusesFit.of_confined {start ts totalSize : Word} {total n fuel : ℕ} {a : α}
    (h : Confined start total (file.statusReads call fuel ts totalSize a)
      (file.forStatuses call fuel ts totalSize a).1) (htotal : total < 2 ^ 32) (hn : totalSize.toNat = n)
    (hsum : (ts - start).toNat + n = total) : StatusesFit file call ts n a := by
  induction fuel generalizing ts totalSize n a with
  | zero => exact absurd rfl h.returns
  | succ fuel ih =>
    by_cases hzero : totalSize = 0
    · subst hzero
      obtain rfl : 0 = n := hn
      exact .done ts a
    · simp only [MachFile.statusReads, MachFile.forStatuses, if_neg hzero] at h
      have hend := h.counts _ mem_cons_self
      have hfit : 8 + 4 * (file.long (ts + 4)).toNat ≤ n := by
        simp only [statusEnd] at hend
        omega
      cases hcall : call (file.long ts) (file.longs (ts + 8) (file.long (ts + 4))) a with
      | none => exact .refused ts n a hfit hcall
      | some a' =>
        simp only [hcall] at h
        have hleft := status_left (show 8 + 4 * (file.long (ts + 4)).toNat ≤ totalSize.toNat by omega)
        have hoffset := status_offset htotal hend
        refine .next ts n a a' hfit hcall (ih ⟨h.returns, ?_, ?_, ?_⟩ (by rw [hleft, hn]) ?_)
        · exact fun r hr => h.words r (mem_cons_of_mem _ hr)
        · exact fun r hr => h.counts r (mem_cons_of_mem _ hr)
        · exact fun r hr => h.past r (mem_cons_of_mem _ hr)
        · rw [hoffset]
          simp only [statusEnd]
          omega

theorem MachFile.statusesConfined_iff (tcp : Word) (a : α) {ret : ℕ → Except LoadReturn Unit}
    (hret : ∀ n, ret n = (file.forStatuses call n (file.statuses tcp).1 (file.statuses tcp).2 a).1) :
    file.StatusesConfined tcp call a ret ↔
      8 ≤ (file.cmdsize tcp).toNat ∧ StatusesFit file call (tcp + 8) (file.statusBytes tcp) a := by
  have htotal : file.statusBytes tcp < 2 ^ 32 := by
    have hlt := (file.cmdsize tcp).isLt
    rw [MachFile.statusBytes]
    omega
  have hsize : 8 ≤ (file.cmdsize tcp).toNat → (file.cmdsize tcp - 8).toNat = file.statusBytes tcp := by
    intro hheader
    rw [MachFile.statusBytes]
    bv_omega
  have hsum : (tcp + 8 - (tcp + 8)).toNat + file.statusBytes tcp = file.statusBytes tcp := by simp
  constructor
  · rintro ⟨n, h⟩
    rw [hret] at h
    change Confined (tcp + 8) _ (file.statusReads call n (tcp + 8) (file.cmdsize tcp - 8) a)
      (file.forStatuses call n (tcp + 8) (file.cmdsize tcp - 8) a).1 at h
    have hheader : 8 ≤ (file.cmdsize tcp).toNat := by
      by_contra hshort
      have hne : file.cmdsize tcp - 8 ≠ 0 := by bv_omega
      cases n with
      | zero => exact h.returns rfl
      | succ n =>
        simp only [MachFile.statusReads, if_neg hne] at h
        have hword := h.words _ mem_cons_self
        rw [MachFile.statusBytes] at hword
        omega
    exact ⟨hheader, StatusesFit.of_confined h htotal (hsize hheader) hsum⟩
  · rintro ⟨hheader, hfit⟩
    obtain ⟨n, h⟩ := hfit.confined htotal (hsize hheader) hsum
    refine ⟨n, ?_⟩
    rw [hret]
    exact h

/-! ## The three loops -/

/-- What the machine makes of a status. -/
def LoadEnv.setStatus (env : LoadEnv Regs) (flavor : Word) (ts : List Word) (thread : Regs) : Option Regs :=
  (env.threadSetstatus flavor ts).map (fun set => set thread)

/-- Each of the three loops is confined to its thread command just when the command has room for its
header and the statuses fit in the rest, up to the first one that the machine refuses. -/
theorem thread_statuses_confined_iff (env : LoadEnv Regs) (file : MachFile) (tcp : Word) (thread : Regs) :
    (file.StatusesConfined tcp env.setStatus thread
        (fun n => (loadThreadstate { env with turns := n } file tcp thread).1) ↔
      8 ≤ (file.cmdsize tcp).toNat ∧
        StatusesFit file env.setStatus (tcp + 8) (file.statusBytes tcp) thread) ∧
    (file.StatusesConfined tcp env.threadUserstack 0
        (fun n => (loadThreadstack { env with turns := n } file tcp).map (fun _ => ())) ↔
      8 ≤ (file.cmdsize tcp).toNat ∧
        StatusesFit file env.threadUserstack (tcp + 8) (file.statusBytes tcp) 0) ∧
    (file.StatusesConfined tcp env.threadEntrypoint 0
        (fun n => (loadThreadentry { env with turns := n } file tcp).map (fun _ => ())) ↔
      8 ≤ (file.cmdsize tcp).toNat ∧
        StatusesFit file env.threadEntrypoint (tcp + 8) (file.statusBytes tcp) 0) := by
  have hunit : ∀ r : Except LoadReturn Unit × Word, (r.1.map (fun _ => r.2)).map (fun _ => ()) = r.1 := by
    rintro ⟨_ | _, _⟩
    · rfl
    · rfl
  refine ⟨MachFile.statusesConfined_iff tcp thread fun n => rfl, MachFile.statusesConfined_iff tcp 0 fun n => ?_,
    MachFile.statusesConfined_iff tcp 0 fun n => ?_⟩
  · exact hunit _
  · exact hunit _

end

/-- A thread command of 16 bytes, whose only status declares two words in a rest of none. -/
def longStatus : MachFile where
  header := ⟨0, 0, 0, 0, 0⟩
  addr := 0
  byte _ := 0
  long a := if a = 4 then 16 else if a = 12 then 2 else 0
  fileOffset := 0
  machoSize := 0
  vnodeSize := 0

/-- A machine that takes every status. -/
def easyMachine : LoadEnv Unit where
  cpuType := 0
  checkCpuSubtype _ := true
  threadSetstatus _ _ := some id
  threadUserstack _ _ _ := some 0
  threadEntrypoint _ _ _ := some 0
  newThread := ()
  getMachoVnode _ := .error .badmacho
  findSpace _ _ _ := none
  minOffset := 0
  maxOffset := 0
  unset := 0
  turns := 1

/-- The count is passed on, and the loop does not return `LOAD_BADMACHO`. -/
theorem long_status_passed : longStatus.cmdsize 0 = 16 ∧
    (∀ n, (8, 2) ∈ longStatus.statusReads easyMachine.setStatus (n + 1) (longStatus.statuses 0).1
      (longStatus.statuses 0).2 ()) ∧
    ¬ longStatus.StatusesConfined 0 easyMachine.setStatus ()
      (fun n => (loadThreadstate { easyMachine with turns := n } longStatus 0 ()).1) := by
  have hread : ∀ n, (8, 2) ∈ longStatus.statusReads easyMachine.setStatus (n + 1) (longStatus.statuses 0).1
      (longStatus.statuses 0).2 () := fun n => mem_cons_self
  refine ⟨rfl, hread, ?_⟩
  rintro ⟨n, h⟩
  cases n with
  | zero => exact h.returns rfl
  | succ n =>
    have hcount := h.counts _ (hread n)
    exact absurd hcount (by decide)

end Darwin.Kern
