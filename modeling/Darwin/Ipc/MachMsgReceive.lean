import Darwin.Ipc.MqueueArrival

/-! # The size of what a receive copies out

`mach_msg_receive` and `mach_msg_receive_continue` copy a message with its trailer, a minimal
message or a scatter list to the buffer of the user.
-/
namespace Darwin.Ipc.MessageQueue
open Darwin.Lib

/-! ## Messages from the user -/

/-- `sizeof (mach_msg_trailer_t)`, which is `MACH_MSG_TRAILER_MINIMUM_SIZE` -/
def trailerMinimumSize : ℕ := 8

/-- `MACH_MSG_TRAILER_FORMAT_0_SIZE`, which is `MAX_TRAILER_SIZE` -/
def maxTrailerSize : ℕ := 20

/-- `sizeof (mach_msg_base_t)` -/
def baseSize : ℕ := headerSize + bodySize

inductive SendError where
  | msgTooSmall
  | noBuffer
  | invalidData
  | invalidTrailer
  deriving DecidableEq, Repr

/-- What the user's memory and the kernel's answer while a message is copied in. -/
structure GetAnswers where
  ikmAlloc : Bool
  copyinMsg : Bool
  trailerType : ℕ
  trailerSize : ℕ
  copyinTrailer : Bool
  deriving DecidableEq, Repr

/-- `ipc_kmsg_get`, down to the fields `msgh_size` and `ikm_delta` of the message. -/
def ipcKmsgGet (sendTrailer : Bool) (size : ℕ) (delta : ℤ) (ans : GetAnswers) :
    Except SendError (ℕ × ℤ) :=
  if size < headerSize ∨ size % 4 ≠ 0 then .error .msgTooSmall
  else if 0 < delta ∧ (delta % 4 ≠ 0 ∨ delta < trailerMinimumSize ∨ delta > maxTrailerSize) then
    .error .invalidTrailer
  else if !ans.ikmAlloc then .error .noBuffer
  else if !ans.copyinMsg then .error .invalidData
  else if 0 < delta then
    if sendTrailer then
      if ans.trailerType ≠ 0 then .error .invalidTrailer
      else if delta < ans.trailerSize ∨ ans.trailerSize % 4 ≠ 0 ∨
          ans.trailerSize < trailerMinimumSize ∨ maxTrailerSize < ans.trailerSize then
        .error .invalidTrailer
      else if trailerMinimumSize < ans.trailerSize ∧ !ans.copyinTrailer then .error .invalidTrailer
      else .ok (size, ans.trailerSize)
    else .ok (size, 0)
  else .ok (size, delta)

/-! ## The receive -/

/-- The options of a receive; `elements` is `GET_RCV_ELEMENTS`. -/
structure MsgOption where
  overwrite : Bool
  large : Bool
  noTrailer : Bool
  notify : Bool
  timeout : Bool
  elements : ℕ
  deriving DecidableEq, Repr

/-- `REQUESTED_TRAILER_SIZE`. The index comes from the user and is not checked against the
length of the array `trailer_size`; `beyond` is what lies behind it. -/
def requestedTrailerSize (beyond : ℕ → ℕ) (elements : ℕ) : ℕ :=
  ([8, 12, 20][elements]?).getD (beyond elements)

/-- The options that are passed on to `ipc_mqueue_receive`. -/
def MsgOption.rcvOption (beyond : ℕ → ℕ) (option : MsgOption) : RcvOption :=
  ⟨false, option.large, option.timeout, requestedTrailerSize beyond option.elements⟩

/-- The copy to the user's message buffer. -/
inductive Copy where
  | nothing
  /-- `msgh_size` alone -/
  | sizeField
  /-- a header and what follows it -/
  | message (size : ℕ)
  deriving DecidableEq, Repr

inductive Ended where
  | blocked
  | panicked
  | returned (mr : ℕ) (copy : Copy)
  deriving DecidableEq, Repr

def machRcvInvalidNotify : ℕ := 0x10004007

def machRcvInvalidData : ℕ := 0x10004008

def machRcvBodyError : ℕ := 0x1000400c

def machMsgMask : ℕ := 0x3c00

/-- What the rest of the kernel answers: `ipc_kmsg_copyout` with a code, the copy to user space
with success or not. -/
structure RcvAnswers where
  copyout : ℕ
  put : Bool
  notifyNull : Bool
  deriving DecidableEq, Repr

/-- `ipc_kmsg_put`, for a caller that returns `mr` when the copy succeeds. -/
def ipcKmsgPut (ans : RcvAnswers) (mr size : ℕ) : Ended :=
  .returned (if ans.put then mr else machRcvInvalidData) (.message size)

/-- The size of the minimal message of `mach_msg_receive_error`. -/
def minimalSize (noTrailer : Bool) : ℕ := headerSize + if noTrailer then 0 else trailerMinimumSize

def machMsgReceiveError (ans : RcvAnswers) (option : MsgOption) (mr : ℕ) : Ended :=
  ipcKmsgPut ans mr (minimalSize option.noTrailer)

/-- `msgh_trailer_size` of a message that is copied out. -/
def storedTrailerSize (beyond : ℕ → ℕ) (option : MsgOption) (ikmDelta : ℤ) : ℕ :=
  if option.noTrailer then 0
  else if 0 < ikmDelta then ikmDelta.toNat
  else requestedTrailerSize beyond option.elements

def Outcome.mr : Outcome → MachMsgReturn
  | .message mr _ _ => mr
  | .size mr _ => mr
  | .code mr => mr
  | .panic => .success

/-- What `mach_msg_receive` and `mach_msg_receive_continue` do after `ipc_mqueue_receive`;
`ikmDelta` is of the message that was received. -/
def machMsgReceiveEnd (beyond : ℕ → ℕ) (option : MsgOption) (ikmDelta : ℤ) (ans : RcvAnswers)
    (r : Returned) : Ended :=
  match r.outcome with
  | .panic => .panicked
  | .message .success kmsg _ =>
    let mr := if option.notify ∧ ans.notifyNull then machRcvInvalidNotify else ans.copyout
    let size := u32 (kmsg.msghSize + storedTrailerSize beyond option ikmDelta)
    if mr ≠ 0 then
      if mr &&& (0xffffffff - machMsgMask) = machRcvBodyError then ipcKmsgPut ans mr size
      else machMsgReceiveError ans option mr
    else ipcKmsgPut ans mr size
  | o =>
    if o.mr = .rcvHeaderError then machMsgReceiveError ans option o.mr.code
    else if o.mr = .rcvTooLarge ∨ o.mr = .rcvScatterSmall then
      if option.large then
        match r.list with
        | some l => ipcKmsgPut ans o.mr.code l.msghSize
        | none => .returned (if ans.put then o.mr.code else machRcvInvalidData) .sizeField
      else machMsgReceiveError ans option o.mr.code
    else .returned o.mr.code .nothing

/-- What a receive reads its scatter list from. -/
structure ListIn where
  listSize : ℕ
  get : GetAnswers
  descriptors : List Descriptor
  /-- the count behind the pointer `kmsg`, which is not yet set -/
  strayCount : ℕ

/-- The scatter list of a receive, or the code to return at once. It is the stray count, not the
one of the list, that is compared with the size. -/
def scatterIn (option : MsgOption) (l : ListIn) : Except ℕ (Option ScatterList) :=
  if option.overwrite then
    if l.listSize < baseSize then .error MachMsgReturn.rcvScatterSmall.code
    else
      match ipcKmsgGet false l.listSize 0 l.get with
      | .error _ => .error machRcvInvalidData
      | .ok _ =>
        if l.listSize < u32 (l.strayCount * descriptorSize + baseSize) then
          .error MachMsgReturn.rcvInvalidType.code
        else .ok (some ⟨l.listSize, l.descriptors⟩)
  else .ok none

/-- `mach_msg_receive` with the queue that `ipc_mqueue_copyin` finds. -/
def machMsgReceive (beyond : ℕ → ℕ) (option : MsgOption) (rcvSize timeout : ℕ)
    (l : ListIn) (ikmDelta : ℤ) (ans : RcvAnswers) (alloc : Bool) (t : ℕ) (q : QueueName)
    (s : State) : Ended :=
  match scatterIn option l with
  | .error mr => .returned mr .nothing
  | .ok list =>
    match (s.receivePass alloc t q (option.rcvOption beyond) rcvSize timeout list).2 with
    | none => .blocked
    | some r => machMsgReceiveEnd beyond option ikmDelta ans r

/-- The thread runs again after it has blocked. -/
def machMsgReceiveContinue (beyond : ℕ → ℕ) (option : MsgOption) (ikmDelta : ℤ) (ans : RcvAnswers)
    (alloc : Bool) (t : ℕ) (w : WaitResult) (q : QueueName) (s : State) : Ended :=
  match (s.resumeReceive alloc t w q).2 with
  | none => .blocked
  | some r => machMsgReceiveEnd beyond option ikmDelta ans r

/-! ## The bound -/

/-- No header is copied with more than `n` bytes; `msgh_size` alone, of 4 bytes, is not counted. -/
def Ended.Within (n : ℕ) (e : Ended) : Prop :=
  ∀ mr size, e = .returned mr (.message size) → size ≤ n

@[simp] theorem within_panicked (n : ℕ) : Ended.Within n .panicked := by rintro _ _ ⟨⟩

@[simp] theorem within_nothing (n mr : ℕ) : Ended.Within n (.returned mr .nothing) := by
  rintro _ _ ⟨⟩

@[simp] theorem within_sizeField (n mr : ℕ) : Ended.Within n (.returned mr .sizeField) := by
  rintro _ _ ⟨⟩

@[simp] theorem within_ipcKmsgPut (n mr size : ℕ) (ans : RcvAnswers) :
    Ended.Within n (ipcKmsgPut ans mr size) ↔ size ≤ n := by
  constructor
  · intro h
    exact h _ _ rfl
  · rintro h _ _ ⟨⟩
    exact h

@[simp] theorem within_machMsgReceiveError (n mr : ℕ) (ans : RcvAnswers) (option : MsgOption) :
    Ended.Within n (machMsgReceiveError ans option mr) ↔ minimalSize option.noTrailer ≤ n := by
  rw [machMsgReceiveError, within_ipcKmsgPut]

/-- `ipc_kmsg_copyout` leaves the message to be copied out whole. -/
def CopiesWhole (option : MsgOption) (ans : RcvAnswers) : Prop :=
  ¬ (option.notify = true ∧ ans.notifyNull = true) ∧
    (ans.copyout = 0 ∨ ans.copyout &&& (0xffffffff - machMsgMask) = machRcvBodyError)

/-- The test of the size finds no room for the message. -/
def TooLarge (beyond : ℕ → ℕ) (option : MsgOption) (rcvSize : ℕ) (kmsg : Kmsg) : Prop :=
  u32Sub rcvSize (requestedTrailerSize beyond option.elements) < kmsg.msghSize

/-- The verdict on the scatter list; without one, or for a simple message, there is no test. -/
def scatterMr (option : MsgOption) (kmsg : Kmsg) (alloc : Bool) (list : Option ScatterList) :
    MachMsgReturn :=
  match kmsg.complex, list with
  | true, some l => (ipcKmsgCheckScatter alloc kmsg option.large l).1
  | _, _ => .success

/-- There is room, and the scatter list has this verdict. -/
def Scatters (beyond : ℕ → ℕ) (option : MsgOption) (rcvSize : ℕ) (kmsg : Kmsg) (alloc : Bool)
    (list : Option ScatterList) (mr : MachMsgReturn) : Prop :=
  ¬ TooLarge beyond option rcvSize kmsg ∧ scatterMr option kmsg alloc list = mr

/-- The sizes for which the receive stays in its buffer, by what it copies there. -/
structure FitsBuffer (beyond : ℕ → ℕ) (option : MsgOption) (rcvSize : ℕ) (kmsg : Kmsg)
    (ikmDelta : ℤ) (ans : RcvAnswers) (alloc : Bool) (list : Option ScatterList) : Prop where
  /-- The minimal message fits where an error leaves one. -/
  minimal :
    (TooLarge beyond option rcvSize kmsg ∨
        Scatters beyond option rcvSize kmsg alloc list .rcvScatterSmall) ∧ option.large = false ∨
      Scatters beyond option rcvSize kmsg alloc list .success ∧ ¬ CopiesWhole option ans →
    minimalSize option.noTrailer ≤ rcvSize
  /-- The scatter list fits where it is returned for a message that stays. -/
  old_list : TooLarge beyond option rcvSize kmsg → option.large = true →
    ∀ l ∈ list, l.msghSize ≤ rcvSize
  new_list : Scatters beyond option rcvSize kmsg alloc list .rcvScatterSmall → option.large = true →
    bodySize + descriptorSize * kmsg.descriptors.length ≤ rcvSize
  /-- A trailer of the sender fits, which is not the one that the size was tested with. -/
  sender_trailer : Scatters beyond option rcvSize kmsg alloc list .success →
    CopiesWhole option ans → option.noTrailer = false → 0 < ikmDelta →
    u32 (kmsg.msghSize + ikmDelta.toNat) ≤ rcvSize
  /-- The test of the size has not wrapped, or the sum that is copied wraps as well. -/
  requested_trailer : Scatters beyond option rcvSize kmsg alloc list .success →
    CopiesWhole option ans → option.noTrailer = false → ikmDelta ≤ 0 →
    requestedTrailerSize beyond option.elements ≤ rcvSize ∨
      2 ^ 32 ≤ kmsg.msghSize + requestedTrailerSize beyond option.elements
  no_trailer : Scatters beyond option rcvSize kmsg alloc list .success →
    CopiesWhole option ans → option.noTrailer = true →
    requestedTrailerSize beyond option.elements ≤ rcvSize ∨ kmsg.msghSize ≤ rcvSize

/-- The sizes are 32-bit words, those behind the array of trailer sizes included. -/
structure WordSizes (beyond : ℕ → ℕ) (rcvSize : ℕ) (kmsg : Kmsg) : Prop where
  rcvSize : rcvSize < 2 ^ 32
  msghSize : kmsg.msghSize < 2 ^ 32
  beyond : ∀ elements, beyond elements < 2 ^ 32

variable {beyond : ℕ → ℕ} {option : MsgOption} {rcvSize : ℕ} {kmsg : Kmsg} {ikmDelta : ℤ}
variable {ans : RcvAnswers} {alloc : Bool} {list list' : Option ScatterList} {seqno : ℕ}

theorem requestedTrailerSize_lt (hw : WordSizes beyond rcvSize kmsg) (elements : ℕ) :
    requestedTrailerSize beyond elements < 2 ^ 32 := by
  match elements with
  | 0 | 1 | 2 => simp [requestedTrailerSize]
  | n + 3 => simpa [requestedTrailerSize] using hw.beyond (n + 3)

theorem whole_le_iff (hw : WordSizes beyond rcvSize kmsg)
    (hfits : ¬ TooLarge beyond option rcvSize kmsg) :
    u32 (kmsg.msghSize + storedTrailerSize beyond option ikmDelta) ≤ rcvSize ↔
      (option.noTrailer = false → 0 < ikmDelta →
        u32 (kmsg.msghSize + ikmDelta.toNat) ≤ rcvSize) ∧
      (option.noTrailer = false → ikmDelta ≤ 0 →
        requestedTrailerSize beyond option.elements ≤ rcvSize ∨
          2 ^ 32 ≤ kmsg.msghSize + requestedTrailerSize beyond option.elements) ∧
      (option.noTrailer = true →
        requestedTrailerSize beyond option.elements ≤ rcvSize ∨ kmsg.msghSize ≤ rcvSize) := by
  have ht := requestedTrailerSize_lt hw option.elements
  have hr := hw.rcvSize
  have hm := hw.msghSize
  unfold TooLarge u32Sub at hfits
  unfold storedTrailerSize
  generalize requestedTrailerSize beyond option.elements = trailer at *
  cases hno : option.noTrailer with
  | true =>
    simp only [if_true, u32]
    simp
    omega
  | false =>
    by_cases hd : 0 < ikmDelta
    · simp [hd]
    · simp [hd, u32]
      omega

theorem ipcKmsgCheckScatter_new_list {l : ScatterList}
    (h : (ipcKmsgCheckScatter alloc kmsg true l).1 = .rcvScatterSmall) :
    (ipcKmsgCheckScatter alloc kmsg true l).2.msghSize =
      bodySize + descriptorSize * kmsg.descriptors.length := by
  revert h
  unfold ipcKmsgCheckScatter
  split
  case h_1 mr he => simp [checkScatterLoop_large_error he]
  case h_2 => simp
  case h_3 => cases alloc <;> simp

theorem within_of_tooLarge (hnew : kmsg.oldFormat = false)
    (hlarge : TooLarge beyond option rcvSize kmsg) :
    (machMsgReceiveEnd beyond option ikmDelta ans
      (receiveFirst alloc (option.rcvOption beyond) rcvSize list kmsg seqno)).Within rcvSize ↔
    FitsBuffer beyond option rcvSize kmsg ikmDelta ans alloc list := by
  have hscatters : ∀ mr, ¬ Scatters beyond option rcvSize kmsg alloc list mr :=
    fun mr h => h.1 hlarge
  have hsize := hlarge
  unfold TooLarge at hsize
  cases hopt : option.large with
  | false =>
    simp only [receiveFirst, MsgOption.rcvOption, hnew, hsize, hopt, if_true,
      machMsgReceiveEnd, Outcome.mr]
    constructor
    · intro h
      constructor <;> simp_all
    · intro h
      simpa using h.minimal (.inl ⟨.inl hlarge, hopt⟩)
  | true =>
    simp only [receiveFirst, MsgOption.rcvOption, hnew, hsize, hopt, if_true,
      machMsgReceiveEnd, Outcome.mr]
    constructor
    · intro h
      cases list with
      | none => constructor <;> simp_all
      | some l => constructor <;> simp_all
    · intro h
      cases list with
      | none => simp
      | some l => simpa using h.old_list hlarge hopt l rfl

theorem receiveFirst_of_fits (hnew : kmsg.oldFormat = false)
    (hfits : ¬ TooLarge beyond option rcvSize kmsg) :
    let r := receiveFirst alloc (option.rcvOption beyond) rcvSize list kmsg seqno
    let mr := scatterMr option kmsg alloc list
    mr = .success ∧ r.outcome = .message .success kmsg seqno ∨
    (mr = .rcvInvalidType ∨ mr = .rcvBodyErrorVmKernel) ∧ r.outcome = .code mr ∨
    mr = .rcvScatterSmall ∧ option.large = false ∧
      r.outcome = .message .rcvScatterSmall kmsg seqno ∨
    mr = .rcvScatterSmall ∧ option.large = true ∧
      r.outcome = .size .rcvScatterSmall kmsg.msghSize ∧
      ∃ l, r.list = some l ∧
        l.msghSize = bodySize + descriptorSize * kmsg.descriptors.length := by
  have hsize := hfits
  unfold TooLarge at hsize
  cases hcomplex : kmsg.complex with
  | false => simp [receiveFirst, MsgOption.rcvOption, scatterMr, hnew, hsize, hcomplex]
  | true =>
    cases list with
    | none => simp [receiveFirst, MsgOption.rcvOption, scatterMr, hnew, hsize, hcomplex]
    | some l =>
      simp only [receiveFirst, MsgOption.rcvOption, scatterMr, hnew, hsize, hcomplex]
      obtain h | h | h | ⟨h, -, -⟩ := ipcKmsgCheckScatter_cases alloc kmsg option.large l
      · simp [h]
      · simp [h]
      · rcases Bool.eq_false_or_eq_true option.large with hlarge | hlarge
        · rw [hlarge] at h
          simp [h, hlarge, vmKernel_rcvScatterSmall, ipcKmsgCheckScatter_new_list h]
        · rw [hlarge] at h
          simp [h, hlarge, vmKernel_rcvScatterSmall]
      · simp [h, MachMsgReturn.vmKernel, MachMsgReturn.code, machMsgVmKernel]

theorem within_of_success (hw : WordSizes beyond rcvSize kmsg)
    (hs : Scatters beyond option rcvSize kmsg alloc list .success) :
    (machMsgReceiveEnd beyond option ikmDelta ans
      ⟨.message .success kmsg seqno, list'⟩).Within rcvSize ↔
    FitsBuffer beyond option rcvSize kmsg ikmDelta ans alloc list := by
  have hne : ∀ mr, Scatters beyond option rcvSize kmsg alloc list mr → mr = .success :=
    fun mr h => h.2.symm.trans hs.2
  by_cases hcopies : CopiesWhole option ans
  · have hend : machMsgReceiveEnd beyond option ikmDelta ans ⟨.message .success kmsg seqno, list'⟩ =
        ipcKmsgPut ans ans.copyout
          (u32 (kmsg.msghSize + storedTrailerSize beyond option ikmDelta)) := by
      obtain ⟨hnotify, hcopyout⟩ := hcopies
      rcases hcopyout with h | h <;> simp [machMsgReceiveEnd, hnotify, h]
    rw [hend, within_ipcKmsgPut, whole_le_iff hw hs.1]
    constructor
    · rintro ⟨h1, h2, h3⟩
      refine ⟨?_, fun h => absurd h hs.1, fun h => (by cases hne _ h), fun _ _ => h1, fun _ _ => h2,
        fun _ _ => h3⟩
      rintro (⟨h | h, -⟩ | h)
      · exact absurd h hs.1
      · cases hne _ h
      · exact absurd hcopies h.2
    · intro h
      exact ⟨h.sender_trailer hs hcopies, h.requested_trailer hs hcopies, h.no_trailer hs hcopies⟩
  · have hend : ∃ mr, machMsgReceiveEnd beyond option ikmDelta ans
        ⟨.message .success kmsg seqno, list'⟩ = machMsgReceiveError ans option mr := by
      by_cases hnotify : option.notify = true ∧ ans.notifyNull = true
      · exact ⟨machRcvInvalidNotify, by simp [machMsgReceiveEnd, hnotify, machRcvInvalidNotify,
          machMsgMask, machRcvBodyError]⟩
      · have hcopyout := fun h => hcopies ⟨hnotify, h⟩
        obtain ⟨h0, hbody⟩ := not_or.mp hcopyout
        exact ⟨ans.copyout, by simp [machMsgReceiveEnd, hnotify, h0, hbody]⟩
    obtain ⟨mr, hend⟩ := hend
    rw [hend, within_machMsgReceiveError]
    constructor
    · intro h
      exact ⟨fun _ => h, fun h => absurd h hs.1, fun h => (by cases hne _ h),
        fun _ h => absurd h hcopies, fun _ h => absurd h hcopies, fun _ h => absurd h hcopies⟩
    · intro h
      exact h.minimal (.inr ⟨hs, hcopies⟩)

theorem within_receiveFirst_iff (hw : WordSizes beyond rcvSize kmsg)
    (hnew : kmsg.oldFormat = false) :
    (machMsgReceiveEnd beyond option ikmDelta ans
      (receiveFirst alloc (option.rcvOption beyond) rcvSize list kmsg seqno)).Within rcvSize ↔
    FitsBuffer beyond option rcvSize kmsg ikmDelta ans alloc list := by
  by_cases hlarge : TooLarge beyond option rcvSize kmsg
  · exact within_of_tooLarge hnew hlarge
  have hscatters : ∀ mr, Scatters beyond option rcvSize kmsg alloc list mr ↔
      mr = scatterMr option kmsg alloc list := fun mr => ⟨fun h => h.2.symm, fun h => ⟨hlarge, h.symm⟩⟩
  obtain ⟨hmr, ho⟩ | ⟨hmr, ho⟩ | ⟨hmr, hopt, ho⟩ | ⟨hmr, hopt, ho, l, hl, hsize⟩ :=
    @receiveFirst_of_fits beyond option rcvSize kmsg alloc list seqno hnew hlarge
  all_goals
    generalize receiveFirst alloc (option.rcvOption beyond) rcvSize list kmsg seqno = r at *
    obtain ⟨o, list'⟩ := r
    dsimp only at ho
    subst ho
  · exact within_of_success hw ⟨hlarge, hmr⟩
  · have hsuccess : ¬ Scatters beyond option rcvSize kmsg alloc list .success := by
      rw [hscatters]
      rcases hmr with h | h <;> simp [h]
    have hsmall : ¬ Scatters beyond option rcvSize kmsg alloc list .rcvScatterSmall := by
      rw [hscatters]
      rcases hmr with h | h <;> simp [h]
    refine iff_of_true ?_ ⟨?_, fun h => absurd h hlarge, fun h => absurd h hsmall,
      fun h => absurd h hsuccess, fun h => absurd h hsuccess, fun h => absurd h hsuccess⟩
    · rcases hmr with h | h <;> simp [machMsgReceiveEnd, Outcome.mr, h]
    · rintro (⟨h | h, -⟩ | h)
      · exact absurd h hlarge
      · exact absurd h hsmall
      · exact absurd h.1 hsuccess
  · have hsuccess : ¬ Scatters beyond option rcvSize kmsg alloc list .success := by
      simp [hscatters, hmr]
    rw [show machMsgReceiveEnd beyond option ikmDelta ans
      ⟨.message .rcvScatterSmall kmsg seqno, list'⟩ = machMsgReceiveError ans option
        MachMsgReturn.rcvScatterSmall.code by simp [machMsgReceiveEnd, Outcome.mr, hopt],
      within_machMsgReceiveError]
    constructor
    · intro h
      exact ⟨fun _ => h, fun h => absurd h hlarge, fun _ h => (by simp [hopt] at h),
        fun h => absurd h hsuccess, fun h => absurd h hsuccess, fun h => absurd h hsuccess⟩
    · intro h
      exact h.minimal (.inl ⟨.inr ⟨hlarge, hmr⟩, hopt⟩)
  · have hsuccess : ¬ Scatters beyond option rcvSize kmsg alloc list .success := by
      simp [hscatters, hmr]
    dsimp only at hl
    rw [show machMsgReceiveEnd beyond option ikmDelta ans
      ⟨.size .rcvScatterSmall kmsg.msghSize, list'⟩ = ipcKmsgPut ans
        MachMsgReturn.rcvScatterSmall.code l.msghSize by
          simp [machMsgReceiveEnd, Outcome.mr, hopt, hl],
      within_ipcKmsgPut, hsize]
    constructor
    · intro h
      refine ⟨?_, fun h => absurd h hlarge, fun _ _ => h,
        fun h => absurd h hsuccess, fun h => absurd h hsuccess, fun h => absurd h hsuccess⟩
      rintro (⟨-, h⟩ | h)
      · simp [hopt] at h
      · exact absurd h.1 hsuccess
    · intro h
      exact h.new_list ⟨hlarge, hmr⟩ hopt

theorem within_continue {allocs : ℕ → Bool} {t : ℕ} {q : QueueName} {blocked blocked' : State}
    {w : WaitResult} (hw : WordSizes beyond rcvSize kmsg) (hnew : kmsg.oldFormat = false)
    (hwaits : blocked.WaitsFirst t q (option.rcvOption beyond) rcvSize list)
    (harrives : blocked.Arrives allocs q kmsg blocked')
    (hfits : FitsBuffer beyond option rcvSize kmsg ikmDelta ans (allocs t) list) :
    (machMsgReceiveContinue beyond option ikmDelta ans alloc t w q blocked').Within rcvSize := by
  obtain ⟨after, hfirst⟩ := hwaits.first
  obtain ⟨hthread, -⟩ := harrives.first hwaits.nodup hfirst
  obtain ⟨-, -, -, hoption, hmaxSize, hlist⟩ := hwaits
  by_cases hshort : Shortage (allocs t) kmsg (option.rcvOption beyond) rcvSize list
  · rw [← hoption, ← hmaxSize, ← hlist] at hshort
    have hpanic := (@offer_of_shortage _ _ _ (blocked.ports kmsg.remotePort).ipSeqno hshort).1
    rw [← hthread] at hpanic
    rw [machMsgReceiveContinue, State.resumeReceive_of_decode hpanic]
    exact within_panicked rcvSize
  · rw [← hoption, ← hmaxSize, ← hlist] at hshort
    have hv := @verdict_of_not_shortage _ _ _ (blocked.ports kmsg.remotePort).ipSeqno hshort
    have hdecode := (congrArg Thread.decode hthread).trans hv.decode
    rw [machMsgReceiveContinue, State.resumeReceive_of_decode hdecode, hthread, hv.list, hoption,
      hmaxSize, hlist]
    exact (within_receiveFirst_iff hw hnew).mpr hfits

/-- A receive, whether it finds the message or waits for it, stays within its buffer just when
the sizes are these. -/
theorem receive_within_buffer_iff {allocs : ℕ → Bool} {t timeout : ℕ} {qq qb : QueueName}
    {rest : List Kmsg} {queued blocked blocked' : State} {w : WaitResult} {l : ListIn}
    (hw : WordSizes beyond rcvSize kmsg) (hnew : kmsg.oldFormat = false)
    (hqueued : (queued.mqueue qq).imqMessages = kmsg :: rest)
    (hblocked : ∀ list, scatterIn option l = .ok list →
      blocked.WaitsFirst t qb (option.rcvOption beyond) rcvSize list ∧
        blocked.Arrives allocs qb kmsg blocked') :
    (machMsgReceive beyond option rcvSize timeout l ikmDelta ans (allocs t) t qq
        queued).Within rcvSize ∧
      (∀ list, scatterIn option l = .ok list →
        (machMsgReceiveContinue beyond option ikmDelta ans alloc t w qb blocked').Within rcvSize) ↔
    ∀ list, scatterIn option l = .ok list →
      FitsBuffer beyond option rcvSize kmsg ikmDelta ans (allocs t) list := by
  cases hscatter : scatterIn option l with
  | error mr => simp [machMsgReceive, hscatter]
  | ok list =>
    obtain ⟨hwaits, harrives⟩ := hblocked list hscatter
    have hreturned := (@State.receivePass_queued queued (allocs t) t qq (option.rcvOption beyond)
      rcvSize timeout list kmsg rest hqueued).1
    simp only [machMsgReceive, hscatter, hreturned, Except.ok.injEq, forall_eq']
    rw [within_receiveFirst_iff hw hnew]
    exact ⟨And.left, fun h => ⟨h, within_continue hw hnew hwaits harrives h⟩⟩

/-- A message that is only a header. -/
private def headerKmsg : Kmsg := ⟨0, 0, false, false, false, false, 24, []⟩

private def plainOption : MsgOption := ⟨false, false, false, false, false, 0⟩

private def noListIn : ListIn := ⟨0, ⟨true, true, 0, 0, true⟩, [], 0⟩

private def headerSent : State :=
  ((State.start 5).sendPass (fun _ => true) 1 headerKmsg ⟨false, false⟩ 0).1

private def headerAwaited : State :=
  ((State.start 5).receivePass true 0 (.port 0) (plainOption.rcvOption (fun _ => 0)) 64 0 none).1

theorem receive_within_buffer_iff_header :
    (machMsgReceive (fun _ => 0) plainOption 64 0 noListIn 0 ⟨0, true, false⟩ true 0 (.port 0)
        headerSent).Within 64 ∧
      (∀ list, scatterIn plainOption noListIn = .ok list →
        (machMsgReceiveContinue (fun _ => 0) plainOption 0 ⟨0, true, false⟩ true 0 .awakened (.port 0)
          (headerAwaited.sendPass (fun _ => true) 1 headerKmsg ⟨false, false⟩ 0).1).Within 64) ↔
    ∀ list, scatterIn plainOption noListIn = .ok list →
      FitsBuffer (fun _ => 0) plainOption 64 headerKmsg 0 ⟨0, true, false⟩ true list := by
  have hw : WordSizes (fun _ => 0) 64 headerKmsg := ⟨by decide, by decide, fun _ => by decide⟩
  have hqueued : (headerSent.mqueue (.port 0)).imqMessages = [headerKmsg] := by decide
  have hwaits : headerAwaited.WaitsFirst 0 (.port 0) (plainOption.rcvOption (fun _ => 0)) 64 none :=
    (State.receivePass_waitsFirst rfl (by decide)).2
  have harrives : headerAwaited.Arrives (fun _ => true) (.port 0) headerKmsg
      (headerAwaited.sendPass (fun _ => true) 1 headerKmsg ⟨false, false⟩ 0).1 :=
    .send 1 ⟨false, false⟩ 0 rfl (by decide) rfl rfl
  have hblocked : ∀ list, scatterIn plainOption noListIn = .ok list →
      headerAwaited.WaitsFirst 0 (.port 0) (plainOption.rcvOption (fun _ => 0)) 64 list ∧
        headerAwaited.Arrives (fun _ => true) (.port 0) headerKmsg
          (headerAwaited.sendPass (fun _ => true) 1 headerKmsg ⟨false, false⟩ 0).1 := by
    rintro list ⟨⟩
    exact ⟨hwaits, harrives⟩
  exact receive_within_buffer_iff hw rfl hqueued hblocked

/-- The test of the size wraps for an empty buffer, and thirty-two bytes are written there. -/
theorem empty_buffer_overrun :
    ipcKmsgGet false 24 maxTrailerSize ⟨true, true, 0, 0, true⟩ = .ok (headerKmsg.msghSize, 0) ∧
    machMsgReceive (fun _ => 0) plainOption 0 0 noListIn 0 ⟨0, true, false⟩ true 0 (.port 0)
      headerSent = .returned 0 (.message 32) ∧
    ¬ (machMsgReceive (fun _ => 0) plainOption 0 0 noListIn 0 ⟨0, true, false⟩ true 0 (.port 0)
      headerSent).Within 0 := by
  refine ⟨by decide, by decide, fun h => ?_⟩
  have := h 0 32 (by decide)
  omega

end Darwin.Ipc.MessageQueue
