import Mathlib.Data.BitVec
import Mathlib.Tactic.SplitIfs

/-! # The ADSP stream

A connection control block has the queues of data that is sent and received. A queue is a list of
messages that are complete, followed by one that is not; a message is a chain of buffers.

The wake-up of a writer, and the timers apart from the one for retransmission, are left out.
-/
namespace Darwin.Netat

abbrev Byte := BitVec 8
abbrev Word := BitVec 32

/-! ## Sequence numbers -/

def GT (x y : Word) : Prop := 0 < (x - y).toInt
def LT (x y : Word) : Prop := (x - y).toInt < 0
def GTE (x y : Word) : Prop := 0 ≤ (x - y).toInt
def LTE (x y : Word) : Prop := (x - y).toInt ≤ 0

instance (x y : Word) : Decidable (GT x y) := inferInstanceAs (Decidable (_ < _))
instance (x y : Word) : Decidable (LT x y) := inferInstanceAs (Decidable (_ < _))
instance (x y : Word) : Decidable (GTE x y) := inferInstanceAs (Decidable (_ ≤ _))
instance (x y : Word) : Decidable (LTE x y) := inferInstanceAs (Decidable (_ ≤ _))

/-! ## Buffers -/

/-- `gbuf_t`. The memory in front of the read pointer is still there: `before 0` is the byte next to
it. Only in received buffers is the pointer moved behind the end, `below` bytes far. -/
structure Gbuf where
  bytes : List Byte
  before : ℕ → Byte
  below : ℕ

/-- `gbuf_len`. -/
def Gbuf.len (b : Gbuf) : ℤ := b.bytes.length - b.below

/-- `gbuf_rinc`, which also takes the pointer back (in buffers that are sent). -/
def Gbuf.rinc (b : Gbuf) : Int → Gbuf
  | .ofNat n =>
    { bytes := b.bytes.drop n
      before := fun i => if i < n then b.bytes.getD (n - 1 - i) 0 else b.before (i - n)
      below := b.below + (n - b.bytes.length) }
  | .negSucc n =>
    { bytes := (List.range (n + 1)).map (fun i => b.before (n - i)) ++ b.bytes
      before := fun i => b.before (i + (n + 1))
      below := b.below }

/-- A chain by `gbuf_cont`, which has at least one buffer. -/
structure Message where
  head : Gbuf
  cont : List Gbuf

namespace Message

def bufs (m : Message) : List Gbuf := m.head :: m.cont

def bytes (m : Message) : List Byte := m.bufs.flatMap Gbuf.bytes

/-- `gbuf_msgsize`, for buffers that are sent. -/
def msgsize (m : Message) : ℕ := (m.bufs.map (fun b => b.bytes.length)).sum

end Message

/-! ## The connection control block -/

/-- `struct adsp_frame`. -/
structure AdspFrame where
  descriptor : Byte
  pktFirstByteSeq : Word
  pktNextRecvSeq : Word
  pktRecvWdw : BitVec 16

def adspAckReqBit : Byte := 0x40
def adspEomBit : Byte := 0x20

/-- The state of the connection end. -/
inductive State where
  | listening
  | passive
  | opening
  | open
  | closing
  | closed
  deriving DecidableEq, Repr

/-- The part of `CCB` that is for sending. -/
structure SendPart where
  firstRtmtSeq : Word
  sendWdwSeq : Word
  maxSendSeq : Word
  timerSeq : Word
  sendStamp : Word
  sbuf : List Message
  csbuf : Option Message
  sData : Bool
  /-- Outstanding send attentions and forward resets. -/
  sapb : Bool
  frpb : Bool
  sendCtl : BitVec 16
  pktSendMax : BitVec 8
  pktSendCnt : BitVec 8
  roundTrip : BitVec 16
  deviation : BitVec 16
  rtmtInterval : BitVec 16
  waitingAck : Bool
  resentData : Bool
  sendDataAck : Bool
  sendAttnAck : Bool
  callSend : Bool
  noXmitFlow : Bool
  writeFlush : Bool
  /-- Whether `RetryTimer` is running. -/
  retryTimer : Bool

def bCtlClose : BitVec 16 := 0x20

/-- `CheckOkToClose`. -/
def checkOkToClose (sp : SendPart) : Bool × SendPart :=
  if sp.sData || sp.sapb || sp.frpb || sp.sendAttnAck || sp.sendDataAck then (false, sp)
  else (true, { sp with sendCtl := sp.sendCtl ||| bCtlClose, callSend := true })

/-! ## Acknowledgements -/

/-- The loop of `releaseData`, over the buffers of a message. -/
def releaseFrom (b : Gbuf) : List Gbuf → Int → Option Message
  | [], len => if len < b.bytes.length then some ⟨b.rinc len, []⟩ else none
  | b' :: rest, len =>
    if len < b.bytes.length then some ⟨b.rinc len, b' :: rest⟩
    else if len - b.bytes.length ≠ 0 then releaseFrom b' rest (len - b.bytes.length)
    else some ⟨b', rest⟩

def releaseData (mp : Message) (len : Int) : Option Message := releaseFrom mp.head mp.cont len

/-- The average of the round trips, when data was sent without retries. -/
def updateRoundTrip (ticks : Word) (sp : SendPart) : SendPart :=
  let diff := (ticks - sp.sendStamp).truncate 16 / 10 - sp.roundTrip + 1
  let roundTrip := sp.roundTrip + diff.sshiftRight 3
  let diff := if diff.msb then -diff else diff
  let deviation :=
    sp.deviation + ((diff.signExtend 32 - sp.deviation.signExtend 32).sshiftRight 2).truncate 16
  { sp with
    roundTrip := roundTrip
    deviation := deviation
    rtmtInterval := roundTrip + 2 * deviation
    pktSendMax := if !sp.noXmitFlow && sp.pktSendMax.slt 50 then sp.pktSendMax + 1 else sp.pktSendMax
    noXmitFlow := false }

/-- An acknowledgement of what the timer waits for. -/
def ackTimer (ticks : Word) (pktNextRecvSeq : Word) (sp : SendPart) : SendPart :=
  if GTE pktNextRecvSeq sp.timerSeq ∧ sp.waitingAck = true then
    let sp := { sp with waitingAck := false, pktSendCnt := 0, retryTimer := false }
    if !sp.resentData then updateRoundTrip ticks sp else { sp with resentData := false }
  else sp

/-- One turn of the loop over the blocks, and whether there is another. -/
def ackBlock (closing : Bool) (pktNextRecvSeq : Word) (sp : SendPart) : SendPart × Bool :=
  let (block, eom, sp) :=
    match sp.sbuf with
    | mp :: rest => (some mp, 1, { sp with sbuf := rest })
    | [] => (sp.csbuf, 0, { sp with csbuf := none })
  match block with
  | none => ({ sp with sData := false }, false)
  | some mp =>
    let hlen := mp.msgsize
    if LTE (sp.firstRtmtSeq + BitVec.ofNat 32 eom + BitVec.ofNat 32 hlen) pktNextRecvSeq then
      let sp := { sp with firstRtmtSeq := sp.firstRtmtSeq + BitVec.ofNat 32 (eom + hlen) }
      if sp.sbuf.isEmpty && sp.csbuf.isNone then
        let sp := { sp with sData := false, writeFlush := false }
        (if closing then (checkOkToClose sp).2 else sp, false)
      else (sp, decide (LT sp.firstRtmtSeq pktNextRecvSeq))
    else
      let acked := (pktNextRecvSeq - sp.firstRtmtSeq).truncate 16
      let left := releaseData mp acked.toInt
      let sp := if eom = 1 then { sp with sbuf := left.toList ++ sp.sbuf } else { sp with csbuf := left }
      ({ sp with firstRtmtSeq := pktNextRecvSeq }, false)

/-- The loop; every turn that is not the last one takes a block from the queue. -/
def ackBlocks (closing : Bool) (pktNextRecvSeq : Word) : ℕ → SendPart → SendPart
  | 0, sp => sp
  | n + 1, sp =>
    let (sp, again) := ackBlock closing pktNextRecvSeq sp
    if again then ackBlocks closing pktNextRecvSeq n sp else sp

/-- The acknowledgement of data in the queue. -/
def ackData (closing : Bool) (ticks : Word) (pktNextRecvSeq : Word) (sp : SendPart) : SendPart :=
  if GT pktNextRecvSeq sp.maxSendSeq then sp
  else
    let sp := ackTimer ticks pktNextRecvSeq sp
    if LTE pktNextRecvSeq sp.firstRtmtSeq then sp
    else if !sp.sData then sp
    else
      let sp := ackBlocks closing pktNextRecvSeq (sp.sbuf.length + 1) sp
      if sp.sData then { sp with callSend := true } else sp

/-- `CheckRecvSeq`. -/
def checkRecvSeq (closing : Bool) (ticks : Word) (f : AdspFrame) (sp : SendPart) : SendPart :=
  let sp := if f.descriptor &&& adspAckReqBit ≠ 0 then { sp with sendDataAck := true, callSend := true } else sp
  let sp := ackData closing ticks f.pktNextRecvSeq sp
  let sendWdwSeq := f.pktRecvWdw.zeroExtend 32 - 1 + f.pktNextRecvSeq
  if GT sendWdwSeq sp.sendWdwSeq then { sp with callSend := true, sendWdwSeq := sendWdwSeq } else sp

end Darwin.Netat
