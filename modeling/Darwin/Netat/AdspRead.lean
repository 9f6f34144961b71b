import Darwin.Netat.Adsp

/-! # Reads from an ADSP stream

A packet that is in sequence goes to the receive queue. A read takes bytes from there, and what it has
got so far is attached to it. A read that is not complete while its caller waits is released; a
duplicate of its request, with the data, stays.

Whether memory is available is told for each allocation. What the function for packets to send does
afterwards is left out.
-/
namespace Darwin.Netat

def errDSPQueueSize : ℤ := -1274
def errState : ℤ := -1278

def bCtlRetransmit : BitVec 16 := 0x100

/-- The part of `struct adspcmd` that is for reads. -/
structure Adspcmd where
  reqCount : BitVec 16
  actCount : BitVec 16
  eom : Bool
  /-- Whether an ioctl waits for the request. -/
  ioc : Bool
  ioResult : ℤ
  /-- The chain behind the request. -/
  data : List Gbuf

/-- `CCB`. -/
structure Ccb where
  state : State
  send : SendPart
  recvSeq : Word
  badSeqCnt : BitVec 8
  rbuf : List Message
  crbuf : Option Message
  rData : Bool
  rbuflen : BitVec 16
  rbufFull : Bool
  /-- Outstanding reads. -/
  rpb : List Adspcmd
  /-- The requests that have been sent up, each with its data. -/
  sent : List Adspcmd
  /-- How many allocations there have been. -/
  allocs : ℕ

def ofBufs : List Gbuf → Option Message
  | [] => none
  | b :: rest => some ⟨b, rest⟩

/-- `gbuf_linkb`. -/
def Message.linkb (m mp : Message) : Message := ⟨m.head, m.cont ++ mp.bufs⟩

/-- `gbuf_msgsize`. -/
def gbufMsgsize (bufs : List Gbuf) : ℤ := (bufs.map Gbuf.len).sum

/-! ## Packets -/

/-- A data packet. One that comes from the same node is a chain: the headers, then copies of the
buffers of the sender. Its length comes from the ten bits of a datagram's. -/
structure Packet where
  frame : AdspFrame
  /-- How many bytes there are in front of the data. -/
  header : ℕ
  mp : Message
  header_le : header ≤ mp.head.bytes.length
  bytes_lt : mp.bytes.length < 2 ^ 10
  below_eq : ∀ b ∈ mp.bufs, b.below = 0

namespace Packet
variable (p : Packet)

def data : List Byte := p.mp.bytes.drop p.header

def eom : Bool := p.frame.descriptor &&& adspEomBit ≠ 0

def eomCount : ℕ := if p.eom then 1 else 0

end Packet

/-- The current message with new data. -/
def currentWith (crbuf : Option Message) (mp : Message) : Message :=
  match crbuf with
  | some m => m.linkb mp
  | none => mp

/-- New data is linked to the current message, and ends it with the end-of-message bit. -/
def linkData (eom : Bool) (mp : Message) (sp : Ccb) : Ccb :=
  if !sp.rData then
    if eom then { sp with rData := true, rbuf := [mp] } else { sp with rData := true, crbuf := some mp }
  else if eom then { sp with rbuf := sp.rbuf ++ [currentWith sp.crbuf mp], crbuf := none }
  else { sp with crbuf := some (currentWith sp.crbuf mp) }

/-- `RXData` up to its calls at the end: what it does to the receive queue. The read pointer is moved in the
first buffer only, whatever there is in it. -/
def storeData (p : Packet) (sp : Ccb) : Ccb :=
  let len := p.data.length
  if GT p.frame.pktFirstByteSeq sp.recvSeq then
    let badSeqCnt := sp.badSeqCnt + 1
    { sp with
      badSeqCnt := badSeqCnt
      send := if badSeqCnt.slt sp.badSeqCnt then { sp.send with sendCtl := sp.send.sendCtl ||| bCtlRetransmit }
        else sp.send }
  else if LTE (p.frame.pktFirstByteSeq + BitVec.ofNat 32 len + BitVec.ofNat 32 p.eomCount) sp.recvSeq then sp
  else
    let cnt := ((sp.recvSeq - p.frame.pktFirstByteSeq).truncate 16).toInt
    let mp := ⟨p.mp.head.rinc (p.header + cnt), p.mp.cont⟩
    let cnt := (BitVec.ofInt 16 (len - cnt)).signExtend 32
    linkData p.eom mp { sp with badSeqCnt := 0, recvSeq := sp.recvSeq + cnt + BitVec.ofNat 32 p.eomCount }

/-! ## The read queue -/

/-- The loop that takes whole buffers. -/
def takeBufs (cnt : BitVec 16) : List Gbuf → List Gbuf × List Gbuf × BitVec 16
  | [] => ([], [], cnt)
  | b :: rest =>
    if BitVec.ofInt 16 b.len ≤ cnt then
      let r := takeBufs (cnt - BitVec.ofInt 16 b.len) rest
      (b :: r.1, r.2)
    else ([], b :: rest, cnt)

/-- The oldest data: the first message, or what there is of the current one. -/
def oldest (sp : Ccb) : List Gbuf × Bool × Ccb :=
  match sp.rbuf with
  | mp :: rest => (mp.bufs, true, { sp with rbuf := rest })
  | [] =>
    match sp.crbuf with
    | some mp => (mp.bufs, false, { sp with crbuf := none })
    | none => ([], false, sp)

def restore (eom : Bool) (mp : List Gbuf) (sp : Ccb) : Ccb :=
  if eom then { sp with rbuf := (ofBufs mp).toList ++ sp.rbuf } else { sp with crbuf := ofBufs mp }

/-- The request has less room than there is data. The last bytes are in a copy of their buffer. (To copy one
of negative length is a panic, which is left out.) -/
def takePart (avail : ℕ → Bool) (pb : Adspcmd) (mp : List Gbuf) (sp : Ccb) : Adspcmd × List Gbuf × Ccb :=
  let cnt := pb.reqCount - pb.actCount
  let (taken, left, cnt) := takeBufs cnt mp
  let pb := { pb with actCount := pb.reqCount, data := pb.data ++ taken }
  if cnt = 0 then (pb, left, sp)
  else
    match left with
    | [] => (pb, left, sp)
    | b :: rest =>
      let sp' := { sp with allocs := sp.allocs + 1 }
      if avail sp.allocs then
        ({ pb with data := pb.data ++ [{ b with bytes := b.bytes.take cnt.toNat }] }, b.rinc cnt.toNat :: rest, sp')
      else ({ pb with actCount := pb.actCount - cnt }, left, sp')

def noMoreData (sp : Ccb) : Ccb := if sp.rbuf.isEmpty && sp.crbuf.isNone then { sp with rData := false } else sp

/-- The end of a turn, which completes the request if it is full. -/
def completeRead (pb : Adspcmd) (rest : List Adspcmd) (eom : Bool) (sp : Ccb) : Ccb :=
  let pb := { pb with eom := eom }
  let sp := noMoreData sp
  if eom || decide (pb.reqCount ≤ pb.actCount) || (sp.state == .closed && !sp.rData) then
    { sp with rpb := rest, sent := sp.sent ++ [{ pb with ioResult := 0 }] }
  else { sp with rpb := pb :: rest }

/-- One turn of the loop of `CheckReadQueue`, for the first request. -/
def readTurn (avail : ℕ → Bool) (pb : Adspcmd) (rest : List Adspcmd) (sp : Ccb) : Ccb :=
  if pb.reqCount = 0 then { sp with rpb := rest, sent := sp.sent ++ [{ pb with ioResult := 0 }] }
  else
    let (mp, eom, sp) := oldest sp
    let cnt := BitVec.ofInt 16 (gbufMsgsize mp)
    if pb.reqCount - pb.actCount < cnt then
      let (pb, left, sp) := takePart avail pb mp sp
      completeRead pb rest false (restore eom left sp)
    else completeRead { pb with actCount := pb.actCount + cnt, data := pb.data ++ mp } rest eom sp

/-- The loop, as long as there is data and a request. -/
def readLoop (avail : ℕ → Bool) : ℕ → Ccb → Option Ccb
  | 0, _ => none
  | n + 1, sp =>
    match sp.rData, sp.rpb with
    | true, pb :: rest => readLoop avail n (readTurn avail pb rest sp)
    | _, _ => some sp

/-- What is done with the requests that are left. -/
def leftReads (avail : ℕ → Bool) (sp : Ccb) : Ccb :=
  match sp.rpb with
  | [] => sp
  | pb :: rest =>
    if sp.state = .closed then
      { sp with
        rpb := []
        sent := sp.sent ++
          (pb :: rest).map (fun pb => { pb with ioResult := 0, actCount := 0, eom := false }) }
    else if pb.ioc then
      let sp' := { sp with allocs := sp.allocs + 1 }
      if avail sp.allocs then
        { sp' with
          rpb := { pb with ioc := false, ioResult := 1 } :: rest
          sent := sp.sent ++ [{ pb with ioResult := 1, data := [] }] }
      else
        let sp' := { sp' with rpb := rest, sent := sp.sent ++ [{ pb with ioResult := errDSPQueueSize, data := [] }] }
        match ofBufs pb.data with
        | none => sp'
        | some mp => { sp' with crbuf := some mp, rData := true }
    else sp

def calcRecvQ (sp : Ccb) : ℤ :=
  if sp.rData then (sp.rbuf.map (fun m => gbufMsgsize m.bufs)).sum + gbufMsgsize (sp.crbuf.toList.flatMap Message.bufs)
  else 0

/-- `CalcRecvWdw`, which notes when the buffer is full. -/
def calcRecvWdw (sp : Ccb) : ℤ × Ccb :=
  let bytes := sp.rbuflen.toInt - calcRecvQ sp
  if bytes ≤ 16 then (0, { sp with rbufFull := true }) else ((bytes + bytes + bytes) / 4 + 1, sp)

/-- The window is opened when a quarter of the buffer is free. -/
def openWindow (sp : Ccb) : Ccb :=
  if sp.rbufFull then
    let (wdw, sp) := calcRecvWdw sp
    if sp.rbuflen.toInt / 4 < wdw then
      { sp with rbufFull := false, send := { sp.send with sendDataAck := true, callSend := true } }
    else sp
  else sp

/-- `CheckReadQueue`. -/
def checkReadQueue (avail : ℕ → Bool) (fuel : ℕ) (sp : Ccb) : Option Ccb :=
  (readLoop avail fuel sp).map (fun sp => openWindow (leftReads avail sp))

/-- `RXData`. -/
def rxData (avail : ℕ → Bool) (fuel : ℕ) (ticks : Word) (p : Packet) (sp : Ccb) : Option Ccb :=
  let sp := storeData p sp
  checkReadQueue avail fuel { sp with send := checkRecvSeq (sp.state == .closing) ticks p.frame sp.send }

/-- `adspRead`. -/
def adspRead (avail : ℕ → Bool) (fuel : ℕ) (pb : Adspcmd) (sp : Ccb) : Option Ccb :=
  if sp.state ≠ .open ∧ sp.state ≠ .closing ∧ sp.state ≠ .closed then
    some { sp with sent := sp.sent ++ [{ pb with ioResult := errState }] }
  else if sp.rData && sp.rpb.isEmpty then checkReadQueue avail fuel { sp with rpb := sp.rpb ++ [pb] }
  else if pb.reqCount = 0 ∧ sp.rpb.isEmpty = true then some { sp with sent := sp.sent ++ [{ pb with ioResult := 0 }] }
  else
    let sp' := { sp with allocs := sp.allocs + 1 }
    if avail sp.allocs then
      some { sp' with
        rpb := sp.rpb ++ [{ pb with ioc := false, ioResult := 1 }]
        sent := sp.sent ++ [{ pb with ioResult := 1 }] }
    else some { sp' with sent := sp.sent ++ [{ pb with ioResult := errDSPQueueSize }] }

end Darwin.Netat
