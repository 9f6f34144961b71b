import Darwin.Lib.BitWords
import Mathlib.Tactic.Simps.Basic

/-! # Message queues

The queue of a port or of a port set holds messages, or threads that wait for one. The
functions are those of `ipc_mqueue.c`; each runs under the lock of the queue it works on.
-/
namespace Darwin.Ipc.MessageQueue
open Darwin.Lib Function

/-! ## Messages and requests -/

/-- `mach_msg_return_t`, as far as `ipc_mqueue.c` stores or returns it. -/
inductive MachMsgReturn where
  | success
  | sendInProgress
  | sendTimedOut
  | sendInterrupted
  | rcvInProgress
  | rcvTimedOut
  | rcvTooLarge
  | rcvInterrupted
  | rcvPortChanged
  | rcvPortDied
  | rcvHeaderError
  | rcvInvalidType
  | rcvScatterSmall
  /-- `MACH_MSG_VM_KERNEL|MACH_RCV_BODY_ERROR` -/
  | rcvBodyErrorVmKernel
  deriving DecidableEq, Repr

def MachMsgReturn.code : MachMsgReturn → ℕ
  | success => 0
  | sendInProgress => 0x10000001
  | sendTimedOut => 0x10000004
  | sendInterrupted => 0x10000007
  | rcvInProgress => 0x10004001
  | rcvTimedOut => 0x10004003
  | rcvTooLarge => 0x10004004
  | rcvInterrupted => 0x10004005
  | rcvPortChanged => 0x10004006
  | rcvPortDied => 0x10004009
  | rcvHeaderError => 0x1000400b
  | rcvInvalidType => 0x1000400d
  | rcvScatterSmall => 0x1000400e
  | rcvBodyErrorVmKernel => 0x1000440c

def machMsgVmKernel : ℕ := 0x400

def MachMsgReturn.vmKernel (mr : MachMsgReturn) : Bool := mr.code &&& machMsgVmKernel ≠ 0

/-- `mach_msg_descriptor_t`. The union keeps `out_of_line.size` and `ool_ports.count` in one
word. -/
structure Descriptor where
  type : ℕ
  size : ℕ
  copy : ℕ
  deriving DecidableEq, Repr

def machMsgPortDescriptor : ℕ := 0

def machMsgOolDescriptor : ℕ := 1

def machMsgOolPortsDescriptor : ℕ := 2

def machMsgOverwrite : ℕ := 3

/-- `sizeof (mach_msg_header_t)` -/
def headerSize : ℕ := 24

/-- `sizeof (mach_msg_body_t)` -/
def bodySize : ℕ := 4

/-- `sizeof (mach_msg_descriptor_t)` -/
def descriptorSize : ℕ := 12

/-- A message in the kernel. `serial` is no field of the source: it tells the messages that a
port has accepted from each other. -/
structure Kmsg where
  serial : ℕ
  remotePort : ℕ
  /-- `MACH_MSGH_BITS_REMOTE` is `MACH_MSG_TYPE_PORT_SEND_ONCE` -/
  sendOnce : Bool
  oldFormat : Bool
  complex : Bool
  circular : Bool
  msghSize : ℕ
  descriptors : List Descriptor
  deriving DecidableEq, Repr

/-- The scatter list of a receive; `descriptors` are the `msgh_descriptor_count` many that the
code reads. -/
structure ScatterList where
  msghSize : ℕ
  descriptors : List Descriptor
  deriving DecidableEq, Repr

/-- `ith_rcv_option`, with the word that `REQUESTED_TRAILER_SIZE` reads for it. -/
structure RcvOption where
  oldFormat : Bool
  large : Bool
  timeout : Bool
  requestedTrailerSize : ℕ
  deriving DecidableEq, Repr

/-- The fields of a thread that senders and receivers exchange. -/
structure Thread where
  ithState : MachMsgReturn
  ithKmsg : Option Kmsg
  ithSeqno : ℕ
  ithMsize : ℕ
  ithRcvOption : RcvOption
  ithList : Option ScatterList
  deriving DecidableEq, Repr

/-! ## Scatter lists -/

/-- The type that the scatter descriptor for a gather descriptor must have. -/
def Descriptor.pairType (g : Descriptor) : ℕ :=
  if g.type = machMsgOolDescriptor then machMsgOolDescriptor else machMsgOolPortsDescriptor

/-- The loop of `ipc_kmsg_check_scatter` over the gather list; an error returns at once, and
otherwise the value is `size_error`. -/
def checkScatterLoop (large : Bool) (count : ℕ) :
    List Descriptor → List Descriptor → Bool → Except MachMsgReturn Bool
  | [], _, sizeError => .ok sizeError
  | g :: gather, scatter, sizeError =>
    if g.type = machMsgPortDescriptor then checkScatterLoop large count gather scatter sizeError
    else if count = 0 then
      if large then .ok true else .error .rcvScatterSmall
    else
      match scatter.dropWhile (fun d => d.type = machMsgPortDescriptor) with
      | [] => .ok sizeError
      | s :: scatter =>
        if s.type ≠ g.pairType then .error .rcvInvalidType
        else if s.copy = machMsgOverwrite ∧ s.size < g.size then
          if large then checkScatterLoop large count gather scatter true
          else .error .rcvScatterSmall
        else checkScatterLoop large count gather scatter sizeError

/-- A descriptor of the new scatter list: only the type and the size are filled in. -/
def gatherDescriptor (g : Descriptor) : Descriptor :=
  { type := g.type, size := if g.type = machMsgPortDescriptor then 0 else g.size, copy := 0 }

/-- `alloc` is whether `ikm_alloc` finds memory for the new list. -/
def ipcKmsgCheckScatter (alloc : Bool) (kmsg : Kmsg) (large : Bool) (list : ScatterList) :
    MachMsgReturn × ScatterList :=
  match checkScatterLoop large list.descriptors.length kmsg.descriptors list.descriptors false with
  | .error mr => (mr, list)
  | .ok false => (.success, list)
  | .ok true =>
    if alloc then
      (.rcvScatterSmall,
        { msghSize := bodySize + descriptorSize * kmsg.descriptors.length
          descriptors := kmsg.descriptors.map gatherDescriptor })
    else (.rcvBodyErrorVmKernel, list)

/-! ## A message for a blocked receiver -/

/-- What a sender does to the receiver that it has taken off the queue. -/
inductive Offer where
  /-- the receiver has the message, possibly with an error -/
  | taken (th : Thread)
  /-- the receiver runs again without it -/
  | refused (th : Thread)
  deriving DecidableEq, Repr

/-- The fields of a receiver after it has been offered a message. -/
def Offer.thread (kmsg : Kmsg) (seqno : ℕ) : Offer → Thread
  | .taken th => { th with ithKmsg := some kmsg, ithSeqno := seqno }
  | .refused th => th

def Offer.isTaken : Offer → Bool
  | .taken _ => true
  | .refused _ => false

/-- The body of the receiver loops of `ipc_mqueue_send` and `ipc_mqueue_move`. -/
def offer (alloc : Bool) (kmsg : Kmsg) (th : Thread) : Offer :=
  if kmsg.oldFormat then
    if !th.ithRcvOption.oldFormat then .taken { th with ithState := .rcvHeaderError }
    else if kmsg.msghSize ≤ th.ithMsize then .taken { th with ithState := .success }
    else .refused { th with ithState := .rcvTooLarge, ithMsize := kmsg.msghSize }
  else if th.ithRcvOption.oldFormat then
    if kmsg.complex ∨ headerSize < kmsg.msghSize ∨ th.ithMsize < headerSize then
      .taken { th with ithState := .rcvHeaderError }
    else .taken { th with ithState := .success }
  else if u32Sub th.ithMsize th.ithRcvOption.requestedTrailerSize < kmsg.msghSize then
    if th.ithRcvOption.large then
      .refused { th with ithState := .rcvTooLarge, ithMsize := kmsg.msghSize }
    else .taken { th with ithState := .rcvTooLarge }
  else
    match kmsg.complex, th.ithList with
    | true, some list =>
      let r := ipcKmsgCheckScatter alloc kmsg th.ithRcvOption.large list
      let th := { th with ithState := r.1, ithList := some r.2 }
      if r.1 = .success then .taken th
      else if r.1 = .rcvInvalidType ∨ r.1.vmKernel then .refused th
      else if th.ithRcvOption.large then .refused { th with ithMsize := kmsg.msghSize }
      else .taken th
    | _, _ => .taken { th with ithState := .success }

/-- The receiver loop. It returns the threads that stay on the queue, the threads' fields and
the receiver of the message, if there is one. -/
def offerAll (alloc : ℕ → Bool) (kmsg : Kmsg) (seqno : ℕ) :
    List ℕ → (ℕ → Thread) → List ℕ × (ℕ → Thread) × Option ℕ
  | [], threads => ([], threads, none)
  | t :: ts, threads =>
    let o := offer (alloc t) kmsg (threads t)
    let threads := update threads t (o.thread kmsg seqno)
    if o.isTaken then (ts, threads, some t) else offerAll alloc kmsg seqno ts threads

/-! ## A receiver for the first message -/

/-- What `ipc_mqueue_receive` has for its caller. -/
inductive Outcome where
  /-- the message and its sequence number -/
  | message (mr : MachMsgReturn) (kmsg : Kmsg) (seqno : ℕ)
  /-- the size of a message that stays, in place of the message -/
  | size (mr : MachMsgReturn) (size : ℕ)
  | code (mr : MachMsgReturn)
  | panic
  deriving DecidableEq, Repr

/-- The result of a receive, with the scatter list that the caller has afterwards. -/
structure Returned where
  outcome : Outcome
  list : Option ScatterList
  deriving DecidableEq, Repr

/-- The test that `ipc_mqueue_receive` makes of the first message of the queue. -/
def receiveFirst (alloc : Bool) (option : RcvOption) (maxSize : ℕ) (list : Option ScatterList)
    (kmsg : Kmsg) (seqno : ℕ) : Returned :=
  if kmsg.oldFormat then
    if !option.oldFormat then ⟨.message .rcvHeaderError kmsg seqno, list⟩
    else if maxSize < kmsg.msghSize then ⟨.size .rcvTooLarge kmsg.msghSize, list⟩
    else ⟨.message .success kmsg seqno, list⟩
  else if option.oldFormat then
    if kmsg.complex ∨ headerSize < kmsg.msghSize ∨ maxSize < headerSize then
      ⟨.message .rcvHeaderError kmsg seqno, list⟩
    else ⟨.message .success kmsg seqno, list⟩
  else if u32Sub maxSize option.requestedTrailerSize < kmsg.msghSize then
    if option.large then ⟨.size .rcvTooLarge kmsg.msghSize, list⟩
    else ⟨.message .rcvTooLarge kmsg seqno, list⟩
  else
    match kmsg.complex, list with
    | true, some l =>
      let r := ipcKmsgCheckScatter alloc kmsg option.large l
      if r.1 = .success then ⟨.message .success kmsg seqno, some r.2⟩
      else if r.1 = .rcvInvalidType ∨ r.1.vmKernel then ⟨.code r.1, some r.2⟩
      else if option.large then ⟨.size r.1 kmsg.msghSize, some r.2⟩
      else ⟨.message r.1 kmsg seqno, some r.2⟩
    | _, _ => ⟨.message .success kmsg seqno, list⟩

/-! ## The queues of ports and port sets -/

/-- `ipc_mqueue_t` -/
structure Mqueue where
  imqMessages : List Kmsg
  imqThreads : List ℕ
  deriving DecidableEq, Repr

inductive QueueName where
  | port (p : ℕ)
  | pset (ps : ℕ)
  deriving DecidableEq, Repr

structure Port where
  ipPset : Option ℕ
  ipMsgcount : ℕ
  ipQlimit : ℕ
  ipSeqno : ℕ
  ipBlocked : List ℕ
  deriving DecidableEq, Repr

/-- The options of a send; `MACH_SEND_SWITCH` only picks the thread that runs next. -/
structure SendOption where
  always : Bool
  timeout : Bool
  deriving DecidableEq, Repr

/-- Where a thread is between two locked sections. -/
inductive Phase where
  | idle
  /-- in `ipc_mqueue_send`, blocked or woken -/
  | sending (kmsg : Kmsg) (option : SendOption) (timeout : ℕ)
  /-- in `ipc_mqueue_receive`, blocked or woken -/
  | receiving (q : QueueName) (timeout : ℕ)
  /-- past the queue, about to lock the port -/
  | taking (mr : MachMsgReturn) (kmsg : Kmsg) (seqno : ℕ)
  deriving DecidableEq, Repr

/-- One message given to one thread. -/
structure Delivery where
  thread : ℕ
  kmsg : Kmsg
  seqno : ℕ
  deriving DecidableEq, Repr

/-- What has happened so far, port by port. No step reads it. -/
structure Log where
  accepted : ℕ → List Kmsg
  delivered : ℕ → List Delivery
  received : ℕ → List Delivery

structure State where
  mqueue : QueueName → Mqueue
  ports : ℕ → Port
  ipsActive : ℕ → Bool
  threads : ℕ → Thread
  phase : ℕ → Phase
  log : Log

namespace State

/-- Nothing has been sent yet, and no port is in a set. -/
def start (qlimit : ℕ) : State where
  mqueue _ := ⟨[], []⟩
  ports _ := ⟨none, 0, qlimit, 0, []⟩
  ipsActive _ := true
  threads _ := ⟨.success, none, 0, 0, ⟨false, false, false, 0⟩, none⟩
  phase _ := .idle
  log := ⟨fun _ => [], fun _ => [], fun _ => []⟩

/-- The queue that the messages of a port go to. -/
def home (s : State) (p : ℕ) : QueueName :=
  match (s.ports p).ipPset with
  | none => .port p
  | some ps => .pset ps

@[simps] def setPort (s : State) (p : ℕ) (port : Port) : State :=
  { s with ports := update s.ports p port }

@[simps] def setMqueue (s : State) (q : QueueName) (mqueue : Mqueue) : State :=
  { s with mqueue := update s.mqueue q mqueue }

@[simps] def setThread (s : State) (t : ℕ) (th : Thread) : State :=
  { s with threads := update s.threads t th }

@[simps] def setPhase (s : State) (t : ℕ) (ph : Phase) : State :=
  { s with phase := update s.phase t ph }

@[simps] def logAccepted (s : State) (p : ℕ) (kmsg : Kmsg) : State :=
  { s with log := { s.log with
      accepted := update s.log.accepted p (s.log.accepted p ++ [kmsg]) } }

@[simps] def logDelivered (s : State) (p : ℕ) (d : Delivery) : State :=
  { s with log := { s.log with
      delivered := update s.log.delivered p (s.log.delivered p ++ [d]) } }

@[simps] def logReceived (s : State) (p : ℕ) (d : Delivery) : State :=
  { s with log := { s.log with
      received := update s.log.received p (s.log.received p ++ [d]) } }

/-- `port->ip_seqno++`, for a message that thread `t` gets. -/
def giveSeqno (s : State) (t : ℕ) (kmsg : Kmsg) : State :=
  let port := s.ports kmsg.remotePort
  (s.setPort kmsg.remotePort { port with ipSeqno := u32 (port.ipSeqno + 1) }).logDelivered
    kmsg.remotePort ⟨t, kmsg, port.ipSeqno⟩

/-- A message comes to a queue: it goes to a blocked receiver or else to the end. -/
def deliver (alloc : ℕ → Bool) (q : QueueName) (kmsg : Kmsg) (s : State) : State :=
  let mqueue := s.mqueue q
  let r := offerAll alloc kmsg (s.ports kmsg.remotePort).ipSeqno mqueue.imqThreads s.threads
  let s := { s with threads := r.2.1 }
  match r.2.2 with
  | none => s.setMqueue q { imqMessages := mqueue.imqMessages ++ [kmsg], imqThreads := r.1 }
  | some t => (s.setMqueue q { mqueue with imqThreads := r.1 }).giveSeqno t kmsg

/-- A delivery touches only the queue `dest`, so that the messages may leave `source` all at
once. -/
def ipcMqueueMove (alloc : ℕ → Bool) (dest source : QueueName) (port : ℕ) (s : State) : State :=
  let oldq := s.mqueue source
  let rest := oldq.imqMessages.filter (fun kmsg => kmsg.remotePort ≠ port)
  (oldq.imqMessages.filter (fun kmsg => kmsg.remotePort = port)).foldl
    (fun s kmsg => s.deliver alloc dest kmsg) (s.setMqueue source { oldq with imqMessages := rest })

/-- The loop that wakes the threads of a list with the same state. -/
def wakeAll (mr : MachMsgReturn) (ts : List ℕ) (s : State) : State :=
  ts.foldl (fun s t => s.setThread t { s.threads t with ithState := mr }) s

def ipcMqueueChanged (q : QueueName) (mr : MachMsgReturn) (s : State) : State :=
  let mqueue := s.mqueue q
  (s.wakeAll mr mqueue.imqThreads).setMqueue q { mqueue with imqThreads := [] }

/-! ## Sending -/

/-- `port->ip_msgcount++`, for a message that the port accepts. -/
def accept (s : State) (kmsg : Kmsg) : State :=
  let port := s.ports kmsg.remotePort
  (s.setPort kmsg.remotePort { port with ipMsgcount := port.ipMsgcount + 1 }).logAccepted
    kmsg.remotePort kmsg

/-- A pass of the loop of `ipc_mqueue_send` for an active port of a user task, and what follows
it. `none` is for a sender that blocks. The message gets its number when the port counts it. -/
def sendPass (alloc : ℕ → Bool) (t : ℕ) (kmsg : Kmsg) (option : SendOption) (timeout : ℕ)
    (s : State) : State × Option MachMsgReturn :=
  let p := kmsg.remotePort
  let port := s.ports p
  if ¬ (port.ipMsgcount < port.ipQlimit ∨ option.always ∨ kmsg.sendOnce) then
    if option.timeout ∧ timeout = 0 then (s.setPhase t .idle, some .sendTimedOut)
    else
      (((s.setPort p { port with ipBlocked := port.ipBlocked ++ [t] }).setThread t
        { s.threads t with ithState := .sendInProgress }).setPhase t (.sending kmsg option timeout),
        none)
  -- the message would close a loop; it is destroyed as if it had been sent
  else if kmsg.circular then (s.setPhase t .idle, some .success)
  else
    let kmsg := { kmsg with serial := (s.log.accepted p).length }
    (((s.accept kmsg).deliver alloc (s.home p) kmsg).setPhase t .idle, some .success)

end State

/-- `ith_wait_result`; `interrupted` is also for `THREAD_SHOULD_TERMINATE`. -/
inductive WaitResult where
  | awakened
  | interrupted
  | timedOut
  | restart
  deriving DecidableEq, Repr

namespace State

/-- A sender that takes itself off the list of blocked senders. -/
def unblock (s : State) (p t : ℕ) : State :=
  s.setPort p { s.ports p with ipBlocked := (s.ports p).ipBlocked.erase t }

/-- `ipc_mqueue_send` when the sender runs again; `none` is for its panic. -/
def resumeSend (alloc : ℕ → Bool) (t : ℕ) (w : WaitResult) (kmsg : Kmsg) (option : SendOption)
    (timeout : ℕ) (s : State) : Option (State × Option MachMsgReturn) :=
  if (s.threads t).ithState = .success then some (s.sendPass alloc t kmsg option timeout)
  else
    let s := s.unblock kmsg.remotePort t
    match w with
    | .interrupted => some (s.setPhase t .idle, some .sendInterrupted)
    | .timedOut => some (s.sendPass alloc t kmsg option 0)
    | _ => none

/-! ## Receiving -/

/-- The end of a receive on the queue: with a message the thread goes on to the port. -/
def finishQueue (t : ℕ) (o : Outcome) (s : State) : State :=
  match o with
  | .message mr kmsg seqno => s.setPhase t (.taking mr kmsg seqno)
  | _ => s.setPhase t .idle

/-- A pass of the loop of `ipc_mqueue_receive`; `none` is for a thread that blocks. -/
def receivePass (alloc : Bool) (t : ℕ) (q : QueueName) (option : RcvOption) (maxSize timeout : ℕ)
    (list : Option ScatterList) (s : State) : State × Option Returned :=
  match (s.mqueue q).imqMessages with
  | kmsg :: kmsgs =>
    let r := receiveFirst alloc option maxSize list kmsg (s.ports kmsg.remotePort).ipSeqno
    match r.outcome with
    | .message _ _ _ =>
      (((s.setMqueue q { s.mqueue q with imqMessages := kmsgs }).giveSeqno t kmsg).finishQueue t
        r.outcome, some r)
    | _ => (s.finishQueue t r.outcome, some r)
  | [] =>
    if option.timeout ∧ timeout = 0 then
      (s.finishQueue t (.code .rcvTimedOut), some ⟨.code .rcvTimedOut, list⟩)
    else
      (((s.setMqueue q { s.mqueue q with imqThreads := (s.mqueue q).imqThreads ++ [t] }).setThread t
        { s.threads t with
          ithState := .rcvInProgress, ithMsize := maxSize, ithRcvOption := option
          ithList := list }).setPhase t (.receiving q timeout), none)

end State

/-- The decoding of `ith_state` by a receiver that runs again; `none` when the wait ended
without any. -/
def Thread.decode (th : Thread) : Option Outcome :=
  let returnKmsg :=
    match th.ithKmsg with
    | some kmsg => Outcome.message th.ithState kmsg th.ithSeqno
    | none => .panic
  match th.ithState with
  | .success | .rcvHeaderError => some returnKmsg
  | .rcvInvalidType | .rcvPortDied | .rcvPortChanged => some (.code th.ithState)
  | .rcvTooLarge | .rcvScatterSmall =>
    if ¬ (th.ithRcvOption.large ∨ th.ithRcvOption.oldFormat) then some returnKmsg
    else some (.size th.ithState th.ithMsize)
  | .rcvInProgress => none
  -- strange ith_state
  | _ => some .panic

namespace State

/-- A receiver that takes itself off its queue. -/
def leaveQueue (s : State) (q : QueueName) (t : ℕ) : State :=
  s.setMqueue q { s.mqueue q with imqThreads := (s.mqueue q).imqThreads.erase t }

/-- `ipc_mqueue_receive` from `after_thread_block` on. -/
def resumeReceive (alloc : Bool) (t : ℕ) (w : WaitResult) (q : QueueName)
    (s : State) : State × Option Returned :=
  let th := s.threads t
  match th.decode with
  | some o => (s.finishQueue t o, some ⟨o, th.ithList⟩)
  | none =>
    let s := s.leaveQueue q t
    match w with
    | .interrupted =>
      (s.finishQueue t (.code .rcvInterrupted), some ⟨.code .rcvInterrupted, th.ithList⟩)
    | .timedOut => s.receivePass alloc t q th.ithRcvOption th.ithMsize 0 th.ithList
    | _ => (s, some ⟨.panic, th.ithList⟩)

/-- `port->ip_msgcount--`, for a message that thread `t` has received. -/
def release (s : State) (t : ℕ) (kmsg : Kmsg) (seqno : ℕ) : State :=
  let port := s.ports kmsg.remotePort
  (s.setPort kmsg.remotePort { port with ipMsgcount := port.ipMsgcount - 1 }).logReceived
    kmsg.remotePort ⟨t, kmsg, seqno⟩

/-- A sender is woken when there is one and there is room again. -/
def wakeSender (s : State) (p : ℕ) : State :=
  let port := s.ports p
  match port.ipBlocked with
  | [] => s
  | sender :: senders =>
    if port.ipMsgcount < port.ipQlimit then
      (s.setPort p { port with ipBlocked := senders }).setThread sender
        { s.threads sender with ithState := .success }
    else s

/-- The end of `ipc_mqueue_receive` under the lock of the port, which is active. -/
def finishReceive (t : ℕ) (kmsg : Kmsg) (seqno : ℕ) (s : State) : State :=
  ((s.release t kmsg seqno).wakeSender kmsg.remotePort).setPhase t .idle

/-! ## Port sets and queue limits -/

def ipcPsetAdd (alloc : ℕ → Bool) (ps p : ℕ) (s : State) : State :=
  let s := s.setPort p { s.ports p with ipPset := some ps }
  (s.ipcMqueueMove alloc (.pset ps) (.port p) p).ipcMqueueChanged (.port p) .rcvPortChanged

def ipcPsetRemove (alloc : ℕ → Bool) (ps p : ℕ) (s : State) : State :=
  let s := s.setPort p { s.ports p with ipPset := none }
  s.ipcMqueueMove alloc (.port p) (.pset ps) p

def ipcPsetMove (alloc alloc' : ℕ → Bool) (p : ℕ) (nset : Option ℕ) (s : State) : State :=
  match (s.ports p).ipPset, nset with
  | none, none => s
  | none, some nset => s.ipcPsetAdd alloc nset p
  | some oset, none => s.ipcPsetRemove alloc oset p
  | some oset, some nset =>
    if oset = nset then s else (s.ipcPsetRemove alloc oset p).ipcPsetAdd alloc' nset p

def ipcPsetDestroy (ps : ℕ) (s : State) : State :=
  { s with ipsActive := update s.ipsActive ps false }.ipcMqueueChanged (.pset ps)
    .rcvPortDied

/-- The senders that the new limit lets through are woken first. -/
def ipcPortSetQlimit (p qlimit : ℕ) (s : State) : State :=
  let port := s.ports p
  let wakeup := qlimit - port.ipQlimit
  (s.wakeAll .success (port.ipBlocked.take wakeup)).setPort p
    { port with ipQlimit := qlimit, ipBlocked := port.ipBlocked.drop wakeup }

end State

/-! ## What a delivery does -/

/-- A message has passed the threads `refused` of the list `ts` and has come to `taker`, or to
the end of the list; `threads'` are the fields of the threads afterwards. -/
structure Offered (alloc : ℕ → Bool) (kmsg : Kmsg) (seqno : ℕ) (ts : List ℕ) (threads : ℕ → Thread)
    (refused rest : List ℕ) (taker : Option ℕ) (threads' : ℕ → Thread) : Prop where
  split : ts = refused ++ (taker.toList ++ rest)
  rest_nil : taker = none → rest = []
  refuses : ∀ u ∈ refused, (offer (alloc u) kmsg (threads u)).isTaken = false
  takes : ∀ u ∈ taker, (offer (alloc u) kmsg (threads u)).isTaken = true
  offered : ∀ u, u ∈ refused ∨ u ∈ taker →
    threads' u = (offer (alloc u) kmsg (threads u)).thread kmsg seqno
  others : ∀ u, u ∉ refused → u ∉ taker → threads' u = threads u

theorem offerAll_cases (alloc : ℕ → Bool) (kmsg : Kmsg) (seqno : ℕ) {ts : List ℕ}
    (hnd : ts.Nodup) (threads : ℕ → Thread) :
    ∃ refused rest taker threads',
      offerAll alloc kmsg seqno ts threads = (rest, threads', taker) ∧
      Offered alloc kmsg seqno ts threads refused rest taker threads' := by
  induction ts generalizing threads with
  | nil =>
    exact ⟨[], [], none, threads, rfl, rfl, fun _ => rfl, by simp, by simp, by simp, fun _ _ _ => rfl⟩
  | cons t ts ih =>
    obtain ⟨ht, hnd⟩ := List.nodup_cons.mp hnd
    rw [offerAll]
    cases htaken : (offer (alloc t) kmsg (threads t)).isTaken with
    | true =>
      refine ⟨[], ts, some t, _, if_pos rfl, rfl, by simp, by simp, by simpa, ?_, ?_⟩
      · rintro u (hu | hu)
        · cases hu
        · obtain rfl : t = u := by simpa using hu
          rw [update_self]
      · intro u _ hu
        rw [update_of_ne (by simpa [eq_comm] using hu)]
    | false =>
      obtain ⟨refused, rest, taker, threads', he, ho⟩ :=
        ih hnd (update threads t ((offer (alloc t) kmsg (threads t)).thread kmsg seqno))
      have hne : ∀ u, u ∈ refused ∨ u ∈ taker → u ≠ t := by
        rintro u hu rfl
        refine ht ?_
        rw [ho.split]
        rcases hu with hu | hu
        · exact List.mem_append_left _ hu
        · exact List.mem_append_right _ (List.mem_append_left _ (by simpa using hu))
      have htt : threads' t = (offer (alloc t) kmsg (threads t)).thread kmsg seqno := by
        rw [ho.others t (fun h => hne t (.inl h) rfl) (fun h => hne t (.inr h) rfl),
          update_self]
      refine ⟨t :: refused, rest, taker, threads', he, by simp [ho.split], ho.rest_nil, ?_, ?_, ?_, ?_⟩
      · rintro u hu
        obtain rfl | hu := List.mem_cons.mp hu
        · exact htaken
        · simpa [hne u (.inl hu)] using ho.refuses u hu
      · intro u hu
        simpa [hne u (.inr hu)] using ho.takes u hu
      · rintro u hu
        by_cases hut : u = t
        · rw [hut, htt]
        · have hu : u ∈ refused ∨ u ∈ taker := hu.imp_left (fun h => by simpa [hut] using h)
          simpa [hut] using ho.offered u hu
      · intro u hu hu'
        obtain ⟨hut, hu⟩ := not_or.mp (fun h => hu (List.mem_cons.mpr h))
        simpa [hut] using ho.others u hu hu'

/-- The state after a delivery to queue `q`. -/
def State.delivered (s : State) (q : QueueName) (kmsg : Kmsg) (rest : List ℕ)
    (threads' : ℕ → Thread) : Option ℕ → State
  | none => { s with threads := threads' }.setMqueue q
      { imqMessages := (s.mqueue q).imqMessages ++ [kmsg], imqThreads := rest }
  | some t => ({ s with threads := threads' }.setMqueue q
      { s.mqueue q with imqThreads := rest }).giveSeqno t kmsg

theorem State.deliver_cases (alloc : ℕ → Bool) (q : QueueName) (kmsg : Kmsg) {s : State}
    (hnd : (s.mqueue q).imqThreads.Nodup) :
    ∃ refused rest taker threads',
      Offered alloc kmsg (s.ports kmsg.remotePort).ipSeqno (s.mqueue q).imqThreads s.threads refused
        rest taker threads' ∧
      s.deliver alloc q kmsg = s.delivered q kmsg rest threads' taker := by
  obtain ⟨refused, rest, taker, threads', he, ho⟩ :=
    offerAll_cases alloc kmsg (s.ports kmsg.remotePort).ipSeqno hnd s.threads
  refine ⟨refused, rest, taker, threads', ho, ?_⟩
  rw [deliver]
  simp only [he]
  cases taker <;> rfl

end Darwin.Ipc.MessageQueue
