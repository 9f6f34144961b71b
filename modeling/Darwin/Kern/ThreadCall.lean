import Mathlib.Logic.Function.Basic
import Mathlib.Data.Int.Notation
import Mathlib.Data.Nat.Notation

/-! # Callouts

Entries for calls wait on three queues: the free internal entries, the pending calls and the
delayed ones. The timer interrupt moves expired calls to the pending queue, one at a time and
through a queue of its own, and callout threads take them from there.

A queue is the list of its entries from the head on. An entry that is linked on two queues is
in two lists.
-/
namespace Darwin.Kern
open Function

/-! ## Time -/

/-- `tvalspec_t`. -/
structure Tvalspec where
  tvSec : ℕ
  tvNsec : ℤ
  deriving DecidableEq, Repr

/-- `CMP_TVALSPEC`. -/
def cmpTvalspec (t1 t2 : Tvalspec) : ℤ :=
  if t2.tvSec < t1.tvSec then 1
  else if t1.tvSec < t2.tvSec then -1
  else t1.tvNsec - t2.tvNsec

/-- `BAD_TVALSPEC`. -/
def badTvalspec (t : Tvalspec) : Bool := t.tvNsec < 0 ∨ 1000000000 ≤ t.tvNsec

def tvalspecZero : Tvalspec := ⟨0, 0⟩

/-! ## Entries and queues -/

inductive CallStatus where
  | idle
  | pending
  | delayed
  deriving DecidableEq, Repr

/-- An entry without its links. A function and its arguments are numbers. -/
structure ThreadCall where
  func : ℕ
  spec : ℕ
  specProto : ℕ
  deadline : Tvalspec
  status : CallStatus
  deriving DecidableEq, Repr

/-- The entries below are those of `internal_call_storage`. -/
def internalCallNum : ℕ := 768

def internalCall (call : ℕ) : Bool := call < internalCallNum

def callThreadMin : ℤ := 4

/-- What the lock protects, and the timer. -/
structure Callouts where
  call : ℕ → ThreadCall
  internalCallFreeQueue : List ℕ
  pendingCallQueue : List ℕ
  delayedCallQueue : List ℕ
  pendingCallNum : ℤ
  activeCallNum : ℤ
  callThreadNum : ℤ
  timer : Option Tvalspec

/-- The wake-ups that are to be issued: one callout thread and then, maybe, the activate
thread, or only the latter. -/
inductive Wake where
  | callThread (activate : Bool)
  | activateThread
  deriving DecidableEq, Repr

/-- A callout thread. It waits, or it is about to take the lock; it has taken a call and not
yet started the function, or the function runs. -/
inductive CalloutThread where
  | waiting
  | runnable
  | taken (call func spec : ℕ)
  | running (call func spec : ℕ)
  deriving DecidableEq, Repr

/-- An interrupt handler that has released the lock: its queue, and the wake-ups that it has to
issue before it takes the lock again. -/
structure Handler where
  intransitCallQueue : List ℕ
  wake : Option Wake
  deriving DecidableEq, Repr

namespace Callouts

def setCall (s : Callouts) (c : ℕ) (r : ThreadCall) : Callouts :=
  { s with call := update s.call c r }

def setStatus (s : Callouts) (c : ℕ) (status : CallStatus) : Callouts :=
  s.setCall c { s.call c with status := status }

/-- `_internal_call_allocate`; it panics when no entry is free. -/
def internalCallAllocate (s : Callouts) : Option (ℕ × Callouts) :=
  match s.internalCallFreeQueue with
  | [] => none
  | c :: rest => some (c, { s with internalCallFreeQueue := rest })

def threadCallRelease (s : Callouts) (c : ℕ) : Callouts :=
  if internalCall c then { s with internalCallFreeQueue := s.internalCallFreeQueue ++ [c] } else s

def pendingCallEnqueue (s : Callouts) (c : ℕ) : Callouts :=
  setStatus { s with pendingCallQueue := s.pendingCallQueue ++ [c], pendingCallNum := s.pendingCallNum + 1 }
    c .pending

def pendingCallDequeue (s : Callouts) (c : ℕ) : Callouts :=
  setStatus { s with pendingCallQueue := s.pendingCallQueue.erase c, pendingCallNum := s.pendingCallNum - 1 }
    c .idle

/-- The loop of `_delayed_call_enqueue` over the entries: the call goes before the first one
with a later deadline, or behind the first one with the same. -/
def delayedInsert (call : ℕ → ThreadCall) (c : ℕ) : List ℕ → List ℕ
  | [] => [c]
  | current :: rest =>
    let deadlineCmp := cmpTvalspec (call c).deadline (call current).deadline
    if deadlineCmp < 0 then c :: current :: rest
    else if deadlineCmp = 0 then current :: c :: rest
    else current :: delayedInsert call c rest

def delayedCallEnqueue (s : Callouts) (c : ℕ) : Callouts :=
  setStatus { s with delayedCallQueue := delayedInsert s.call c s.delayedCallQueue } c .delayed

def delayedCallDequeue (s : Callouts) (c : ℕ) : Callouts :=
  setStatus { s with delayedCallQueue := s.delayedCallQueue.erase c } c .idle

/-- `_set_delayed_call_timer`. -/
def setDelayedCallTimer (s : Callouts) (c : ℕ) : Callouts :=
  { s with timer := some (s.call c).deadline }

/-- A delayed call is enqueued; when it comes first, the timer is set for it. -/
def enqueueAndSetTimer (s : Callouts) (c : ℕ) : Callouts :=
  let s := s.delayedCallEnqueue c
  if s.delayedCallQueue.head? = some c then s.setDelayedCallTimer c else s

/-- The loop of `_remove_from_pending_queue` and of `_remove_from_delayed_queue`, over the
entries from the current one on. -/
def removeFrom (dequeue : Callouts → ℕ → Callouts) (func spec : ℕ) (removeAll : Bool) :
    List ℕ → Callouts → Callouts × Bool
  | [], s => (s, false)
  | c :: rest, s =>
    if (s.call c).func = func ∧ (s.call c).spec = spec then
      let s := (dequeue s c).threadCallRelease c
      if removeAll then ((removeFrom dequeue func spec removeAll rest s).1, true) else (s, true)
    else removeFrom dequeue func spec removeAll rest s

def removeFromPendingQueue (s : Callouts) (func spec : ℕ) (removeAll : Bool) : Callouts × Bool :=
  let r := removeFrom pendingCallDequeue func spec removeAll s.pendingCallQueue s
  (r.1, if removeAll then false else r.2)

def removeFromDelayedQueue (s : Callouts) (func spec : ℕ) (removeAll : Bool) : Callouts × Bool :=
  let r := removeFrom delayedCallDequeue func spec removeAll s.delayedCallQueue s
  (r.1, if removeAll then false else r.2)

/-- `_call_thread_wake` until it releases the lock. -/
def callThreadWake (s : Callouts) : Wake :=
  .callThread (s.callThreadNum < s.activeCallNum + s.pendingCallNum)

/-! ## Scheduling and cancelling -/

def threadCallFunc (s : Callouts) (func spec : ℕ) (uniqueCall : Bool) : Option (Callouts × Option Wake) :=
  if uniqueCall ∧ s.pendingCallQueue.any (fun c => (s.call c).func = func ∧ (s.call c).spec = spec) then
    some (s, none)
  else do
    let (c, s) ← s.internalCallAllocate
    let s := s.setCall c { s.call c with func := func, spec := spec, specProto := 0 }
    let s := s.pendingCallEnqueue c
    some (s, some s.callThreadWake)

def validDeadline (deadline : Tvalspec) : Tvalspec :=
  if badTvalspec deadline then tvalspecZero else deadline

def threadCallFuncDelayed (s : Callouts) (func spec : ℕ) (deadline : Tvalspec) : Option Callouts := do
  let deadline := validDeadline deadline
  let (c, s) ← s.internalCallAllocate
  let s := s.setCall c { s.call c with func := func, spec := spec, specProto := 0, deadline := deadline }
  some (s.enqueueAndSetTimer c)

def threadCallFuncCancel (s : Callouts) (func spec : ℕ) (cancelAll : Bool) : Callouts :=
  let (s, removed) := s.removeFromPendingQueue func spec cancelAll
  if removed then s else (s.removeFromDelayedQueue func spec cancelAll).1

def threadCallAllocate (s : Callouts) (c func spec : ℕ) : Callouts :=
  s.setCall c ⟨func, 0, spec, tvalspecZero, .idle⟩

def threadCallEnterSpec (s : Callouts) (c spec : ℕ) : Callouts × Option Wake :=
  if (s.call c).status = .idle then
    let s := s.setCall c { s.call c with spec := spec }
    let s := s.pendingCallEnqueue c
    (s, some s.callThreadWake)
  else (s, none)

def threadCallEnter (s : Callouts) (c : ℕ) : Callouts × Option Wake :=
  s.threadCallEnterSpec c (s.call c).specProto

def threadCallEnterSpecDelayed (s : Callouts) (c spec : ℕ) (deadline : Tvalspec) : Callouts :=
  let deadline := validDeadline deadline
  if (s.call c).status = .idle then
    let s := s.setCall c { s.call c with spec := spec, deadline := deadline }
    s.enqueueAndSetTimer c
  else s

def threadCallEnterDelayed (s : Callouts) (c : ℕ) (deadline : Tvalspec) : Callouts :=
  s.threadCallEnterSpecDelayed c (s.call c).specProto deadline

def threadCallCancel (s : Callouts) (c : ℕ) : Callouts :=
  match (s.call c).status with
  | .pending => (s.pendingCallDequeue c).threadCallRelease c
  | .delayed => (s.delayedCallDequeue c).threadCallRelease c
  | .idle => s

/-! ## Threads and the timer -/

/-- One turn of the loop of `_call_thread_continue`, with the lock: the thread takes the first
call, waits, or (no thread) terminates. The queue is never empty when the number is positive. -/
def callThreadContinue (s : Callouts) : Option (Callouts × Option CalloutThread) :=
  if 0 < s.pendingCallNum then
    match s.pendingCallQueue with
    | [] => none
    | c :: rest =>
      let s := { s with pendingCallQueue := rest, pendingCallNum := s.pendingCallNum - 1 }
      let thread := CalloutThread.taken c (s.call c).func (s.call c).spec
      let s := (s.setStatus c .idle).threadCallRelease c
      some ({ s with activeCallNum := s.activeCallNum + 1 }, some thread)
  else if s.callThreadNum - s.activeCallNum ≤ callThreadMin then some (s, some .waiting)
  else some ({ s with callThreadNum := s.callThreadNum - 1 }, none)

/-- The first loop of `_delayed_call_interrupt`, over the delayed queue; the timer is set for
the entry that it stops at. -/
def expire (timestamp : Tvalspec) : List ℕ → Callouts → Callouts × List ℕ
  | [], s => (s, [])
  | c :: rest, s =>
    if cmpTvalspec (s.call c).deadline timestamp ≤ 0 then
      let r := expire timestamp rest (s.delayedCallDequeue c)
      (r.1, c :: r.2)
    else (s.setDelayedCallTimer c, [])

/-- One turn of its second loop. -/
def deliver (s : Callouts) : List ℕ → Callouts × Option Handler
  | [] => (s, none)
  | c :: rest =>
    let s := s.pendingCallEnqueue c
    (s, some ⟨rest, some s.callThreadWake⟩)

/-- The timer expires, and the handler runs until it releases the lock. -/
def delayedCallInterrupt (s : Callouts) (timestamp : Tvalspec) : Callouts × Option Handler :=
  let r := expire timestamp s.delayedCallQueue { s with timer := none }
  r.1.deliver r.2

end Callouts

/-! ## The system -/

inductive ActivateThread where
  | waiting
  | runnable
  | creating
  deriving DecidableEq, Repr

structure CalloutSystem where
  callouts : Callouts
  allocated : ℕ → Bool
  handlers : List Handler
  wakes : List Wake
  threads : List CalloutThread
  activate : ActivateThread

/-- What happens between two releases of the lock, or after one. A thread, a handler or a
wake-up that goes on is named by the state that it is in. -/
inductive CalloutEvent where
  | func (func spec : ℕ) (uniqueCall : Bool)
  | funcDelayed (func spec : ℕ) (deadline : Tvalspec)
  | funcCancel (func spec : ℕ) (cancelAll : Bool)
  | allocate (call func spec : ℕ)
  | free (call : ℕ)
  | enter (call : ℕ)
  | enterSpec (call spec : ℕ)
  | enterDelayed (call : ℕ) (deadline : Tvalspec)
  | enterSpecDelayed (call spec : ℕ) (deadline : Tvalspec)
  | cancel (call : ℕ)
  | interrupt (timestamp : Tvalspec)
  | handlerWake (handler : Handler) (wake : Wake)
  | handlerGoesOn (intransitCallQueue : List ℕ)
  | wake (wake : Wake)
  | threadGoesOn
  | start (call func spec : ℕ)
  | finish (call func spec : ℕ)
  | activate
  | create
  deriving DecidableEq, Repr

namespace CalloutSystem

/-- A new state of what the lock protects, and a wake-up that follows. -/
def becomes (s : CalloutSystem) (r : Callouts × Option Wake) : CalloutSystem :=
  { s with callouts := r.1, wakes := r.2.toList ++ s.wakes }

def withHandler (s : CalloutSystem) (r : Callouts × Option Handler) : CalloutSystem :=
  { s with callouts := r.1, handlers := r.2.toList ++ s.handlers }

def withThread (s : CalloutSystem) (r : Callouts × Option CalloutThread) : CalloutSystem :=
  { s with callouts := r.1, threads := r.2.toList ++ s.threads }

/-- `thread_wakeup_one(&pending_call_num)`. -/
def wakeCallThread (s : CalloutSystem) : CalloutSystem :=
  if .waiting ∈ s.threads then { s with threads := .runnable :: s.threads.erase .waiting } else s

/-- `thread_wakeup_one(&call_thread_num)`. -/
def wakeActivateThread (s : CalloutSystem) : CalloutSystem :=
  if s.activate = .waiting then { s with activate := .runnable } else s

/-- One wake-up is issued; another one may follow. -/
def issue (s : CalloutSystem) : Wake → CalloutSystem × Option Wake
  | .callThread activate => (s.wakeCallThread, if activate then some .activateThread else none)
  | .activateThread => (s.wakeActivateThread, none)

/-- Every external entry is used only while it is allocated. -/
def external (s : CalloutSystem) (c : ℕ) : Bool := !internalCall c && s.allocated c

/-- `_call_activate_thread_continue` until it releases the lock. -/
def callActivateThread (s : CalloutSystem) : CalloutSystem :=
  let c := s.callouts
  if c.callThreadNum < c.activeCallNum + c.pendingCallNum then
    { s with callouts := { c with callThreadNum := c.callThreadNum + 1 }, activate := .creating }
  else { s with activate := .waiting }

def step (s : CalloutSystem) : CalloutEvent → Option CalloutSystem
  | .func func spec uniqueCall => (s.callouts.threadCallFunc func spec uniqueCall).map s.becomes
  | .funcDelayed func spec deadline =>
    (s.callouts.threadCallFuncDelayed func spec deadline).map (fun c => s.becomes (c, none))
  | .funcCancel func spec cancelAll => some (s.becomes (s.callouts.threadCallFuncCancel func spec cancelAll, none))
  | .allocate c func spec =>
    if internalCall c ∨ s.allocated c then none
    else some { s with
      callouts := s.callouts.threadCallAllocate c func spec
      allocated := update s.allocated c true }
  | .free c =>
    if s.external c ∧ (s.callouts.call c).status = .idle then
      some { s with allocated := update s.allocated c false }
    else none
  | .enter c => if s.external c then some (s.becomes (s.callouts.threadCallEnter c)) else none
  | .enterSpec c spec => if s.external c then some (s.becomes (s.callouts.threadCallEnterSpec c spec)) else none
  | .enterDelayed c deadline =>
    if s.external c then some (s.becomes (s.callouts.threadCallEnterDelayed c deadline, none)) else none
  | .enterSpecDelayed c spec deadline =>
    if s.external c then some (s.becomes (s.callouts.threadCallEnterSpecDelayed c spec deadline, none)) else none
  | .cancel c => if s.external c then some (s.becomes (s.callouts.threadCallCancel c, none)) else none
  | .interrupt timestamp =>
    match s.callouts.timer with
    | none => none
    | some deadline =>
      if cmpTvalspec deadline timestamp ≤ 0 then
        some (s.withHandler (s.callouts.delayedCallInterrupt timestamp))
      else none
  | .handlerWake h w =>
    if h ∈ s.handlers ∧ h.wake = some w then
      let r := s.issue w
      some { r.1 with handlers := { h with wake := r.2 } :: s.handlers.erase h }
    else none
  | .handlerGoesOn transit =>
    if ⟨transit, none⟩ ∈ s.handlers then
      some ({ s with handlers := s.handlers.erase ⟨transit, none⟩ }.withHandler (s.callouts.deliver transit))
    else none
  | .wake w =>
    if w ∈ s.wakes then
      let r := s.issue w
      some { r.1 with wakes := r.2.toList ++ s.wakes.erase w }
    else none
  | .threadGoesOn =>
    if .runnable ∈ s.threads then
      s.callouts.callThreadContinue.map { s with threads := s.threads.erase .runnable }.withThread
    else none
  | .start c func spec =>
    if .taken c func spec ∈ s.threads then
      some { s with threads := .running c func spec :: s.threads.erase (.taken c func spec) }
    else none
  | .finish c func spec =>
    if .running c func spec ∈ s.threads then
      (Callouts.callThreadContinue
        { s.callouts with activeCallNum := s.callouts.activeCallNum - 1 }).map
          { s with threads := s.threads.erase (.running c func spec) }.withThread
    else none
  | .activate => if s.activate = .runnable then some s.callActivateThread else none
  | .create =>
    if s.activate = .creating then
      some { s with threads := .runnable :: s.threads, activate := .runnable }
    else none

/-- After `thread_call_init`. The external entries have not been allocated yet. -/
def init : CalloutSystem where
  callouts :=
    { call := fun _ => ⟨0, 0, 0, tvalspecZero, .idle⟩
      internalCallFreeQueue := List.range internalCallNum
      pendingCallQueue := []
      delayedCallQueue := []
      pendingCallNum := 0
      activeCallNum := 0
      callThreadNum := 0
      timer := none }
  allocated := fun _ => false
  handlers := []
  wakes := []
  threads := []
  activate := .runnable

end CalloutSystem

end Darwin.Kern
