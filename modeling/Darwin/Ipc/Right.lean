import Darwin.Ipc.Dnrequest
import Darwin.Lib.Program

/-! # Rights

The functions that manipulate the rights of a space, as programs over the operations on
entries, on the reverse hash and on ports. A space is locked while a program runs; a port may
change only before it is locked.
-/
namespace Darwin.Ipc
open Darwin.Lib

/-! ## Ports -/

/-- The union `data` of a port. -/
inductive PortData where
  | receiver (space : ℕ)
  | destination (port : Option ℕ)
  | timestamp (t : ℕ)
  deriving DecidableEq, Repr

/-- A backup port: a send-once right, or a send right of the old interface. -/
inductive PdRequest where
  | sonce (port : ℕ)
  | send (port : ℕ)
  deriving DecidableEq, Repr

def PdRequest.port : PdRequest → ℕ
  | .sonce port => port
  | .send port => port

/-- The fields of a port that the functions here use. `ie_request` is an index into
`ip_dnrequests`. -/
structure Port where
  ipActive : Bool
  data : PortData
  ipReceiverName : MachPort
  ipMscount : ℕ
  ipSrights : ℕ
  ipSorights : ℕ
  ipNsrequest : Option ℕ
  ipPdrequest : Option PdRequest
  ipDnrequests : Option RequestTable
  deriving DecidableEq, Repr

inductive Notification where
  | noSenders (soright mscount : ℕ)
  | portDeleted (soright : ℕ) (name : MachPort)
  | deadName (soright : ℕ) (name : MachPort)
  | portDestroyed (pdrequest : PdRequest) (port : ℕ)
  | sendOnce (port : ℕ)
  deriving DecidableEq, Repr

/-- `--port->ip_srights`, and the no-senders request when there is none left. -/
def Port.dropSend (p : Port) : Port × Option (ℕ × ℕ) :=
  if p.ipSrights - 1 = 0 then
    match p.ipNsrequest with
    | some nsrequest => ({ p with ipSrights := p.ipSrights - 1, ipNsrequest := none },
        some (nsrequest, p.ipMscount))
    | none => ({ p with ipSrights := p.ipSrights - 1 }, none)
  else ({ p with ipSrights := p.ipSrights - 1 }, none)

/-- A receive right is moved out of a space: the port is in limbo. -/
def Port.intoLimbo (p : Port) : Port :=
  { p with ipMscount := 0, ipReceiverName := machPortSmallest, data := .destination none }

/-- A receive right comes into a space. -/
def Port.received (p : Port) (space : ℕ) (name : MachPort) : Port :=
  { p with ipReceiverName := name, data := .receiver space }

/-- What the names of a message say to do with a right. -/
inductive MsgType where
  | moveReceive
  | moveSend
  | moveSendOnce
  | copySend
  | makeSend
  | makeSendOnce
  deriving DecidableEq, Repr

/-- The object that is copied in: a port, or `IO_DEAD`. -/
inductive CopyinObject where
  | port (p : ℕ)
  | dead
  deriving DecidableEq, Repr

inductive RightReturn where
  | success
  | invalidName
  | invalidRight
  | invalidValue
  | urefsOverflow
  | invalidCapability
  | nameExists
  | rightExists
  | noSpace
  | resourceShortage
  | invalidArgument
  deriving DecidableEq, Repr

def machPortUrefsMax : ℕ := 2 ^ 16 - 1

def PortType.receiveRight : PortType := ⟨false, true, false, false, false⟩

def PortType.sendReceive : PortType := ⟨true, true, false, false, false⟩

def PortType.sendOnceRight : PortType := ⟨false, false, true, false, false⟩

def PortType.deadNameRight : PortType := ⟨false, false, false, false, true⟩

/-- The bits of a new entry, and no object. -/
def Contents.blank : Contents := ⟨false, false, PortType.none, 0, 0, 0⟩

/-- The entry is a dead name with these user references. -/
def Contents.deadName (urefs : ℕ) : Contents := ⟨false, false, PortType.deadNameRight, urefs, 0, 0⟩

def Contents.clearSend (c : Contents) : Contents := { c with type := { c.type with send := false } }

def Contents.clearReceive (c : Contents) : Contents :=
  { c with type := { c.type with receive := false } }

/-! ## Operations -/

/-- The operations of a program: those on entries and on the reverse hash of the space, and
those on ports. -/
inductive KernelOp where
  | entryLookup (name : MachPort)
  | entryGet
  | entryAllocName (name : MachPort)
  | entryDealloc (name : MachPort)
  | entryStore (name : MachPort) (c : Contents)
  | entryGrowTable
  | hashLookup (obj : ℕ)
  | hashInsert (obj : ℕ) (name : MachPort)
  | hashDelete (obj : ℕ) (name : MachPort)
  | ipLock (port : ℕ)
  | ipRead (port : ℕ)
  | ipStore (port : ℕ) (p : Port)
  | ipReference (port : ℕ)
  | ipRelease (port : ℕ)
  | portTimestamp
  | checkCircularity (port dest : ℕ)
  | notify (n : Notification)

/-- The answers. `entryAllocName` answers `none` when there is no memory, and otherwise with
the contents of an entry that exists already or `none` for a new one. -/
@[reducible] def KernelOp.Ans : KernelOp → Type
  | entryLookup _ => Option Contents
  | entryGet => Option MachPort
  | entryAllocName _ => Option (Option Contents)
  | entryDealloc _ => Unit
  | entryStore _ _ => Unit
  | entryGrowTable => Bool
  | hashLookup _ => Option (MachPort × Contents)
  | hashInsert _ _ => Unit
  | hashDelete _ _ => Unit
  | ipLock _ => Port
  | ipRead _ => Port
  | ipStore _ _ => Unit
  | ipReference _ => Unit
  | ipRelease _ => Unit
  | portTimestamp => ℕ
  | checkCircularity _ _ => Bool
  | notify _ => Unit

/-- What stops a program: an assertion about `ip_srights` or about `ip_sorights`, another one, or
an entry that is used although the lookup did not find it. -/
inductive Assertion where
  | srights
  | sorights
  | other
  | nullEntry
  deriving DecidableEq, Repr

abbrev Kernel := Program KernelOp.Ans Assertion

def call (o : KernelOp) : Kernel o.Ans := Program.op KernelOp.Ans o

def assert (b : Bool) : Kernel Unit := if b then pure () else .fail .other

def assertSrights (b : Bool) : Kernel Unit := if b then pure () else .fail .srights

def assertSorights (b : Bool) : Kernel Unit := if b then pure () else .fail .sorights

def notifyNoSenders : Option (ℕ × ℕ) → Kernel Unit
  | none => pure ()
  | some (nsrequest, mscount) => call (.notify (.noSenders nsrequest mscount))

/-! ## Ports as programs -/

/-- One send right of the locked port is gone. -/
def dropSend (port : ℕ) : Kernel (Option (ℕ × ℕ)) := do
  let p ← call (.ipRead port)
  assertSrights (0 < p.ipSrights)
  call (.ipStore port p.dropSend.1)
  pure p.dropSend.2

def ipcPortReleaseSend (port : ℕ) : Kernel Unit := do
  let p ← call (.ipLock port)
  call (.ipRelease port)
  if p.ipActive then
    let nsrequest ← dropSend port
    notifyNoSenders nsrequest
  else pure ()

def ipcPortReleaseSonce (port : ℕ) : Kernel Unit := do
  let p ← call (.ipLock port)
  call (.ipRelease port)
  if p.ipActive then
    assertSorights (0 < p.ipSorights)
    call (.ipStore port { p with ipSorights := p.ipSorights - 1 })
  else pure ()

/-- `ipc_port_clear_receiver`, for the fields of the port. -/
def ipcPortClearReceiver (port : ℕ) : Kernel Unit := do
  let p ← call (.ipRead port)
  assert p.ipActive
  call (.ipStore port { p with ipMscount := 0 })

/-- The notifications for the dead-name requests of a port. -/
def notifyDeadNames : List PortRequest → Kernel Unit
  | [] => pure ()
  | r :: l => do
    if r.iprName = machPortSmallest then pure ()
    else call (.notify (.deadName r.notify r.iprName))
    notifyDeadNames l

/-- The part of `ipc_port_destroy` in which the port dies. Its table is freed. -/
def killPort (port : ℕ) : Kernel Unit := do
  let p ← call (.ipRead port)
  let t ← call .portTimestamp
  call (.ipStore port { p with ipActive := false, data := .timestamp t })
  match p.ipNsrequest with
  | some nsrequest => call (.notify (.sendOnce nsrequest))
  | none => pure ()
  match p.ipDnrequests with
  | some table => notifyDeadNames table.elements.tail
  | none => pure ()
  call (.ipRelease port)

/-- `ipc_port_destroy`. With a backup port the port goes there and lives on, unless it would
be in a message to itself. -/
def ipcPortDestroy (port : ℕ) : Kernel Unit := do
  let p ← call (.ipRead port)
  assert p.ipActive
  assert (p.ipMscount = 0)
  match p.ipPdrequest with
  | none => killPort port
  | some pdrequest =>
    call (.ipStore port
      { p with ipPdrequest := none, ipReceiverName := machPortSmallest, data := .destination none })
    let circular ← call (.checkCircularity port pdrequest.port)
    if circular then
      match pdrequest with
      | .send sright => ipcPortReleaseSend sright
      | .sonce soright => ipcPortReleaseSonce soright
      killPort port
    else call (.notify (.portDestroyed pdrequest port))

/-! ## Dead-name requests -/

/-- `ipc_port_dnrequest`: the index, or `none` when no element is free. -/
def ipcPortDnrequest (port : ℕ) (name : MachPort) (soright : ℕ) : Kernel (Option ℕ) := do
  let p ← call (.ipRead port)
  assert p.ipActive
  assert (name ≠ machPortSmallest)
  match p.ipDnrequests with
  | none => pure none
  | some table =>
    let index := table.iprNext
    if index = 0 then pure none
    else
      assert ((table.request index).iprName = machPortSmallest)
      call (.ipStore port { p with ipDnrequests := some (table.take name soright) })
      pure (some index)

/-- `ipc_port_dncancel`. -/
def ipcPortDncancel (port : ℕ) (name : MachPort) (index : ℕ) : Kernel ℕ := do
  let p ← call (.ipRead port)
  assert p.ipActive
  assert (name ≠ machPortSmallest)
  assert (index ≠ 0)
  match p.ipDnrequests with
  | none => .fail .other
  | some table =>
    assert ((table.request index).iprName = name)
    call (.ipStore port { p with ipDnrequests := some (table.giveBack index) })
    pure (table.request index).notify

def ipcPortDnrename (port index : ℕ) (oname nname : MachPort) : Kernel Unit := do
  let p ← call (.ipRead port)
  assert p.ipActive
  match p.ipDnrequests with
  | none => .fail .other
  | some table =>
    assert ((table.request index).iprName = oname)
    call (.ipStore port { p with ipDnrequests := some (table.rename index nname) })

/-- What `ipc_port_dngrow` remembers while the port is not locked: the table it saw and the
number of the new size. -/
structure Dngrow where
  port : ℕ
  otable : Option ℕ
  its : ℕ
  deriving DecidableEq, Repr

/-- The loop over the sizes. -/
def dngrowSize (target : ℕ) : ℕ → ℕ → ℕ
  | 0, its => its
  | fuel + 1, its =>
    if ipcTableDnrequests its ≠ 0 ∧ ipcTableDnrequests its < target then
      dngrowSize target fuel (its + 1)
    else its

/-- `ipc_port_dngrow` up to the place where it unlocks the port. -/
def ipcPortDngrow (port : ℕ) (target : Option ℕ) : Kernel (Except RightReturn Dngrow) := do
  let p ← call (.ipRead port)
  assert p.ipActive
  let its := match p.ipDnrequests with
    | none => 0
    | some table => table.iprSize + 1
  let otable := p.ipDnrequests.map RequestTable.address
  match target with
  | none =>
    call (.ipReference port)
    pure (.ok ⟨port, otable, its⟩)
  | some target =>
    if p.ipDnrequests.any (fun table => target ≤ ipcTableDnrequests table.iprSize) then
      pure (.error .success)
    else
      let its := dngrowSize target 64 its
      if ipcTableDnrequests its = 0 then pure (.error .noSpace)
      else
        call (.ipReference port)
        pure (.ok ⟨port, otable, its⟩)

/-- The rest of it: `memory` is the address of the new table when there is memory. -/
def dngrowFinish (g : Dngrow) (memory : Option ℕ) : Kernel RightReturn :=
  match memory with
  | none => do
    call (.ipRelease g.port)
    pure .resourceShortage
  | some address =>
    if ipcTableDnrequests g.its = 0 then do
      call (.ipRelease g.port)
      pure .resourceShortage
    else do
      let p ← call (.ipLock g.port)
      call (.ipRelease g.port)
      if p.ipActive ∧ p.ipDnrequests.map RequestTable.address = g.otable ∧
          p.ipDnrequests.all (fun table => table.iprSize + 1 = g.its) then
        call (.ipStore g.port
          { p with ipDnrequests := some (RequestTable.grown p.ipDnrequests address g.its) })
      pure .success

/-! ## Entries and their ports -/

/-- `ipc_right_dncancel_macro`: the send-once right of the dead-name request, and the entry
without it. -/
def ipcRightDncancel (port : ℕ) (name : MachPort) (entry : Contents) :
    Kernel (Option ℕ × Contents) :=
  if entry.request = 0 then pure (none, entry)
  else do
    let p ← call (.ipRead port)
    assert p.ipActive
    assert (port = entry.object)
    let dnrequest ← ipcPortDncancel port name entry.request
    call (.entryStore name { entry with request := 0 })
    pure (if entry.compat then none else some dnrequest, { entry with request := 0 })

/-- What `ipc_right_check` finds: the port is active and locked, the entry has become a dead
name, or it is gone. -/
inductive RightCheck where
  | active (p : Port)
  | dead (entry : Contents)
  | gone
  deriving DecidableEq, Repr

/-- An entry without object and request goes away. -/
def deallocEntry (name : MachPort) (entry : Contents) : Kernel Unit := do
  call (.entryStore name { entry with object := 0, request := 0 })
  call (.entryDealloc name)

def ipcRightCheck (port : ℕ) (name : MachPort) (entry : Contents) : Kernel RightCheck := do
  assert (port = entry.object)
  let p ← call (.ipLock port)
  if p.ipActive then pure (.active p)
  else
    assert (!entry.type.receive)
    assert (0 < entry.urefs)
    if entry.type.send then
      assert (entry.type = PortType.sendRight)
      call (.hashDelete port name)
    else
      assert (entry.type = PortType.sendOnceRight)
      assert (entry.urefs = 1)
      assert (!entry.marequest)
    call (.ipRelease port)
    if entry.compat then
      assert (entry.request ≠ 0)
      deallocEntry name entry
      pure .gone
    else
      assert (entry.request = 0 ∨ entry.urefs < machPortUrefsMax)
      let dead := Contents.deadName (if entry.request = 0 then entry.urefs else entry.urefs + 1)
      call (.entryStore name dead)
      pure (.dead dead)

/-- The space is the receiver of the port under the name. -/
def Port.receivedBy (p : Port) (self : ℕ) (name : MachPort) : Bool :=
  p.ipReceiverName = name ∧ p.data = .receiver self

end Darwin.Ipc
