import Darwin.Ipc.Right

/-! # Copyin

What `ipc_right_copyin` does with the entry of a right that a task copies or moves into a message.
-/
namespace Darwin.Ipc
open Darwin.Lib

def assertDead (entry : Contents) : Kernel Unit := do
  assert (entry.request = 0)
  assert (entry.object = 0)
  assert (!entry.marequest)

/-- What `ipc_right_copyin` returns: an error, or the object and the send-once right of a
dead-name request that was cancelled; and the entry as it is then. -/
structure Copyin where
  result : Except RightReturn (CopyinObject × Option ℕ)
  entry : Contents

/-- A dead name is copied in. -/
def copyDead (deadok : Bool) (entry : Contents) : Kernel Copyin := do
  assert (entry.type = .deadNameRight)
  assert (0 < entry.urefs)
  assertDead entry
  if !deadok then pure ⟨.error .invalidRight, entry⟩
  else pure ⟨.ok (.dead, none), entry⟩

/-- A dead name is moved out of the space. -/
def moveDead (deadok : Bool) (name : MachPort) (entry : Contents) : Kernel Copyin := do
  assert (entry.type = .deadNameRight)
  assert (0 < entry.urefs)
  assertDead entry
  if !deadok then pure ⟨.error .invalidRight, entry⟩
  else
    let entry' := if entry.urefs = 1 then { entry with type := { entry.type with deadName := false } }
      else { entry with urefs := entry.urefs - 1 }
    call (.entryStore name entry')
    pure ⟨.ok (.dead, none), entry'⟩

/-- `MACH_MSG_TYPE_MAKE_SEND` and `MACH_MSG_TYPE_MAKE_SEND_ONCE`; `make` counts the new right. -/
def copyinMake (self : ℕ) (name : MachPort) (entry : Contents) (make : Port → Port) : Kernel Copyin :=
  if !entry.type.receive then pure ⟨.error .invalidRight, entry⟩
  else do
    let p ← call (.ipLock entry.object)
    assert p.ipActive
    assert (p.receivedBy self name)
    call (.ipStore entry.object (make p))
    call (.ipReference entry.object)
    pure ⟨.ok (.port entry.object, none), entry⟩

def Port.makeSend (p : Port) : Port :=
  { p with ipMscount := u32 (p.ipMscount + 1), ipSrights := p.ipSrights + 1 }

def Port.makeSonce (p : Port) : Port := { p with ipSorights := p.ipSorights + 1 }

/-- The entry without its receive right. -/
def copyinReceiveEntry (name : MachPort) (entry : Contents) (p : Port) :
    Kernel (Option ℕ × Contents) :=
  if entry.type.send then do
    assert (entry.type = .sendReceive)
    assert (0 < entry.urefs)
    assertSrights (0 < p.ipSrights)
    call (.hashInsert entry.object name)
    call (.ipReference entry.object)
    pure (none, entry.clearReceive)
  else do
    assert (entry.type = .receiveRight)
    assert (entry.urefs = 0)
    let (dnrequest, entry) ← ipcRightDncancel entry.object name entry
    pure (dnrequest, { entry.clearReceive with object := 0 })

def copyinMoveReceive (self : ℕ) (name : MachPort) (entry : Contents) : Kernel Copyin :=
  if !entry.type.receive then pure ⟨.error .invalidRight, entry⟩
  else do
    let p ← call (.ipLock entry.object)
    assert p.ipActive
    assert (p.receivedBy self name)
    let (dnrequest, entry') ← copyinReceiveEntry name entry p
    call (.entryStore name entry')
    ipcPortClearReceiver entry.object
    let p ← call (.ipRead entry.object)
    call (.ipStore entry.object
      { p with ipReceiverName := machPortSmallest, data := .destination none })
    pure ⟨.ok (.port entry.object, dnrequest), entry'⟩

def copyinCopySend (name : MachPort) (entry : Contents) (deadok : Bool) : Kernel Copyin :=
  if entry.type.deadName then copyDead deadok entry
  else if !(entry.type.send || entry.type.sendOnce) then pure ⟨.error .invalidRight, entry⟩
  else do
    assert (0 < entry.urefs)
    match ← ipcRightCheck entry.object name entry with
    | .gone => pure ⟨.error .invalidName, .blank⟩
    | .dead entry => copyDead deadok entry
    | .active p =>
      if !entry.type.send then
        assert (entry.type = .sendOnceRight)
        assertSorights (0 < p.ipSorights)
        pure ⟨.error .invalidRight, entry⟩
      else
        assertSrights (0 < p.ipSrights)
        call (.ipStore entry.object { p with ipSrights := p.ipSrights + 1 })
        call (.ipReference entry.object)
        pure ⟨.ok (.port entry.object, none), entry⟩

/-- The last user reference of the send right is moved: the right itself leaves the space. -/
def moveLastSend (self : ℕ) (name : MachPort) (entry : Contents) (p : Port) :
    Kernel (Option ℕ × Contents) :=
  if entry.type.receive then do
    assert (p.receivedBy self name)
    assert (entry.type = .sendReceive)
    call (.ipReference entry.object)
    pure (none, { entry.clearSend with urefs := 0 })
  else do
    assert (entry.type = .sendRight)
    let (dnrequest, entry') ← ipcRightDncancel entry.object name entry
    call (.hashDelete entry.object name)
    pure (dnrequest, { entry'.clearSend with urefs := 0, object := 0 })

def copyinMoveSend (self : ℕ) (name : MachPort) (entry : Contents) (deadok : Bool) : Kernel Copyin :=
  if entry.type.deadName then moveDead deadok name entry
  else if !(entry.type.send || entry.type.sendOnce) then pure ⟨.error .invalidRight, entry⟩
  else do
    assert (0 < entry.urefs)
    match ← ipcRightCheck entry.object name entry with
    | .gone => pure ⟨.error .invalidName, .blank⟩
    | .dead entry => moveDead deadok name entry
    | .active p =>
      if !entry.type.send then
        assert (entry.type = .sendOnceRight)
        assertSorights (0 < p.ipSorights)
        pure ⟨.error .invalidRight, entry⟩
      else
        assertSrights (0 < p.ipSrights)
        if entry.urefs = 1 then
          let (dnrequest, entry') ← moveLastSend self name entry p
          call (.entryStore name entry')
          pure ⟨.ok (.port entry.object, dnrequest), entry'⟩
        else
          call (.ipStore entry.object { p with ipSrights := p.ipSrights + 1 })
          call (.ipReference entry.object)
          let entry' := { entry with urefs := entry.urefs - 1 }
          call (.entryStore name entry')
          pure ⟨.ok (.port entry.object, none), entry'⟩

def copyinMoveSendOnce (name : MachPort) (entry : Contents) (deadok : Bool) : Kernel Copyin :=
  if entry.type.deadName then moveDead deadok name entry
  else if !(entry.type.send || entry.type.sendOnce) then pure ⟨.error .invalidRight, entry⟩
  else do
    assert (0 < entry.urefs)
    match ← ipcRightCheck entry.object name entry with
    | .gone => pure ⟨.error .invalidName, .blank⟩
    | .dead entry => moveDead deadok name entry
    | .active p =>
      if !entry.type.sendOnce then
        assert entry.type.send
        assertSrights (0 < p.ipSrights)
        pure ⟨.error .invalidRight, entry⟩
      else
        assert (entry.type = .sendOnceRight)
        assert (entry.urefs = 1)
        assert (!entry.marequest)
        assertSorights (0 < p.ipSorights)
        let (dnrequest, entry') ← ipcRightDncancel entry.object name entry
        let entry' := { entry' with object := 0, type := { entry'.type with sendOnce := false } }
        call (.entryStore name entry')
        pure ⟨.ok (.port entry.object, dnrequest), entry'⟩

def ipcRightCopyin (self : ℕ) (name : MachPort) (entry : Contents) (deadok : Bool) :
    MsgType → Kernel Copyin
  | .makeSend => copyinMake self name entry Port.makeSend
  | .makeSendOnce => copyinMake self name entry Port.makeSonce
  | .moveReceive => copyinMoveReceive self name entry
  | .copySend => copyinCopySend name entry deadok
  | .moveSend => copyinMoveSend self name entry deadok
  | .moveSendOnce => copyinMoveSendOnce name entry deadok

end Darwin.Ipc
