import Darwin.Lib.BitWords
import Darwin.Lib.Ranges

/-! # The body of a message in the kernel

A complex message carries descriptors: of one port right, of memory or of an array of port
rights. While `ipc_kmsg_copyin_body` and `ipc_kmsg_copyout_body` work, the words of a
descriptor change between a name of the task and the address of a kernel object, and nothing
in the message tells which of the two a word is. Both are words here as well.
-/
namespace Darwin.Ipc.Kmsg
open Darwin.Lib List

/-- `MACH_PORT_NULL` and `IO_NULL` -/
def portNull : ℕ := 0

/-- `MACH_PORT_DEAD` and `IO_DEAD` -/
def portDead : ℕ := 2 ^ 32 - 1

/-- `MACH_PORT_VALID` -/
def machPortValid (name : ℕ) : Bool := name != portNull && name != portDead

/-- `IO_VALID` -/
def ioValid (object : ℕ) : Bool := object != portNull && object != portDead

/-- `MACH_MSG_TYPE_PORT_RECEIVE`, which is `MACH_MSG_TYPE_MOVE_RECEIVE` -/
def portReceive : ℕ := 16

/-- `MACH_MSG_TYPE_PORT_SEND`, which is `MACH_MSG_TYPE_MOVE_SEND` -/
def portSend : ℕ := 17

/-- `MACH_MSG_TYPE_PORT_SEND_ONCE`, which is `MACH_MSG_TYPE_MOVE_SEND_ONCE` -/
def portSendOnce : ℕ := 18

def copySend : ℕ := 19

def makeSend : ℕ := 20

def makeSendOnce : ℕ := 21

/-- `MACH_MSG_TYPE_PORT_ANY` -/
def typePortAny (name : ℕ) : Bool := portReceive ≤ name && name ≤ makeSendOnce

/-- `ipc_object_copyin_type`: what the receiver gets for what the sender names. -/
def ipcObjectCopyinType (name : ℕ) : ℕ :=
  if name = portReceive then portReceive
  else if name = portSendOnce ∨ name = makeSendOnce then portSendOnce
  else if name = portSend ∨ name = makeSend ∨ name = copySend then portSend
  else 0 -- other types panic; the callers have checked `typePortAny`

/-- `MACH_MSG_PHYSICAL_COPY` -/
def physicalCopy : ℕ := 0

/-- `MACH_MSG_VIRTUAL_COPY` -/
def virtualCopy : ℕ := 1

/-- `MACH_MSG_ALLOCATE` -/
def allocateCopy : ℕ := 2

/-- `MACH_MSG_OVERWRITE` -/
def overwriteCopy : ℕ := 3

structure PortDescriptor where
  name : ℕ
  disposition : ℕ
  deriving DecidableEq, Repr

structure OolDescriptor where
  address : ℕ
  size : ℕ
  deallocate : Bool
  copy : ℕ
  deriving DecidableEq, Repr

/-- `objects` are the words at `address`, as many as `count` says. -/
structure OolPortsDescriptor where
  address : ℕ
  objects : List ℕ
  deallocate : Bool
  copy : ℕ
  disposition : ℕ
  deriving DecidableEq, Repr

inductive Descriptor where
  | port (dsc : PortDescriptor)
  | outOfLine (dsc : OolDescriptor)
  | oolPorts (dsc : OolPortsDescriptor)
  deriving DecidableEq, Repr

/-- `dsc->count * sizeof(mach_port_t)` -/
def OolPortsDescriptor.length (dsc : OolPortsDescriptor) : ℕ := u32 (4 * dsc.objects.length)

/-! ## What happens to rights and memory -/

inductive VmMap where
  | task
  | ipcSoftMap
  | ipcKernelCopyMap
  deriving DecidableEq, Repr

/-- The calls that take or give up a right or memory, and the names that the receiver gets. -/
inductive Event where
  | acquire (object disposition : ℕ)
  | give (object disposition : ℕ)
  | ipcObjectDestroy (object disposition : ℕ)
  | kalloc (address length : ℕ)
  | kfree (address length : ℕ)
  | vmAllocate (map : VmMap) (address size : ℕ)
  | vmMove (dst : VmMap) (address size : ℕ)
  | vmDeallocate (map : VmMap) (address size : ℕ)
  | copyoutmap (address : ℕ) (names : List ℕ)
  deriving DecidableEq, Repr

namespace Event

/-- Rights that have come from a space into the message. -/
def acquired : Event → Option (ℕ × ℕ)
  | acquire object disposition => some (object, disposition)
  | _ => none

/-- Objects passed to `ipc_object_destroy`. -/
def destroyed : Event → Option (ℕ × ℕ)
  | ipcObjectDestroy object disposition => some (object, disposition)
  | _ => none

/-- Objects that have left the message, to a space or to `ipc_object_destroy`. -/
def consumed : Event → Option (ℕ × ℕ)
  | give object disposition => some (object, disposition)
  | ipcObjectDestroy object disposition => some (object, disposition)
  | _ => none

def kalloced : Event → Option (ℕ × ℕ)
  | kalloc address length => some (address, length)
  | _ => none

def kfreed : Event → Option (ℕ × ℕ)
  | kfree address length => some (address, length)
  | _ => none

/-- Memory that has been moved into `ipc_soft_map`. -/
def softMoved : Event → Option (ℕ × ℕ)
  | vmMove .ipcSoftMap address size => some (address, size)
  | _ => none

def softFreed : Event → Option (ℕ × ℕ)
  | vmDeallocate .ipcSoftMap address size => some (address, size)
  | _ => none

end Event

/-- `round_page`, for pages of `2 ^ shift` bytes -/
def roundPage (shift x : ℕ) : ℕ := u32 (x + (2 ^ shift - 1)) / 2 ^ shift * 2 ^ shift

/-- The ranges of the kernel's copy map that have been given back, as whole pages. -/
def Event.copyMapFreed (shift : ℕ) : Event → Option (ℕ × ℕ)
  | vmDeallocate .ipcKernelCopyMap address size => some (address, roundPage shift size)
  | _ => none

/-- Regions of the kernel's copy map that have been reserved. -/
def Event.copyMapReserved : Event → Option (ℕ × ℕ)
  | vmAllocate .ipcKernelCopyMap address size => some (address, size)
  | _ => none

section roundPage
variable {shift x : ℕ}

theorem dvd_roundPage : 2 ^ shift ∣ roundPage shift x := Dvd.intro_left _ rfl

theorem roundPage_lt : roundPage shift x < 2 ^ 32 :=
  Nat.lt_of_le_of_lt (Nat.div_mul_le_self _ _) (Nat.mod_lt _ (by decide))

theorem roundPage_of_dvd (hshift : shift ≤ 32) (hx : 2 ^ shift ∣ x) (hlt : x < 2 ^ 32) :
    roundPage shift x = x := by
  have hpos : 0 < 2 ^ shift := Nat.two_pow_pos shift
  obtain ⟨n, rfl⟩ := hx
  obtain ⟨k, hk⟩ := Nat.pow_dvd_pow 2 hshift
  -- the last page of the address space begins at a multiple of the page size
  have hle : 2 ^ shift * n + 2 ^ shift ≤ 2 ^ 32 := by
    rw [hk] at hlt ⊢
    have hnk : n + 1 ≤ k := Nat.lt_of_mul_lt_mul_left hlt
    exact Nat.mul_le_mul_left (2 ^ shift) hnk
  rw [roundPage, u32_eq (by omega), Nat.add_comm,
    Nat.add_mul_div_left _ _ hpos, Nat.div_eq_of_lt (by omega), Nat.zero_add, Nat.mul_comm]

@[simp] theorem roundPage_zero : roundPage shift 0 = 0 := by
  have hpos : 0 < 2 ^ shift := Nat.two_pow_pos shift
  by_cases hshift : shift ≤ 32
  · exact roundPage_of_dvd hshift (Dvd.intro 0 rfl) (by decide)
  · have hle : u32 (0 + (2 ^ shift - 1)) < 2 ^ 32 := Nat.mod_lt _ (by decide)
    have hpow : 2 ^ 32 ≤ 2 ^ shift := Nat.pow_le_pow_right (by decide) (by omega)
    rw [roundPage, Nat.div_eq_of_lt (Nat.lt_of_lt_of_le hle hpow), Nat.zero_mul]

end roundPage

/-! ## Cleaning up -/

/-- The rights that are destroyed among words of one disposition. -/
def destroyObjects (disposition : ℕ) (objects : List ℕ) : List Event :=
  (objects.filter ioValid).map (.ipcObjectDestroy · disposition)

def cleanDescriptor : Descriptor → List Event
  | .port dsc => destroyObjects dsc.disposition [dsc.name]
  | .outOfLine dsc =>
    if dsc.size = 0 then [] else [.vmDeallocate .ipcSoftMap dsc.address dsc.size]
  | .oolPorts dsc =>
    if dsc.objects.length = 0 then []
    else destroyObjects dsc.disposition dsc.objects ++ [.kfree dsc.address dsc.length]

/-- `ipc_kmsg_clean_body` on the first descriptors of a message -/
def ipcKmsgCleanBody (body : List Descriptor) : List Event := body.flatMap cleanDescriptor

/-- The ports of the header as objects, with the types that `msgh_bits` has for them. -/
structure Header where
  remotePort : ℕ
  localPort : ℕ
  remoteType : ℕ
  localType : ℕ
  complex : Bool
  circular : Bool
  deriving DecidableEq, Repr

/-- The rights of the header. -/
def Header.rights (h : Header) : List (ℕ × ℕ) :=
  (h.remotePort, h.remoteType) :: if ioValid h.localPort then [(h.localPort, h.localType)] else []

/-- `ipc_kmsg_clean_partial` -/
def ipcKmsgCleanPartial (h : Header) (body : List Descriptor) (paddr length : ℕ) : List Event :=
  [.ipcObjectDestroy h.remotePort h.remoteType] ++
  (if ioValid h.localPort then [.ipcObjectDestroy h.localPort h.localType] else []) ++
  (if paddr ≠ 0 then [.vmDeallocate .ipcKernelCopyMap paddr length] else []) ++
  ipcKmsgCleanBody body

section projections
variable {disposition : ℕ} {objects : List ℕ}

@[simp] theorem destroyed_map :
    (objects.map (Event.ipcObjectDestroy · disposition)).filterMap Event.destroyed =
      objects.map (·, disposition) := by
  rw [filterMap_map, ← filterMap_eq_map]
  rfl

@[simp] theorem acquired_destroyObjects :
    (destroyObjects disposition objects).filterMap Event.acquired = [] := by
  simp [destroyObjects, filterMap_map, Event.acquired]

@[simp] theorem destroyed_destroyObjects :
    (destroyObjects disposition objects).filterMap Event.destroyed =
      (objects.filter ioValid).map (·, disposition) := destroyed_map

@[simp] theorem kalloced_destroyObjects :
    (destroyObjects disposition objects).filterMap Event.kalloced = [] := by
  simp [destroyObjects, filterMap_map, Event.kalloced]

@[simp] theorem kfreed_destroyObjects :
    (destroyObjects disposition objects).filterMap Event.kfreed = [] := by
  simp [destroyObjects, filterMap_map, Event.kfreed]

@[simp] theorem softMoved_destroyObjects :
    (destroyObjects disposition objects).filterMap Event.softMoved = [] := by
  simp [destroyObjects, filterMap_map, Event.softMoved]

@[simp] theorem softFreed_destroyObjects :
    (destroyObjects disposition objects).filterMap Event.softFreed = [] := by
  simp [destroyObjects, filterMap_map, Event.softFreed]

@[simp] theorem copyMapReserved_destroyObjects :
    (destroyObjects disposition objects).filterMap Event.copyMapReserved = [] := by
  simp [destroyObjects, filterMap_map, Event.copyMapReserved]

@[simp] theorem copyMapFreed_destroyObjects {shift : ℕ} :
    (destroyObjects disposition objects).filterMap (Event.copyMapFreed shift) = [] := by
  simp [destroyObjects, filterMap_map, Event.copyMapFreed]

end projections

/-- The events take nothing, and have no part in the kernel's copy map. -/
structure TakesNothing (shift : ℕ) (events : List Event) : Prop where
  acquired : events.filterMap Event.acquired = []
  kalloced : events.filterMap Event.kalloced = []
  softMoved : events.filterMap Event.softMoved = []
  copyMapReserved : events.filterMap Event.copyMapReserved = []
  copyMapFreed : events.filterMap (Event.copyMapFreed shift) = []

theorem TakesNothing.append {shift : ℕ} {e e' : List Event} (h : TakesNothing shift e)
    (h' : TakesNothing shift e') : TakesNothing shift (e ++ e') := by
  constructor
  · rw [filterMap_append, h.acquired, h'.acquired, append_nil]
  · rw [filterMap_append, h.kalloced, h'.kalloced, append_nil]
  · rw [filterMap_append, h.softMoved, h'.softMoved, append_nil]
  · rw [filterMap_append, h.copyMapReserved, h'.copyMapReserved, append_nil]
  · rw [filterMap_append, h.copyMapFreed, h'.copyMapFreed, append_nil]

theorem cleanDescriptor_takesNothing (shift : ℕ) (d : Descriptor) :
    TakesNothing shift (cleanDescriptor d) := by
  cases d with
  | port dsc => constructor <;> simp [cleanDescriptor]
  | outOfLine dsc =>
    rw [cleanDescriptor]
    split
    · constructor <;> rfl
    · constructor <;> rfl
  | oolPorts dsc =>
    rw [cleanDescriptor]
    split
    · constructor <;> rfl
    · refine TakesNothing.append ?_ ?_
      · constructor <;> simp
      · constructor <;> rfl

theorem cleanBody_takesNothing (shift : ℕ) (body : List Descriptor) :
    TakesNothing shift (ipcKmsgCleanBody body) := by
  induction body with
  | nil => constructor <;> rfl
  | cons d body ih => exact (cleanDescriptor_takesNothing shift d).append ih

end Darwin.Ipc.Kmsg
