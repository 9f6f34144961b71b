import Darwin.Lib.LinkedRing
import Darwin.Vm.Fault

/-! # Address maps

A `vm_map` is a ring of entries sorted by address, closed by the header, with two cached
pointers into it. The entry at pointer 0 is the header, whose `vme_start` and `vme_end` are
the bounds of the map. An entry stands for an object, for a sharing map or for a submap.
Addresses, offsets and sizes are 32-bit words.
-/
namespace Darwin.Vm
open Darwin.Lib Function

/-- The union `vm_map_object`. -/
inductive VmMapObject where
  | null
  | object (o : ℕ)
  | map (id : ℕ)
  deriving DecidableEq

inductive VmInherit where
  | share
  | copy
  | none
  /-- A code that is none of the three. -/
  | other (code : ℕ)
  deriving DecidableEq

def vmProtRead : ℕ := 1
def vmProtWrite : ℕ := 2
def vmProtExecute : ℕ := 4
def vmProtDefault : ℕ := 3
def vmProtAll : ℕ := 7
def pageSize : ℕ := 4096

structure VmMapEntry where
  vmeStart : ℕ
  vmeEnd : ℕ
  object : VmMapObject
  offset : ℕ
  isAMap : Bool
  isShared : Bool
  isSubMap : Bool
  copyOnWrite : Bool
  needsCopy : Bool
  protection : ℕ
  maxProtection : ℕ
  inheritance : VmInherit
  wiredCount : ℕ
  userWiredCount : ℕ
  deriving DecidableEq

inductive KernReturn where
  | success
  | invalidAddress
  | noSpace
  | protectionFailure
  | invalidArgument
  deriving DecidableEq

structure VmMap where
  next : ℕ → ℕ
  prev : ℕ → ℕ
  entry : ℕ → VmMapEntry
  /-- The entry that `zalloc` gives next; its fields hold what was there. -/
  fresh : ℕ
  nentries : ℕ
  size : ℕ
  isMainMap : Bool
  refCount : ℤ
  hint : ℕ
  firstFree : ℕ

namespace VmMap

def minOffset (m : VmMap) : ℕ := (m.entry 0).vmeStart

def maxOffset (m : VmMap) : ℕ := (m.entry 0).vmeEnd

def entries (m : VmMap) : List ℕ := LinkedRing.walk m.next m.nentries (m.next 0)

def setEntry (m : VmMap) (e : ℕ) (r : VmMapEntry) : VmMap :=
  { m with entry := update m.entry e r }

def entryLink (m : VmMap) (afterWhere e : ℕ) : VmMap :=
  { m with
    nentries := m.nentries + 1
    next := LinkedRing.linkNext m.next afterWhere e
    prev := LinkedRing.linkPrev m.next m.prev afterWhere e }

def entryUnlink (m : VmMap) (e : ℕ) : VmMap :=
  { m with
    nentries := m.nentries - 1
    next := update m.next (m.prev e) (m.next e)
    prev := update m.prev (m.next e) (m.prev e) }

/-! ## Lookup -/

/-- The linear search: whether the address is in an entry, and that entry or the one
before. -/
def lookupLoop (m : VmMap) (address last : ℕ) : ℕ → ℕ → Except Stop (Bool × ℕ)
  | 0, _ => .error .unfinished
  | fuel + 1, cur =>
    if cur = last then
      .ok (false, m.prev cur)
    else if address < (m.entry cur).vmeEnd then
      if (m.entry cur).vmeStart ≤ address then .ok (true, cur) else .ok (false, m.prev cur)
    else
      lookupLoop m address last fuel (m.next cur)

def vmMapLookupEntry (m : VmMap) (address : ℕ) : Except Stop (Bool × ℕ × VmMap) := do
  let cur := if m.hint = 0 then m.next 0 else m.hint
  if (m.entry cur).vmeStart ≤ address then
    if cur ≠ 0 ∧ address < (m.entry cur).vmeEnd then
      return (true, cur, m)
    else
      -- from the hint to the end of the list
      let (found, e) ← m.lookupLoop address 0 (m.nentries + 1) cur
      return (found, e, { m with hint := e })
  else
    -- from the start to the hint, which is looked at
    let (found, e) ← m.lookupLoop address (m.next cur) (m.nentries + 1) (m.next 0)
    return (found, e, { m with hint := e })

/-! ## Clipping -/

/-- The front of the entry becomes an entry of its own. -/
def clipStart (m : VmMap) (e start : ℕ) : VmMap :=
  let r := m.entry e
  let m' := { m with
    fresh := m.fresh + 1
    entry := update (update m.entry m.fresh { r with vmeEnd := start }) e
      { r with offset := u32 (r.offset + u32Sub start r.vmeStart), vmeStart := start } }
  m'.entryLink (m'.prev e) m.fresh

/-- The back of the entry becomes an entry of its own. -/
def clipEnd (m : VmMap) (e stop : ℕ) : VmMap :=
  let r := m.entry e
  let m' := { m with
    fresh := m.fresh + 1
    entry := update (update m.entry m.fresh
      { r with vmeStart := stop, offset := u32 (r.offset + u32Sub stop r.vmeStart) }) e
      { r with vmeEnd := stop } }
  m'.entryLink e m.fresh

/-- `VM_MAP_RANGE_CHECK`. -/
def rangeCheck (m : VmMap) (start stop : ℕ) : ℕ × ℕ :=
  let start := if start < m.minOffset then m.minOffset else start
  let stop := if m.maxOffset < stop then m.maxOffset else stop
  (if stop < start then stop else start, stop)

end VmMap

/-! ## The maps and the objects -/

/-- A call of `vm_fault_wire` or `vm_fault_unwire` on an entry of a map. -/
inductive FaultCall where
  | wire (id e : ℕ)
  | unwire (id e : ℕ)
  deriving DecidableEq

structure Maps (D : Type) where
  table : ℕ → Option VmMap
  /-- The address that `zalloc` gives next. -/
  next : ℕ
  objects : Objects D
  kernelObject : ℕ
  vmSubmapObject : ℕ
  /-- What the entries of a new map hold before they are filled. -/
  zone : ℕ → ℕ → VmMapEntry
  faults : List FaultCall

variable {D : Type}

namespace Maps

def getMap (s : Maps D) (id : ℕ) : Except Stop VmMap :=
  match s.table id with
  | some m => .ok m
  | none => .error .stray

def setMap (s : Maps D) (id : ℕ) (m : VmMap) : Maps D :=
  { s with table := update s.table id (some m) }

def freeMap (s : Maps D) (id : ℕ) : Maps D :=
  { s with table := update s.table id none }

/-- `vm_map_lookup_entry` in one of the maps. -/
def lookupEntry (s : Maps D) (id address : ℕ) : Except Stop (Bool × ℕ × Maps D) := do
  let m ← s.getMap id
  let (found, e, m) ← m.vmMapLookupEntry address
  return (found, e, s.setMap id m)

end Maps

/-- The object of an entry that stands for an object. -/
def VmMapObject.vmObject : VmMapObject → Except Stop (Option ℕ)
  | .null => .ok none
  | .object o => .ok (some o)
  | .map _ => .error .stray

/-- The map of an entry that stands for a map. -/
def VmMapObject.shareMap : VmMapObject → Except Stop (Option ℕ)
  | .null => .ok none
  | .map id => .ok (some id)
  | .object _ => .error .stray

def VmMapObject.ofObject : Option ℕ → VmMapObject
  | none => .null
  | some o => .object o

def vmMapCreate (s : Maps D) (min max : ℕ) : ℕ × Maps D :=
  let m : VmMap := {
    next := fun _ => 0
    prev := fun _ => 0
    entry := update (s.zone s.next) 0
      { s.zone s.next 0 with vmeStart := min, vmeEnd := max }
    fresh := 1
    nentries := 0
    size := 0
    isMainMap := true
    refCount := 1
    hint := 0
    firstFree := 0 }
  (s.next, { s.setMap s.next m with next := s.next + 1 })

def vmMapReference (s : Maps D) : Option ℕ → Except Stop (Maps D)
  | none => .ok s
  | some id => do
    let m ← s.getMap id
    return s.setMap id { m with refCount := m.refCount + 1 }

/-! ## Insertion -/

/-- The entry before can be extended by a range that begins at `start`. -/
def VmMapEntry.extends (r : VmMapEntry) (start : ℕ) : Bool :=
  r.vmeEnd = start ∧ r.isAMap = false ∧ r.isSubMap = false ∧ r.inheritance = .copy ∧
    r.protection = vmProtDefault ∧ r.maxProtection = vmProtAll ∧ r.wiredCount = 0

/-- The fields that `vm_map_insert` gives a new entry; the last four only in a main map. -/
def VmMapEntry.inserted (r : VmMapEntry) (isMainMap : Bool) (object : Option ℕ)
    (offset start stop : ℕ) : VmMapEntry :=
  let r := { r with
    vmeStart := start
    vmeEnd := stop
    isAMap := false
    isSubMap := false
    object := .ofObject object
    offset := offset
    copyOnWrite := false
    needsCopy := false }
  if isMainMap then
    { r with
      inheritance := .copy
      protection := vmProtDefault
      maxProtection := vmProtAll
      wiredCount := 0 }
  else r

/-- The part of `vm_map_insert` that makes a new entry after `prev`. -/
def VmMap.insertAfter (m : VmMap) (prev : ℕ) (object : Option ℕ) (offset start stop : ℕ) :
    VmMap :=
  let e := m.fresh
  let first := m.firstFree = prev ∧ start ≤ (m.entry prev).vmeEnd
  let m := { m with
    fresh := e + 1
    entry := update m.entry e
      ((m.entry e).inserted m.isMainMap object offset start stop) }
  let m := m.entryLink prev e
  { m with
    size := u32 (m.size + u32Sub stop start)
    firstFree := if first then e else m.firstFree }

/-- The try to extend the entry `prev`. -/
def coalescePrev (s : Maps D) (id prev : ℕ) (object : Option ℕ) (start stop : ℕ) :
    Except Stop (Bool × Maps D) := do
  let m ← s.getMap id
  let r := m.entry prev
  if object.isNone ∧ prev ≠ 0 ∧ r.extends start then
    let prevObject ← r.object.vmObject
    let (coalesced, g) ← vmObjectCoalesce s.objects prevObject r.offset
      (u32Sub r.vmeEnd r.vmeStart) (u32Sub stop r.vmeEnd)
    let s := { s with objects := g }
    if coalesced then
      let m := { m.setEntry prev { r with vmeEnd := stop } with
        size := u32 (m.size + u32Sub stop r.vmeEnd) }
      return (true, s.setMap id m)
    else
      return (false, s)
  else
    return (false, s)

def vmMapInsert (s : Maps D) (id : ℕ) (object : Option ℕ) (offset start stop : ℕ) :
    Except Stop (KernReturn × Maps D) := do
  let m ← s.getMap id
  if start < m.minOffset ∨ m.maxOffset < stop ∨ stop ≤ start then
    return (.invalidAddress, s)
  let (found, prev, s) ← s.lookupEntry id start
  if found then
    return (.noSpace, s)
  let m ← s.getMap id
  if m.next prev ≠ 0 ∧ (m.entry (m.next prev)).vmeStart < stop then
    return (.noSpace, s)
  let (coalesced, s) ← coalescePrev s id prev object start stop
  if coalesced then
    return (.success, s)
  let m ← s.getMap id
  return (.success, s.setMap id (m.insertAfter prev object offset start stop))

/-! ## Searches for space -/

/-- The search of `vm_map_find` from the address `start` after `entry`: the entry before the
space, and its address. -/
def VmMap.findLoop (m : VmMap) (length : ℕ) : ℕ → ℕ → ℕ → Except Stop (Option (ℕ × ℕ))
  | 0, _, _ => .error .unfinished
  | fuel + 1, entry, start =>
    let stop := u32 (start + length)
    if m.maxOffset < stop ∨ stop < start then
      .ok none
    else if m.next entry = 0 ∨ stop ≤ (m.entry (m.next entry)).vmeStart then
      .ok (some (entry, start))
    else
      m.findLoop length fuel (m.next entry) (m.entry (m.next entry)).vmeEnd

/-- Where `vm_map_find` begins to search. -/
def findFrom (s : Maps D) (id start : ℕ) : Except Stop (ℕ × ℕ × Maps D) := do
  let m ← s.getMap id
  if start = m.minOffset then
    if m.firstFree = 0 then
      return (0, start, s)
    else
      return (m.firstFree, (m.entry m.firstFree).vmeEnd, s)
  else
    let (found, e, s) ← s.lookupEntry id start
    return (e, if found then (m.entry e).vmeEnd else start, s)

/-- The answer is the address with the result of the call. -/
def vmMapFind (s : Maps D) (id : ℕ) (object : Option ℕ) (offset addr length : ℕ)
    (findSpace : Bool) : Except Stop (KernReturn × ℕ × Maps D) := do
  if findSpace then
    let m ← s.getMap id
    let start := if addr < m.minOffset then m.minOffset else addr
    if m.maxOffset < start then
      return (.noSpace, addr, s)
    let (entry, start, s) ← findFrom s id start
    let m ← s.getMap id
    match ← m.findLoop length (m.nentries + 1) entry start with
    | none => return (.noSpace, addr, s)
    | some (entry, start) =>
      let s := s.setMap id { m with hint := entry }
      let (result, s) ← vmMapInsert s id object offset start (u32 (start + length))
      return (result, start, s)
  else
    let (result, s) ← vmMapInsert s id object offset addr (u32 (addr + length))
    return (result, addr, s)

/-- `(start + mask) & ~mask`. -/
def alignUp (start mask : ℕ) : ℕ := u32 (start + mask) &&& (2 ^ 32 - 1 - mask)

/-- The search of `vm_map_find_entry`. -/
def VmMap.findEntryLoop (m : VmMap) (size mask : ℕ) :
    ℕ → ℕ → ℕ → Except Stop (Option (ℕ × ℕ))
  | 0, _, _ => .error .unfinished
  | fuel + 1, entry, start =>
    let start := alignUp start mask
    let stop := u32 (start + size)
    if m.maxOffset < stop ∨ stop < start then
      .ok none
    else if m.next entry = 0 ∨ stop ≤ (m.entry (m.next entry)).vmeStart then
      .ok (some (entry, start))
    else
      m.findEntryLoop size mask fuel (m.next entry) (m.entry (m.next entry)).vmeEnd

/-- The entry before can be extended for the object. -/
def VmMapEntry.extendsWired (r : VmMapEntry) (o start : ℕ) : Bool :=
  r.vmeEnd = start ∧ r.isShared = false ∧ r.isSubMap = false ∧ r.object = .object o ∧
    r.needsCopy = false ∧ r.inheritance = .copy ∧ r.protection = vmProtDefault ∧
    r.maxProtection = vmProtAll ∧ r.wiredCount = 1 ∧ r.userWiredCount = 0

/-- The fields that `vm_map_find_entry` gives a new entry. -/
def VmMapEntry.found (r : VmMapEntry) (start stop : ℕ) : VmMapEntry :=
  { r with
    vmeStart := start
    vmeEnd := stop
    isShared := false
    isSubMap := false
    object := .null
    offset := 0
    needsCopy := false
    inheritance := .copy
    protection := vmProtDefault
    maxProtection := vmProtAll
    wiredCount := 1
    userWiredCount := 0 }

/-- The answer is the address and the entry with the result of the call. -/
def vmMapFindEntry (s : Maps D) (id size mask : ℕ) (object : Option ℕ) :
    Except Stop (KernReturn × ℕ × ℕ × Maps D) := do
  let m ← s.getMap id
  let start := if m.firstFree = 0 then m.minOffset else (m.entry m.firstFree).vmeEnd
  match ← m.findEntryLoop size mask (m.nentries + 1) m.firstFree start with
  | none => return (.noSpace, 0, 0, s)
  | some (entry, start) =>
    let stop := u32 (start + size)
    let (new, m) :=
      if entry ≠ 0 ∧ object.any (fun o => (m.entry entry).extendsWired o start) then
        (entry, m.setEntry entry { m.entry entry with vmeEnd := stop })
      else
        let m' := { m with
          fresh := m.fresh + 1
          entry := update m.entry m.fresh ((m.entry m.fresh).found start stop) }
        (m.fresh, m'.entryLink entry m.fresh)
    let m := { m with size := u32 (m.size + size), firstFree := new, hint := new }
    return (.success, start, new, s.setMap id m)

end Darwin.Vm
