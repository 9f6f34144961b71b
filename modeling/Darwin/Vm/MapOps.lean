import Darwin.Vm.Map

/-! # Operations on a range of an address map

Each one looks up the first entry of the range and clips it, then walks to the end of the
range and clips the last entry there. Physical maps and the wiring of single pages are left
out; the calls of `vm_fault_wire` and `vm_fault_unwire` are recorded.
-/
namespace Darwin.Vm
open Darwin.Lib

variable {D : Type}

/-! ## Clipping -/

/-- The new half of a clipped entry takes a reference of its own. -/
def clipReference (s : Maps D) (r : VmMapEntry) : Except Stop (Maps D) := do
  if r.isAMap ∨ r.isSubMap then
    let id ← r.object.shareMap
    vmMapReference s id
  else
    let o ← r.object.vmObject
    let g ← vmObjectReference s.objects o
    return { s with objects := g }

def vmMapClipStart (s : Maps D) (id e start : ℕ) : Except Stop (Maps D) := do
  let m ← s.getMap id
  if (m.entry e).vmeStart < start then
    clipReference (s.setMap id (m.clipStart e start)) (m.entry e)
  else
    return s

def vmMapClipEnd (s : Maps D) (id e stop : ℕ) : Except Stop (Maps D) := do
  let m ← s.getMap id
  if stop < (m.entry e).vmeEnd then
    clipReference (s.setMap id (m.clipEnd e stop)) (m.entry e)
  else
    return s

/-! ## Walks over a range -/

/-- The entry at which a range begins. -/
def firstEntry (s : Maps D) (id start : ℕ) : Except Stop (ℕ × Maps D) := do
  let (found, e, s) ← s.lookupEntry id start
  if found then
    let s ← vmMapClipStart s id e start
    return (e, s)
  else
    let m ← s.getMap id
    return (m.next e, s)

/-- `while ((entry != header) && (entry->vme_start < end))`; the body answers the entry to go
on with. -/
def rangeLoop (id stop : ℕ) (body : Maps D → ℕ → Except Stop (ℕ × Maps D)) :
    ℕ → Maps D → ℕ → Except Stop (Maps D)
  | 0, _, _ => .error .unfinished
  | fuel + 1, s, entry => do
    let m ← s.getMap id
    if entry ≠ 0 ∧ (m.entry entry).vmeStart < stop then
      let (next, s) ← body s entry
      rangeLoop id stop body fuel s next
    else
      return s

/-- A range has at most one entry more than the map has now. -/
def overRange (s : Maps D) (id stop : ℕ) (body : Maps D → ℕ → Except Stop (ℕ × Maps D))
    (entry : ℕ) : Except Stop (Maps D) := do
  let m ← s.getMap id
  rangeLoop id stop body (m.nentries + 2) s entry

/-- The entry is clipped to the range before it is worked on. -/
def clipped (id stop : ℕ) (f : Maps D → ℕ → Except Stop (Maps D)) (s : Maps D) (entry : ℕ) :
    Except Stop (ℕ × Maps D) := do
  let s ← vmMapClipEnd s id entry stop
  let m ← s.getMap id
  let s ← f s entry
  return (m.next entry, s)

def updateEntry (s : Maps D) (id e : ℕ) (f : VmMapEntry → VmMapEntry) : Except Stop (Maps D) := do
  let m ← s.getMap id
  return s.setMap id (m.setEntry e (f (m.entry e)))

/-! ## Inheritance and protection -/

def vmMapInherit (s : Maps D) (id start stop : ℕ) (newInheritance : VmInherit) :
    Except Stop (KernReturn × Maps D) :=
  match newInheritance with
  | .other _ => .ok (.invalidArgument, s)
  | _ => do
    let m ← s.getMap id
    let (start, stop) := m.rangeCheck start stop
    let (entry, s) ← firstEntry s id start
    let s ← overRange s id stop (clipped id stop (fun s e =>
      updateEntry s id e (fun r => { r with inheritance := newInheritance }))) entry
    return (.success, s)

/-- The first pass of `vm_map_protect`. -/
def VmMap.protectCheck (m : VmMap) (stop newProt : ℕ) : ℕ → ℕ → Except Stop KernReturn
  | 0, _ => .error .unfinished
  | fuel + 1, current =>
    if current ≠ 0 ∧ (m.entry current).vmeStart < stop then
      if (m.entry current).isSubMap then
        .ok .invalidArgument
      else if newProt &&& (m.entry current).maxProtection ≠ newProt then
        .ok .protectionFailure
      else
        m.protectCheck stop newProt fuel (m.next current)
    else
      .ok .success

def VmMapEntry.protect (r : VmMapEntry) (newProt : ℕ) (setMax : Bool) : VmMapEntry :=
  if setMax then
    { r with maxProtection := newProt, protection := newProt &&& r.protection }
  else
    { r with protection := newProt }

/-- A change of the protection of a shared region is looked up in the sharing map. -/
def protectEntry (newProt : ℕ) (setMax : Bool) (id : ℕ) (s : Maps D) (e : ℕ) :
    Except Stop (Maps D) := do
  let m ← s.getMap id
  let r := m.entry e
  let s ← updateEntry s id e (fun r => r.protect newProt setMax)
  if (r.protect newProt setMax).protection ≠ r.protection ∧ r.isAMap then
    match ← r.object.shareMap with
    | none => throw .stray
    | some share =>
      let (_, _, s) ← s.lookupEntry share r.offset
      return s
  else
    return s

def vmMapProtect (s : Maps D) (id start stop newProt : ℕ) (setMax : Bool) :
    Except Stop (KernReturn × Maps D) := do
  let m ← s.getMap id
  let (start, stop) := m.rangeCheck start stop
  let (entry, s) ← firstEntry s id start
  let m ← s.getMap id
  match ← m.protectCheck stop newProt (m.nentries + 1) entry with
  | .success =>
    let s ← overRange s id stop (clipped id stop (protectEntry newProt setMax id)) entry
    return (.success, s)
  | error => return (error, s)

/-! ## Deletion -/

def vmMapEntryUnwire (s : Maps D) (id e : ℕ) : Except Stop (Maps D) :=
  updateEntry { s with faults := .unwire id e :: s.faults } id e
    (fun r => { r with wiredCount := 0 })

/-- A wired entry is unwired before it goes. -/
def unwireIfWired (s : Maps D) (id e : ℕ) : Except Stop (Maps D) := do
  let m ← s.getMap id
  if (m.entry e).wiredCount ≠ 0 then vmMapEntryUnwire s id e else return s

/-- The reference of the entry is given up. -/
def releaseEntry (deallocate : Maps D → Option ℕ → Except Stop (Maps D)) (s : Maps D)
    (r : VmMapEntry) : Except Stop (Maps D) := do
  if r.isAMap ∨ r.isSubMap then
    let id ← r.object.shareMap
    deallocate s id
  else
    let o ← r.object.vmObject
    let g ← vmObjectDeallocate s.objects o
    return { s with objects := g }

def vmMapEntryDelete (deallocate : Maps D → Option ℕ → Except Stop (Maps D)) (s : Maps D)
    (id e : ℕ) : Except Stop (Maps D) := do
  let s ← unwireIfWired s id e
  let m ← s.getMap id
  let r := m.entry e
  let m := { m.entryUnlink e with size := u32Sub m.size (u32Sub r.vmeEnd r.vmeStart) }
  releaseEntry deallocate (s.setMap id m) r

/-- The pages of the kernel object go with the addresses. -/
def kernelPageRemove (s : Maps D) (r : VmMapEntry) : Except Stop (Maps D) := do
  if r.object = .object s.kernelObject then
    let ob ← s.objects.get s.kernelObject
    let ob := ob.pageRemove r.offset (u32 (r.offset + u32Sub r.vmeEnd r.vmeStart))
    return { s with objects := s.objects.set s.kernelObject ob }
  else
    return s

def deleteEntry (deallocate : Maps D → Option ℕ → Except Stop (Maps D)) (id : ℕ) (s : Maps D)
    (e : ℕ) : Except Stop (Maps D) := do
  let m ← s.getMap id
  let s ← unwireIfWired s id e
  let s ← kernelPageRemove s (m.entry e)
  vmMapEntryDelete deallocate s id e

/-- The lookup of `vm_map_delete` and `vm_map_reallocate`, which leaves the hint before the
range. -/
def firstDoomed (s : Maps D) (id start : ℕ) : Except Stop (ℕ × Maps D) := do
  let (found, e, s) ← s.lookupEntry id start
  if found then
    let s ← vmMapClipStart s id e start
    let m ← s.getMap id
    return (e, s.setMap id { m with hint := m.prev e })
  else
    let m ← s.getMap id
    return (m.next e, s)

/-- `vm_map_delete`, given what gives up a reference to a map. -/
def deleteRange (deallocate : Maps D → Option ℕ → Except Stop (Maps D)) (s : Maps D)
    (id start stop : ℕ) : Except Stop (Maps D) := do
  let (entry, s) ← firstDoomed s id start
  let m ← s.getMap id
  let s := if start ≤ (m.entry m.firstFree).vmeStart then
    s.setMap id { m with firstFree := m.prev entry } else s
  overRange s id stop (clipped id stop (deleteEntry deallocate id)) entry

def vmMapDeallocate : ℕ → Maps D → Option ℕ → Except Stop (Maps D)
  | _, s, none => .ok s
  | 0, _, some _ => .error .unfinished
  | depth + 1, s, some id => do
    let m ← s.getMap id
    let s := s.setMap id { m with refCount := m.refCount - 1 }
    if 0 < m.refCount - 1 then
      return s
    else
      let s ← deleteRange (vmMapDeallocate depth) s id m.minOffset m.maxOffset
      let _ ← s.getMap id
      return s.freeMap id

/-- Maps are nested no deeper than there are maps. -/
def vmMapDelete (s : Maps D) (id start stop : ℕ) : Except Stop (Maps D) :=
  deleteRange (vmMapDeallocate (s.next + 1)) s id start stop

def vmMapRemove (s : Maps D) (id start stop : ℕ) : Except Stop (KernReturn × Maps D) := do
  let m ← s.getMap id
  let (start, stop) := m.rangeCheck start stop
  let s ← vmMapDelete s id start stop
  return (.success, s)

/-! ## Protection checks -/

def VmMap.checkLoop (m : VmMap) (stop protection : ℕ) : ℕ → ℕ → ℕ → Except Stop Bool
  | 0, _, _ => .error .unfinished
  | fuel + 1, entry, start =>
    if start < stop then
      if entry = 0 then
        .ok false
      else if start < (m.entry entry).vmeStart then
        .ok false
      else if (m.entry entry).protection &&& protection ≠ protection then
        .ok false
      else
        m.checkLoop stop protection fuel (m.next entry) (m.entry entry).vmeEnd
    else
      .ok true

def vmMapCheckProtection (s : Maps D) (id start stop protection : ℕ) :
    Except Stop (Bool × Maps D) := do
  let (found, entry, s) ← s.lookupEntry id start
  if found then
    let m ← s.getMap id
    let allowed ← m.checkLoop stop protection (m.nentries + 1) entry start
    return (allowed, s)
  else
    return (false, s)

end Darwin.Vm
