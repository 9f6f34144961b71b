import Darwin.Vm.MapOps

/-! # Copies of address ranges

`vm_map_copy` walks over the two ranges with one entry of each, clipped to the same length,
and goes into the sharing maps that it meets. `vm_map_fork` makes a map out of another by
the inheritance of its entries.
-/
namespace Darwin.Vm
open Darwin.Lib

variable {D : Type}

/-! ## One entry -/

/-- The pages of a wired entry are copied one by one. -/
def faultCopyLoop (srcObject : Option ℕ) (srcOffset dstObject stop : ℕ) :
    ℕ → Objects D → ℕ → ℕ → Except Stop (Objects D)
  | 0, _, _, _ => .error .unfinished
  | fuel + 1, g, vaddr, dstOffset => do
    if vaddr < stop then
      let dst ← g.get dstObject
      match srcObject with
      | none => throw .stray
      | some o =>
        let src ← g.get o
        match src.vmPageLookup (u32 (dstOffset + srcOffset)) with
        | none => throw .pageMissing
        | some p =>
          faultCopyLoop srcObject srcOffset dstObject stop fuel
            (g.set dstObject (dst.vmPageInsert ⟨dstOffset, p.data⟩)) (u32 (vaddr + pageSize))
            (u32 (dstOffset + pageSize))
    else
      return g

/-- The object that the destination had is not given up here. -/
def vmFaultCopyEntry (s : Maps D) (dst src dstEntry srcEntry : ℕ) : Except Stop (Maps D) := do
  let ms ← s.getMap src
  let md ← s.getMap dst
  let r := ms.entry srcEntry
  let d := md.entry dstEntry
  let srcObject ← r.object.vmObject
  let (o, g) := vmObjectAllocate s.objects (u32Sub d.vmeEnd d.vmeStart)
  let s ← updateEntry { s with objects := g } dst dstEntry
    (fun d => { d with object := .object o, offset := 0 })
  let g ← faultCopyLoop srcObject r.offset o d.vmeEnd ((d.vmeEnd - d.vmeStart) / pageSize + 2)
    s.objects d.vmeStart 0
  return { s with objects := g }

/-- The entry of the destination after the copy of `r`. -/
def VmMapEntry.copied (d r : VmMapEntry) (c : ObjectCopy) : VmMapEntry :=
  { d with
    object := .ofObject c.dstObject
    offset := c.dstOffset
    needsCopy := true
    copyOnWrite := true
    protection := if r.protection &&& vmProtExecute ≠ 0 then
      d.protection ||| (vmProtExecute &&& d.maxProtection) else d.protection }

def vmMapCopyEntry (s : Maps D) (src dst srcEntry dstEntry : ℕ) : Except Stop (Maps D) := do
  let ms ← s.getMap src
  let md ← s.getMap dst
  if (ms.entry srcEntry).isSubMap ∨ (md.entry dstEntry).isSubMap then
    return s
  let s ← unwireIfWired s dst dstEntry
  let ms ← s.getMap src
  let md ← s.getMap dst
  let r := ms.entry srcEntry
  if r.wiredCount = 0 then
    let tempObject ← (md.entry dstEntry).object.vmObject
    let srcObject ← r.object.vmObject
    let (c, g) ← vmObjectCopy s.objects srcObject r.offset
    let s ← updateEntry { s with objects := g } src srcEntry
      (fun r => { r with needsCopy := r.needsCopy || c.srcNeedsCopy, copyOnWrite := true })
    let s ← updateEntry s dst dstEntry (fun d => d.copied r c)
    let g ← vmObjectDeallocate s.objects tempObject
    return { s with objects := g }
  else
    vmFaultCopyEntry s dst src dstEntry srcEntry

/-! ## Ranges -/

/-- What is checked before the copy, for two main maps; a destination that is to be allocated
is allocated here. -/
def copyChecks (s : Maps D) (dst src dstStart dstEnd srcStart srcEnd : ℕ) (dstAlloc : Bool) :
    Except Stop (KernReturn × Maps D) := do
  let ms ← s.getMap src
  let md ← s.getMap dst
  if ms.isMainMap ∧ md.isMainMap then
    let (readable, s) ← vmMapCheckProtection s src srcStart srcEnd vmProtRead
    if readable = false then
      return (.protectionFailure, s)
    if dstAlloc then
      vmMapInsert s dst none 0 dstStart dstEnd
    else
      let (writable, s) ← vmMapCheckProtection s dst dstStart dstEnd vmProtWrite
      return (if writable then .success else .protectionFailure, s)
  else
    return (.success, s)

/-- The entries that the two ranges begin with. -/
def copyFirst (s : Maps D) (dst src dstStart srcStart : ℕ) : Except Stop (ℕ × ℕ × Maps D) := do
  let (_, srcEntry, s) ← s.lookupEntry src srcStart
  let s ← vmMapClipStart s src srcEntry srcStart
  let (_, dstEntry, s) ← s.lookupEntry dst dstStart
  let s ← vmMapClipStart s dst dstEntry dstStart
  if src = dst ∧ srcEntry = dstEntry then
    -- the second clip may have moved the start of the first
    let (_, srcEntry, s) ← s.lookupEntry src srcStart
    return (srcEntry, dstEntry, s)
  else
    return (srcEntry, dstEntry, s)

/-- The two entries are clipped to the ends of the ranges, then each to the length of the
other. -/
def clipBoth (s : Maps D) (dst src dstEnd srcEnd dstEntry srcEntry : ℕ) :
    Except Stop (Maps D) := do
  let s ← vmMapClipEnd s src srcEntry srcEnd
  let s ← vmMapClipEnd s dst dstEntry dstEnd
  let r := (← s.getMap src).entry srcEntry
  let d := (← s.getMap dst).entry dstEntry
  let s ← vmMapClipEnd s src srcEntry (u32 (r.vmeStart + u32Sub d.vmeEnd d.vmeStart))
  let r := (← s.getMap src).entry srcEntry
  let d := (← s.getMap dst).entry dstEntry
  vmMapClipEnd s dst dstEntry (u32 (d.vmeStart + u32Sub r.vmeEnd r.vmeStart))

/-- The map that an entry is followed into, and the address there. -/
def followed (id : ℕ) (r : VmMapEntry) : Except Stop (ℕ × ℕ) := do
  if r.isAMap then
    match ← r.object.shareMap with
    | none => throw .stray
    | some share => return (share, r.offset)
  else
    return (id, r.vmeStart)

/-- At least one of the entries stands for a sharing map: the copy goes on there. -/
def copyShared (recur : Maps D → ℕ → ℕ → ℕ → ℕ → ℕ → Except Stop (Maps D)) (s : Maps D)
    (dst src dstEntry srcEntry : ℕ) : Except Stop (Maps D) := do
  let r := (← s.getMap src).entry srcEntry
  let d := (← s.getMap dst).entry dstEntry
  let newSize := u32Sub d.vmeEnd d.vmeStart
  let (newSrc, newSrcStart) ← followed src r
  let (newDst, newDstStart) ← followed dst d
  let s ← if d.isAMap ∧ newDst ≠ newSrc then do
      -- what the destination has is only thrown away
      let s ← vmMapDelete s newDst newDstStart (u32 (newDstStart + newSize))
      let (_, s) ← vmMapInsert s newDst none 0 newDstStart (u32 (newDstStart + newSize))
      pure s
    else pure s
  recur s newDst newSrc newDstStart newSize newSrcStart

def copyLoop (recur : Maps D → ℕ → ℕ → ℕ → ℕ → ℕ → Except Stop (Maps D))
    (dst src dstEnd srcEnd : ℕ) : ℕ → Maps D → ℕ → ℕ → ℕ → Except Stop (Maps D)
  | 0, _, _, _, _ => .error .unfinished
  | fuel + 1, s, dstEntry, srcEntry, srcStart => do
    if srcStart < srcEnd then
      let s ← clipBoth s dst src dstEnd srcEnd dstEntry srcEntry
      let r := (← s.getMap src).entry srcEntry
      let d := (← s.getMap dst).entry dstEntry
      let s ← if r.isAMap = false ∧ d.isAMap = false then
          vmMapCopyEntry s src dst srcEntry dstEntry
        else
          copyShared recur s dst src dstEntry srcEntry
      let ms ← s.getMap src
      let md ← s.getMap dst
      copyLoop recur dst src dstEnd srcEnd fuel s (md.next dstEntry) (ms.next srcEntry)
        (ms.entry srcEntry).vmeEnd
    else
      return s

/-- The copy itself, after the checks. Where the ranges overlap, each turn may leave an
entry that the source comes to later. -/
def copyRange (recur : Maps D → ℕ → ℕ → ℕ → ℕ → ℕ → Except Stop (Maps D)) (s : Maps D)
    (dst src dstAddr len srcAddr : ℕ) : Except Stop (Maps D) := do
  let (srcEntry, dstEntry, s) ← copyFirst s dst src dstAddr srcAddr
  if src = dst ∧ srcEntry = dstEntry then
    return s
  else
    let ms ← s.getMap src
    let md ← s.getMap dst
    copyLoop recur dst src (u32 (dstAddr + len)) (u32 (srcAddr + len))
      ((len + 1) * (ms.nentries + md.nentries + 4)) s dstEntry srcEntry srcAddr

/-- `vm_map_copy`, so many sharing maps deep. -/
def copyNested : ℕ → Maps D → ℕ → ℕ → ℕ → ℕ → ℕ → Bool → Bool →
    Except Stop (KernReturn × Maps D)
  | 0, _, _, _, _, _, _, _, _ => .error .unfinished
  | depth + 1, s, dst, src, dstAddr, len, srcAddr, dstAlloc, srcDestroy => do
    let srcEnd := u32 (srcAddr + len)
    let dstEnd := u32 (dstAddr + len)
    if dstEnd < dstAddr ∨ srcEnd < srcAddr then
      return (.noSpace, s)
    let (result, s) ← copyChecks s dst src dstAddr dstEnd srcAddr srcEnd dstAlloc
    let s ← if result = .success then
        copyRange (fun s dst src dstAddr len srcAddr => do
          let (_, s) ← copyNested depth s dst src dstAddr len srcAddr false false
          return s) s dst src dstAddr len srcAddr
      else pure s
    -- the source is destroyed here, whatever the result is
    let s ← if srcDestroy then vmMapDelete s src srcAddr srcEnd else pure s
    return (result, s)

def vmMapCopy (s : Maps D) (dst src dstAddr len srcAddr : ℕ) (dstAlloc srcDestroy : Bool) :
    Except Stop (KernReturn × Maps D) :=
  copyNested (s.next + 2) s dst src dstAddr len srcAddr dstAlloc srcDestroy

/-! ## Fork -/

/-- A copy of the record is linked in at the end. -/
def VmMap.appendEntry (m : VmMap) (r : VmMapEntry) : VmMap :=
  let m' := { m with fresh := m.fresh + 1, entry := Function.update m.entry m.fresh r }
  m'.entryLink (m'.prev 0) m.fresh

/-- A region that is to be shared gets a sharing map. -/
def makeShared (s : Maps D) (old oldEntry : ℕ) : Except Stop (Maps D) := do
  let r := (← s.getMap old).entry oldEntry
  if r.isAMap then
    return s
  else
    let (share, s) := vmMapCreate s r.vmeStart r.vmeEnd
    let m ← s.getMap share
    let s := s.setMap share ({ m with isMainMap := false }.appendEntry r)
    updateEntry s old oldEntry
      (fun r => { r with isAMap := true, object := .map share, offset := r.vmeStart })

def forkShare (s : Maps D) (old new oldEntry : ℕ) : Except Stop (Maps D) := do
  let s ← makeShared s old oldEntry
  let r := (← s.getMap old).entry oldEntry
  let m ← s.getMap new
  let share ← r.object.shareMap
  vmMapReference (s.setMap new (m.appendEntry r)) share

def forkCopy (s : Maps D) (old new oldEntry : ℕ) : Except Stop (Maps D) := do
  let r := (← s.getMap old).entry oldEntry
  let m ← s.getMap new
  let s := s.setMap new (m.appendEntry { r with wiredCount := 0, object := .null, isAMap := false })
  if r.isAMap then
    match ← r.object.shareMap with
    | none => throw .stray
    | some share =>
      let (_, s) ← vmMapCopy s new share r.vmeStart (u32Sub r.vmeEnd r.vmeStart) r.offset false false
      return s
  else
    vmMapCopyEntry s old new oldEntry m.fresh

def forkLoop (old new : ℕ) : ℕ → Maps D → ℕ → Except Stop (Maps D)
  | 0, _, _ => .error .unfinished
  | fuel + 1, s, oldEntry => do
    if oldEntry = 0 then
      return s
    else
      let r := (← s.getMap old).entry oldEntry
      if r.isSubMap then
        throw .forkSubmap
      let s ← match r.inheritance with
        | .share => forkShare s old new oldEntry
        | .copy => forkCopy s old new oldEntry
        | _ => pure s
      let m ← s.getMap old
      forkLoop old new fuel s (m.next oldEntry)

def vmMapFork (s : Maps D) (old : ℕ) : Except Stop (ℕ × Maps D) := do
  let mo ← s.getMap old
  let (new, s) := vmMapCreate s mo.minOffset mo.maxOffset
  let s ← forkLoop old new (mo.nentries + 1) s (mo.next 0)
  let mo ← s.getMap old
  let m ← s.getMap new
  return (new, s.setMap new { m with size := mo.size })

/-! ## Moves -/

def truncPage (x : ℕ) : ℕ := x - x % pageSize

def roundPage (x : ℕ) : ℕ := truncPage (u32 (x + (pageSize - 1)))

/-- The answer is the address with the result of the call. -/
def vmAllocate (s : Maps D) (id addr size : ℕ) (anywhere : Bool) :
    Except Stop (KernReturn × ℕ × Maps D) := do
  if size = 0 then
    return (.success, 0, s)
  else
    let m ← s.getMap id
    let addr := if anywhere then m.minOffset else truncPage addr
    vmMapFind s id none 0 addr (roundPage size) anywhere

def vmDeallocate (s : Maps D) (id start size : ℕ) : Except Stop (KernReturn × Maps D) :=
  if size = 0 then
    .ok (.success, s)
  else
    vmMapRemove s id (truncPage start) (roundPage (u32 (start + size)))

/-- The answer is the address of the copy with the result of the call. -/
def vmMove (s : Maps D) (src srcAddr dst numBytes : ℕ) (srcDealloc : Bool) :
    Except Stop (KernReturn × ℕ × Maps D) := do
  if numBytes = 0 then
    return (.success, 0, s)
  else
    let srcStart := truncPage srcAddr
    let srcSize := u32Sub (roundPage (u32 (srcAddr + numBytes))) srcStart
    let (result, dstStart, s) ← vmAllocate s dst 0 srcSize true
    if result ≠ .success then
      return (result, 0, s)
    else
      let (result, s) ← vmMapCopy s dst src dstStart srcSize srcStart false srcDealloc
      if result = .success then
        return (.success, u32 (dstStart + (srcAddr - srcStart)), s)
      else
        let (_, s) ← vmDeallocate s dst dstStart srcSize
        return (result, 0, s)

end Darwin.Vm
