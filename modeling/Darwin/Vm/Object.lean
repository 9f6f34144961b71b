import Darwin.Lib.BitWords

/-! # Virtual memory objects

The graph of `vm_object` structures: each object has its resident pages, perhaps a pager,
and perhaps a shadow, the object that its missing pages come from. Addresses of objects
are numbers that `zalloc` hands out in order; offsets and sizes are 32-bit words.
-/
namespace Darwin.Vm
open Darwin.Lib Function

/-- A resident page: its place in the object and what it holds. -/
structure Page (D : Type) where
  offset : ℕ
  data : D

structure VmObject (D : Type) where
  memq : List (Page D)
  size : ℕ
  refCount : ℤ
  copy : Option ℕ
  shadow : Option ℕ
  shadowOffset : ℕ
  /-- The pages that the pager has. -/
  pager : Option (ℕ → Option D)
  pagingOffset : ℕ
  internal : Bool
  canPersist : Bool
  pagingInProgress : ℕ

structure Objects (D : Type) where
  table : ℕ → Option (VmObject D)
  /-- The address that `zalloc` gives next. -/
  next : ℕ

/-- What stops the kernel. -/
inductive Stop where
  /-- A freed object is used. -/
  | stray
  | copyInconsistency
  | terminateInconsistency
  | collapsedCopyObject
  | pageMissing
  /-- A wiring count overflows. -/
  | wiredCount
  | forkSubmap
  /-- A loop takes more turns than there are objects. -/
  | unfinished
  deriving DecidableEq, Repr

variable {D : Type}

namespace Objects

def get (g : Objects D) (o : ℕ) : Except Stop (VmObject D) :=
  match g.table o with
  | some ob => .ok ob
  | none => .error .stray

def set (g : Objects D) (o : ℕ) (ob : VmObject D) : Objects D :=
  { g with table := update g.table o (some ob) }

/-- `zfree`. -/
def free (g : Objects D) (o : ℕ) : Objects D :=
  { g with table := update g.table o none }

variable {g : Objects D} {o x : ℕ} {ob : VmObject D}

@[simp] theorem set_self : (g.set o ob).table o = some ob := update_self o _ _

@[simp] theorem set_of_ne (h : x ≠ o) : (g.set o ob).table x = g.table x :=
  update_of_ne h _ _

@[simp] theorem set_next : (g.set o ob).next = g.next := rfl

@[simp] theorem free_self : (g.free o).table o = none := update_self o _ _

@[simp] theorem free_of_ne (h : x ≠ o) : (g.free o).table x = g.table x :=
  update_of_ne h _ _

@[simp] theorem free_next : (g.free o).next = g.next := rfl

theorem get_eq (h : g.table o = some ob) : g.get o = .ok ob := by
  rw [get, h]

end Objects

/-! ## Pages -/

/-- `resident_page_count`, which `vm_page_insert` and `vm_page_remove` keep. -/
def VmObject.residentPageCount (ob : VmObject D) : ℕ := ob.memq.length

def VmObject.vmPageLookup (ob : VmObject D) (offset : ℕ) : Option (Page D) :=
  ob.memq.find? (fun p => p.offset == offset)

def VmObject.vmPageInsert (ob : VmObject D) (p : Page D) : VmObject D :=
  { ob with memq := ob.memq ++ [p] }

/-- `vm_object_page_remove`. -/
def VmObject.pageRemove (ob : VmObject D) (start stop : ℕ) : VmObject D :=
  { ob with memq := ob.memq.filter (fun p => ¬ (start ≤ p.offset ∧ p.offset < stop)) }

/-- The page of the pager for an offset of the object. -/
def VmObject.paged (ob : VmObject D) (offset : ℕ) : Option D :=
  ob.pager.bind (fun pager => pager (u32 (offset + ob.pagingOffset)))

/-! ## References -/

/-- The object of `vm_object_template`. -/
def vmObjectTemplate (size : ℕ) : VmObject D where
  memq := []
  size := size
  refCount := 1
  copy := none
  shadow := none
  shadowOffset := 0
  pager := none
  pagingOffset := 0
  internal := true
  canPersist := false
  pagingInProgress := 0

def vmObjectAllocate (g : Objects D) (size : ℕ) : ℕ × Objects D :=
  (g.next, { (g.set g.next (vmObjectTemplate size)) with next := g.next + 1 })

def vmObjectReference (g : Objects D) : Option ℕ → Except Stop (Objects D)
  | none => .ok g
  | some o => do
    let ob ← g.get o
    return g.set o { ob with refCount := ob.refCount + 1 }

def vmObjectTerminate (g : Objects D) (o : ℕ) : Except Stop (Objects D) := do
  let ob ← g.get o
  match ob.shadow with
  | none => return g.free o
  | some s =>
    let sh ← g.get s
    if sh.copy = some o then
      return (g.set s { sh with copy := none }).free o
    else if sh.copy.isSome then
      throw .terminateInconsistency
    else
      return g.free o

/-- The loop of `vm_object_deallocate`. -/
def deallocateLoop : ℕ → Objects D → Option ℕ → Except Stop (Objects D)
  | _, g, none => .ok g
  | 0, _, some _ => .error .unfinished
  | fuel + 1, g, some o => do
    let ob ← g.get o
    let g := g.set o { ob with refCount := ob.refCount - 1 }
    if ob.refCount - 1 ≠ 0 then
      return g
    else if ob.canPersist ∧ 0 < ob.residentPageCount then
      return g
    else
      let g ← vmObjectTerminate g o
      deallocateLoop fuel g ob.shadow

def vmObjectDeallocate (g : Objects D) (object : Option ℕ) : Except Stop (Objects D) :=
  deallocateLoop g.next g object

/-! ## Collapse -/

/-- The pages of the backing object move to the parent, except those that fall outside the
parent and those the parent has itself. -/
def absorb (backingOffset : ℕ) : VmObject D → List (Page D) → VmObject D
  | ob, [] => ob
  | ob, p :: rest =>
    if p.offset < backingOffset ∨ ob.size ≤ p.offset - backingOffset then
      absorb backingOffset ob rest
    else if (ob.vmPageLookup (p.offset - backingOffset)).isSome then
      absorb backingOffset ob rest
    else
      absorb backingOffset (ob.vmPageInsert ⟨p.offset - backingOffset, p.data⟩) rest

/-- A page of the backing object that the parent needs. -/
def stillNeeded (ob : VmObject D) (p : Page D) : Bool :=
  ob.shadowOffset ≤ p.offset ∧ p.offset - ob.shadowOffset ≤ ob.size ∧
    (ob.vmPageLookup (p.offset - ob.shadowOffset)).isNone

/-- The parent after it has taken the pages, the pager and the shadow of the backing
object. -/
def collapsed (ob back : VmObject D) : VmObject D :=
  { absorb ob.shadowOffset ob back.memq with
    pager := back.pager
    pagingOffset := u32 (back.pagingOffset + ob.shadowOffset)
    shadow := back.shadow
    shadowOffset := u32 (ob.shadowOffset + back.shadowOffset) }

/-- The parent that shadows the next object of the chain. -/
def bypassed (ob back : VmObject D) : VmObject D :=
  { ob with shadow := back.shadow, shadowOffset := u32 (ob.shadowOffset + back.shadowOffset) }

/-- Whether the object has a copy-object. -/
def Objects.hasCopy (g : Objects D) : Option ℕ → Except Stop Bool
  | none => .ok false
  | some s => do
    let sh ← g.get s
    return sh.copy.isSome

/-- One turn of the loop in `vm_object_collapse`; `none` when it returns. -/
def collapseStep (g : Objects D) (object : ℕ) : Except Stop (Option (Objects D)) := do
  let ob ← g.get object
  if ob.pagingInProgress ≠ 0 ∨ ob.pager.isSome then
    return none
  match ob.shadow with
  | none => return none
  | some backing =>
    let back ← g.get backing
    if back.internal = false ∨ back.pagingInProgress ≠ 0 then
      return none
    else if ← g.hasCopy back.shadow then
      return none
    else if back.refCount = 1 then
      let g := g.set object (collapsed ob back)
      if ← g.hasCopy back.shadow then
        throw .collapsedCopyObject
      return some (g.free backing)
    else if back.pager.isSome then
      return none
    else if back.memq.any (stillNeeded ob) then
      return none
    else
      let g ← vmObjectReference (g.set object (bypassed ob back)) back.shadow
      let back ← g.get backing
      return some (g.set backing { back with refCount := back.refCount - 1 })

def collapseLoop : ℕ → Objects D → ℕ → Except Stop (Objects D)
  | 0, _, _ => .error .unfinished
  | fuel + 1, g, object => do
    match ← collapseStep g object with
    | none => return g
    | some g => collapseLoop fuel g object

def vmObjectCollapse (g : Objects D) : Option ℕ → Except Stop (Objects D)
  | none => .ok g
  | some object => collapseLoop (g.next + 1) g object

/-! ## Copies and shadows -/

/-- What `vm_object_copy` returns through its pointers. -/
structure ObjectCopy where
  dstObject : Option ℕ
  dstOffset : ℕ
  srcNeedsCopy : Bool

/-- The part of `vm_object_copy` that makes a new copy-object. -/
def newCopyObject (g : Objects D) (srcObject srcOffset : ℕ) :
    Except Stop (ObjectCopy × Objects D) := do
  let src ← g.get srcObject
  let (newCopy, g) := vmObjectAllocate g src.size
  let new ← g.get newCopy
  let (src, new, g) ← match src.copy with
    | none => pure (src, new, g)
    | some oldCopy => do
      let old ← g.get oldCopy
      if old.shadow ≠ some srcObject ∨ old.shadowOffset ≠ 0 then
        throw .copyInconsistency
      pure ({ src with refCount := src.refCount - 1 }, { new with refCount := new.refCount + 1 },
        g.set oldCopy { old with shadow := some newCopy })
  let g := g.set newCopy { new with shadow := some srcObject, shadowOffset := 0 }
  let g := g.set srcObject { src with refCount := src.refCount + 1, copy := some newCopy }
  return (⟨some newCopy, srcOffset, false⟩, g)

/-- The copy-object that can be used once more: it has received no page yet. -/
def Objects.unusedCopy (g : Objects D) : Option ℕ → Except Stop (Option ℕ)
  | none => .ok none
  | some oldCopy => do
    let old ← g.get oldCopy
    return if old.residentPageCount = 0 ∧ old.pager.isNone then some oldCopy else none

def vmObjectCopy (g : Objects D) (srcObject : Option ℕ) (srcOffset : ℕ) :
    Except Stop (ObjectCopy × Objects D) :=
  match srcObject with
  | none => .ok (⟨none, 0, false⟩, g)
  | some o => do
    let src ← g.get o
    if src.pager.isNone ∨ src.internal then
      return (⟨some o, srcOffset, true⟩, g.set o { src with refCount := src.refCount + 1 })
    else
      let g ← vmObjectCollapse g (some o)
      let src ← g.get o
      match ← g.unusedCopy src.copy with
      | some oldCopy =>
        let g ← vmObjectReference g (some oldCopy)
        return (⟨some oldCopy, srcOffset, false⟩, g)
      | none => newCopyObject g o srcOffset

/-- The new object and the offset into it, which is 0. -/
def vmObjectShadow (g : Objects D) (source : Option ℕ) (offset length : ℕ) : ℕ × Objects D :=
  let (result, g) := vmObjectAllocate g length
  (result, g.set result { vmObjectTemplate length with shadow := source, shadowOffset := offset })

/-- `vm_object_coalesce` with no second object; the answer is `TRUE` with the new graph. -/
def vmObjectCoalesce (g : Objects D) (prevObject : Option ℕ) (prevOffset prevSize nextSize : ℕ) :
    Except Stop (Bool × Objects D) :=
  match prevObject with
  | none => .ok (true, g)
  | some o => do
    let g ← vmObjectCollapse g (some o)
    let ob ← g.get o
    if 1 < ob.refCount ∨ ob.pager.isSome ∨ ob.shadow.isSome ∨ ob.copy.isSome then
      return (false, g)
    else
      let newsize := u32 (prevOffset + prevSize + nextSize)
      let ob := ob.pageRemove (u32 (prevOffset + prevSize)) newsize
      return (true, g.set o { ob with size := max ob.size newsize })

end Darwin.Vm
