import Mathlib.Data.Int.Notation
import Mathlib.Data.Nat.Notation
import Mathlib.Logic.Function.Basic

/-! # The cache of objects

Objects without references stay in memory, on a list, as long as they may persist and have pages. A
hash table finds an object by its pager and gives it a reference again. When there are too many
objects on the list, the first ones are looked up and then released for good, which may put their
shadows on the list.
-/
namespace Darwin.Vm
open Function

/-- What the cache reads of a `vm_object`. A pager is a number, and none the null pager. -/
structure CacheObject where
  refCount : ℤ
  pager : Option ℕ
  shadow : Option ℕ
  canPersist : Bool
  residentPageCount : ℕ
  deriving DecidableEq, Repr

structure ObjectCache where
  table : ℕ → Option CacheObject
  /-- The address that `zalloc` gives next. -/
  next : ℕ
  /-- The objects of the entries in each bucket. -/
  vmObjectHashtable : ℕ → List ℕ
  vmObjectCachedList : List ℕ
  vmObjectCached : ℤ
  vmCacheMax : ℕ

/-- What stops the kernel. -/
inductive CacheStop where
  /-- A freed object is used. -/
  | stray
  /-- The first object of an empty list is used. -/
  | noObject
  /-- I'm sooo confused. -/
  | confused
  /-- A loop takes more turns than there are objects. -/
  | unfinished
  deriving DecidableEq, Repr

def vmObjectHashCount : ℕ := 1024

def vmObjectHash (pager : Option ℕ) : ℕ := (pager.getD 0 >>> 8) % vmObjectHashCount

namespace ObjectCache

def get (s : ObjectCache) (o : ℕ) : Except CacheStop CacheObject :=
  match s.table o with
  | some ob => .ok ob
  | none => .error .stray

def set (s : ObjectCache) (o : ℕ) (ob : CacheObject) : ObjectCache :=
  { s with table := update s.table o (some ob) }

/-- `zfree`. -/
def free (s : ObjectCache) (o : ℕ) : ObjectCache :=
  { s with table := update s.table o none }

/-! ## The hash table -/

/-- The search of a bucket. -/
def findEntry (s : ObjectCache) (pager : Option ℕ) : List ℕ → Except CacheStop (Option ℕ)
  | [] => .ok none
  | o :: rest => do
    let ob ← s.get o
    if ob.pager = pager then return some o
    else s.findEntry pager rest

def vmObjectLookup (s : ObjectCache) (pager : Option ℕ) : Except CacheStop (Option ℕ × ObjectCache) := do
  match ← s.findEntry pager (s.vmObjectHashtable (vmObjectHash pager)) with
  | none => return (none, s)
  | some o =>
    let ob ← s.get o
    let s := if ob.refCount = 0 then
        { s with
          vmObjectCachedList := s.vmObjectCachedList.erase o
          vmObjectCached := s.vmObjectCached - 1 }
      else s
    return (some o, s.set o { ob with refCount := ob.refCount + 1 })

def setBucket (s : ObjectCache) (bucket : ℕ) (entries : List ℕ) : ObjectCache :=
  { s with vmObjectHashtable := update s.vmObjectHashtable bucket entries }

def vmObjectEnter (s : ObjectCache) (object : Option ℕ) (pager : Option ℕ) : Except CacheStop ObjectCache :=
  match object, pager with
  | some o, some _ => do
    let ob ← s.get o
    let s := s.set o { ob with canPersist := true }
    let bucket := vmObjectHash pager
    return s.setBucket bucket (s.vmObjectHashtable bucket ++ [o])
  | _, _ => .ok s

def vmObjectSetpager (s : ObjectCache) (o : ℕ) (pager : Option ℕ) : Except CacheStop ObjectCache := do
  let ob ← s.get o
  return s.set o { ob with pager := pager }

/-- The bucket without the first entry for the pager. -/
def removeEntry (s : ObjectCache) (pager : Option ℕ) : List ℕ → Except CacheStop (List ℕ)
  | [] => .ok []
  | o :: rest => do
    let ob ← s.get o
    if ob.pager = pager then return rest
    else return o :: (← s.removeEntry pager rest)

def vmObjectRemove (s : ObjectCache) (pager : Option ℕ) : Except CacheStop ObjectCache := do
  let bucket := vmObjectHash pager
  return s.setBucket bucket (← s.removeEntry pager (s.vmObjectHashtable bucket))

/-! ## References -/

def vmObjectReference (s : ObjectCache) : Option ℕ → Except CacheStop ObjectCache
  | none => .ok s
  | some o => do
    let ob ← s.get o
    return s.set o { ob with refCount := ob.refCount + 1 }

/-- `vm_object_cache_object`, with the deallocation that it ends with. -/
def cacheObject (deallocate : ObjectCache → Option ℕ → Except CacheStop ObjectCache) (s : ObjectCache) (o : ℕ)
    (shouldCache : Bool) : Except CacheStop ObjectCache := do
  let ob ← s.get o
  deallocate (s.set o { ob with canPersist := shouldCache }) (some o)

/-- The turn that the loops of `vm_object_cache_trim`, `vm_object_cache_steal` and
`vm_object_cache_clear` have in common. -/
def evict (deallocate : ObjectCache → Option ℕ → Except CacheStop ObjectCache) (s : ObjectCache) :
    Except CacheStop ObjectCache :=
  match s.vmObjectCachedList with
  | [] => .error .noObject
  | o :: _ => do
    let ob ← s.get o
    let (found, s) ← s.vmObjectLookup ob.pager
    if found = some o then cacheObject deallocate s o false
    else throw .confused

mutual

/-- The loop of `vm_object_deallocate`. -/
def deallocateLoop : ℕ → ObjectCache → Option ℕ → Except CacheStop ObjectCache
  | _, s, none => .ok s
  | 0, _, some _ => .error .unfinished
  | fuel + 1, s, some o => do
    let ob ← s.get o
    let s := s.set o { ob with refCount := ob.refCount - 1 }
    if ob.refCount - 1 ≠ 0 then return s
    else if ob.canPersist ∧ 0 < ob.residentPageCount then
      trimLoop fuel { s with
        vmObjectCachedList := s.vmObjectCachedList ++ [o]
        vmObjectCached := s.vmObjectCached + 1 }
    else do
      let s ← s.vmObjectRemove ob.pager
      deallocateLoop fuel (s.free o) ob.shadow

/-- The loop of `vm_object_cache_trim`. -/
def trimLoop : ℕ → ObjectCache → Except CacheStop ObjectCache
  | 0, _ => .error .unfinished
  | fuel + 1, s =>
    if (s.vmCacheMax : ℤ) < s.vmObjectCached then do
      let s ← evict (deallocateLoop fuel) s
      trimLoop fuel s
    else return s

end

/-- More turns than all loops together can take. -/
def turns (s : ObjectCache) : ℕ := 3 * s.next + 2

def vmObjectDeallocate (s : ObjectCache) (object : Option ℕ) : Except CacheStop ObjectCache :=
  deallocateLoop s.turns s object

def vmObjectCacheTrim (s : ObjectCache) : Except CacheStop ObjectCache := trimLoop s.turns s

def vmObjectCacheObject (s : ObjectCache) (object : Option ℕ) (shouldCache : Bool) :
    Except CacheStop ObjectCache :=
  match object with
  | none => .ok s
  | some o => cacheObject vmObjectDeallocate s o shouldCache

/-- The loop of `vm_object_cache_clear`. -/
def clearLoop : ℕ → ObjectCache → Except CacheStop ObjectCache
  | 0, _ => .error .unfinished
  | fuel + 1, s =>
    if s.vmObjectCachedList = [] then return s
    else do
      let s ← evict vmObjectDeallocate s
      clearLoop fuel s

def vmObjectCacheClear (s : ObjectCache) : Except CacheStop ObjectCache := clearLoop (s.next + 1) s

/-- With the number of objects that have been removed. -/
def vmObjectCacheSteal : ℕ → ObjectCache → Except CacheStop (ℕ × ObjectCache)
  | 0, s => .ok (0, s)
  | num + 1, s =>
    if s.vmObjectCachedList = [] then .ok (0, s)
    else do
      let s ← evict vmObjectDeallocate s
      let (numRemoved, s) ← vmObjectCacheSteal num s
      return (numRemoved + 1, s)

/-! ## The system -/

/-- A new object, with one reference. -/
def vmObjectAllocate (s : ObjectCache) : ObjectCache :=
  { (s.set s.next ⟨1, none, none, false, 0⟩) with next := s.next + 1 }

end ObjectCache

/-- The cache, and how many references to each object its clients have. -/
structure CacheSystem where
  cache : ObjectCache
  held : ℕ → ℕ

/-- `enter` is an object's association with its pager, with `vm_object_setpager`; `setpager` is one
without the hash table. A client puts an object behind another one as its shadow, and pages come
and go. -/
inductive CacheEvent where
  | allocate
  | shadow (o t : ℕ)
  | enter (o pager : ℕ)
  | setpager (o pager : ℕ)
  | pages (o count : ℕ)
  | lookup (pager : Option ℕ)
  | reference (o : ℕ)
  | deallocate (o : ℕ)
  | cacheObject (o : ℕ) (shouldCache : Bool)
  | trim
  | steal (num : ℕ)
  | clear
  deriving DecidableEq, Repr

namespace CacheSystem

def gain (held : ℕ → ℕ) (o : ℕ) : ℕ → ℕ := update held o (held o + 1)

def lose (held : ℕ → ℕ) (o : ℕ) : ℕ → ℕ := update held o (held o - 1)

def step (s : CacheSystem) : CacheEvent → Except CacheStop CacheSystem
  | .allocate => .ok ⟨s.cache.vmObjectAllocate, gain s.held s.cache.next⟩
  | .shadow o t => do
    let ob ← s.cache.get o
    return ⟨s.cache.set o { ob with shadow := some t }, lose s.held t⟩
  | .enter o pager => do
    let cache ← s.cache.vmObjectSetpager o (some pager)
    return { s with cache := ← cache.vmObjectEnter (some o) (some pager) }
  | .setpager o pager => return { s with cache := ← s.cache.vmObjectSetpager o (some pager) }
  | .pages o count => do
    let ob ← s.cache.get o
    return { s with cache := s.cache.set o { ob with residentPageCount := count } }
  | .lookup pager => do
    let (found, cache) ← s.cache.vmObjectLookup pager
    match found with
    | none => return ⟨cache, s.held⟩
    | some o => return ⟨cache, gain s.held o⟩
  | .reference o => return ⟨← s.cache.vmObjectReference (some o), gain s.held o⟩
  | .deallocate o => return ⟨← s.cache.vmObjectDeallocate (some o), lose s.held o⟩
  | .cacheObject o shouldCache => return ⟨← s.cache.vmObjectCacheObject (some o) shouldCache, lose s.held o⟩
  | .trim => return { s with cache := ← s.cache.vmObjectCacheTrim }
  | .steal num => return { s with cache := (← s.cache.vmObjectCacheSteal num).2 }
  | .clear => return { s with cache := ← s.cache.vmObjectCacheClear }

/-- The object has an entry in the hash table. -/
def Entered (s : ObjectCache) (o : ℕ) : Prop :=
  ∃ ob, s.table o = some ob ∧ o ∈ s.vmObjectHashtable (vmObjectHash ob.pager)

/-- No live object has the pager. -/
def NewPager (s : ObjectCache) (pager : ℕ) : Prop := ∀ o ob, s.table o = some ob → ob.pager ≠ some pager

/-- Clients use the references that they have. An object gets a pager once, and no other live object has
it. Only an object that has been looked up is made persistent. -/
def Allowed (s : CacheSystem) : CacheEvent → Prop
  | .shadow o t => s.held o ≠ 0 ∧ s.held t ≠ 0 ∧ ∃ ob, s.cache.table o = some ob ∧ ob.shadow = none
  | .enter o pager | .setpager o pager => s.held o ≠ 0 ∧ NewPager s.cache pager ∧
    ∃ ob, s.cache.table o = some ob ∧ ob.pager = none
  | .pages o _ => s.cache.table o ≠ none
  | .reference o | .deallocate o => s.held o ≠ 0
  | .cacheObject o shouldCache => s.held o ≠ 0 ∧ (shouldCache = true → Entered s.cache o)
  | _ => True

/-- No objects yet. -/
def init (vmCacheMax : ℕ) : CacheSystem where
  cache :=
    { table := fun _ => none
      next := 0
      vmObjectHashtable := fun _ => []
      vmObjectCachedList := []
      vmObjectCached := 0
      vmCacheMax := vmCacheMax }
  held := fun _ => 0

end CacheSystem

end Darwin.Vm
