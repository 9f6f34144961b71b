import Darwin.Ipc.Hash
import Darwin.Ipc.SplayTraverse
import Darwin.Lib.IndexList
import Mathlib.Data.List.GetD
import Mathlib.Data.List.Chain

/-! # The entries of a space

Entries with small names are elements of the table, the others are in the splay tree. A name
is an index and a generation; several names of the tree may have the same index. The global
hash table is to the tree what the local one is to the table.
-/
namespace Darwin.Ipc
open Darwin.Lib Darwin.Lib.SearchTree

def machPortIndex (name : MachPort) : ℕ := name.val / 256

def machPortGen (name : MachPort) : BitVec 8 := BitVec.ofNat 8 name.val

def machPortMake (index : ℕ) (gen : BitVec 8) : MachPort :=
  Fin.ofNat (2 ^ 32) (index * 256 + gen.toNat)

def machPortValid (name : MachPort) : Bool := name ≠ machPortSmallest ∧ name ≠ machPortLargest

def PortType.isNone (t : PortType) : Bool := t = PortType.none

def PortType.sendRight : PortType := ⟨true, false, false, false, false⟩

/-- The bits of a free entry: only the generation. -/
def Bits.ofGen (gen : BitVec 8) : Bits := ⟨gen, false, false, false, PortType.none, 0⟩

/-- The sizes of tables, as the header wants them: strictly increasing up to the last two
elements of the array, which are the same. -/
structure TableSizes where
  its : ℕ → ℕ
  last : ℕ
  pos : 0 < its 0
  strict : ∀ i < last, its i < its (i + 1)
  final : its (last + 1) = its last
  bound : its last < 2 ^ 24

/-- The second loop of `ipc_table_fill`, from the element `index` on. -/
def fillPages (num minsize elemsize pageSize : ℕ) : ℕ → ℕ → ℕ → ℕ → ℕ → List ℕ
  | 0, _, _, _, _ => []
  | fuel + 1, index, period, incrsize, size =>
    if num ≤ index then []
    else if period < 15 then
      if minsize ≤ size then
        size / elemsize ::
          fillPages num minsize elemsize pageSize fuel (index + 1) (period + 1) incrsize (size + incrsize)
      else fillPages num minsize elemsize pageSize fuel index (period + 1) incrsize (size + incrsize)
    else fillPages num minsize elemsize pageSize fuel index 0
      (if incrsize < pageSize * 8 then incrsize * 2 else incrsize) size

/-- The first loop, and then the second. -/
def fillPowers (num minsize elemsize pageSize : ℕ) : ℕ → ℕ → ℕ → List ℕ
  | 0, _, _ => []
  | fuel + 1, index, size =>
    if index < num ∧ size < pageSize then
      if minsize ≤ size then
        size / elemsize :: fillPowers num minsize elemsize pageSize fuel (index + 1) (size * 2)
      else fillPowers num minsize elemsize pageSize fuel index (size * 2)
    else fillPages num minsize elemsize pageSize (2 * num) index 0 pageSize size

def ipcTableFill (num min elemsize pageSize : ℕ) : List ℕ :=
  fillPowers num (min * elemsize) elemsize pageSize pageSize 0 1

theorem ipcTableFill_entries : (ipcTableFill 511 4 16 4096).length = 511 ∧
    (ipcTableFill 511 4 16 4096).IsChain (· < ·) := by
  decide +kernel

/-- `ipc_table_entries` as `ipc_table_init` makes it, for pages of 4096 bytes: 511 sizes for
entries of 16 bytes, and the last one again. -/
def ipcTableEntries : TableSizes where
  its i := (ipcTableFill 511 4 16 4096).getD i ((ipcTableFill 511 4 16 4096).getLastD 0)
  last := 510
  pos := by decide +kernel
  strict := by
    intro i hi
    obtain ⟨hlen, hchain⟩ := ipcTableFill_entries
    rw [List.getD_eq_getElem _ _ (by omega), List.getD_eq_getElem _ _ (by omega)]
    exact List.isChain_iff_getElem.mp hchain i (by omega)
  final := by decide +kernel
  bound := by decide +kernel

inductive KernReturn where
  | success
  | noSpace
  | resourceShortage
  deriving DecidableEq, Repr

/-- An active space that nobody else grows. -/
structure Space where
  self : ℕ
  isTable : Table
  isTableNext : ℕ
  isTree : Splay Entry
  isTreeTotal : ℕ
  isTreeSmall : ℕ
  isTreeHash : ℕ

/-- A pointer to an entry: into the table, or to the tree entry of a name. -/
inductive EntryRef where
  | table (index : ℕ)
  | tree (name : MachPort)
  deriving DecidableEq, Repr

/-! ## The global reverse hash table -/

/-- A tree entry that is linked in a bucket; its object stays the same meanwhile. -/
structure GlobalItem where
  space : ℕ
  obj : ℕ
  name : MachPort
  deriving DecidableEq, Repr

structure GlobalHash where
  mask : ℕ
  bucket : ℕ → List GlobalItem

/-- A space and the global hash table. -/
structure SpaceHash where
  space : Space
  global : GlobalHash

/-- `IH_GLOBAL_HASH`. -/
def ihGlobalHash (mask space obj : ℕ) : ℕ := u32 (u32 space / 16 + u32 obj / 64) &&& mask

def GlobalHash.setBucket (g : GlobalHash) (i : ℕ) (items : List GlobalItem) : GlobalHash :=
  { g with bucket := Function.update g.bucket i items }

/-- `ipc_hash_global_lookup`, which moves what it finds to the front of the bucket. -/
def ipcHashGlobalLookup (g : GlobalHash) (space obj : ℕ) : GlobalHash × Option MachPort :=
  let i := ihGlobalHash g.mask space obj
  match (g.bucket i).find? (fun x => x.obj = obj ∧ x.space = space) with
  | none => (g, none)
  | some x =>
    (g.setBucket i (x :: (g.bucket i).eraseP (fun x => x.obj = obj ∧ x.space = space)), some x.name)

def ipcHashGlobalInsert (v : SpaceHash) (obj : ℕ) (name : MachPort) : Option SpaceHash :=
  let i := ihGlobalHash v.global.mask v.space.self obj
  if v.space.isTreeHash + 1 ≤ v.space.isTreeTotal then
    some ⟨{ v.space with isTreeHash := v.space.isTreeHash + 1 },
      v.global.setBucket i (⟨v.space.self, obj, name⟩ :: v.global.bucket i)⟩
  else none

def ipcHashGlobalDelete (v : SpaceHash) (obj : ℕ) (name : MachPort) : Option SpaceHash :=
  let i := ihGlobalHash v.global.mask v.space.self obj
  if 0 < v.space.isTreeHash ∧
      (v.global.bucket i).any (fun x => x.space = v.space.self ∧ x.name = name) then
    some ⟨{ v.space with isTreeHash := v.space.isTreeHash - 1 },
      v.global.setBucket i
        ((v.global.bucket i).eraseP (fun x => x.space = v.space.self ∧ x.name = name))⟩
  else none

def SpaceHash.setTable (v : SpaceHash) (t : Table) : SpaceHash :=
  { v with space := { v.space with isTable := t } }

def SpaceHash.setTree (v : SpaceHash) (tree : Splay Entry) : SpaceHash :=
  { v with space := { v.space with isTree := tree } }

/-- `ipc_hash_lookup`: the name and the entry. -/
def ipcHashLookup (v : SpaceHash) (obj : ℕ) : Option (SpaceHash × Option (MachPort × EntryRef)) :=
  (ipcHashLocalLookup v.space.isTable obj).map (fun r =>
    match r with
    | some index =>
      (v, some (machPortMake index (v.space.isTable.entry index).ieBits.gen, .table index))
    | none =>
      if 0 < v.space.isTreeHash then
        let (g, name) := ipcHashGlobalLookup v.global v.space.self obj
        ({ v with global := g }, name.map (fun n => (n, .tree n)))
      else (v, none))

/-- The test of `ipc_hash_insert` and `ipc_hash_delete`, with the index. -/
def SpaceHash.inTable (v : SpaceHash) (name : MachPort) (ref : EntryRef) : Bool :=
  machPortIndex name < v.space.isTable.size ∧ ref = .table (machPortIndex name)

def ipcHashInsert (v : SpaceHash) (obj : ℕ) (name : MachPort) (ref : EntryRef) : Option SpaceHash :=
  if v.inTable name ref then
    (ipcHashLocalInsert v.space.isTable obj (machPortIndex name)).map v.setTable
  else ipcHashGlobalInsert v obj name

def ipcHashDelete (v : SpaceHash) (obj : ℕ) (name : MachPort) (ref : EntryRef) : Option SpaceHash :=
  if v.inTable name ref then
    (ipcHashLocalDelete v.space.isTable obj (machPortIndex name)).map v.setTable
  else ipcHashGlobalDelete v obj name

/-! ## Lookup and allocation -/

/-- `ipc_entry_tree_collision`. -/
def ipcEntryTreeCollision (tree : Splay Entry) (name : MachPort) : Option (Splay Entry × Bool) :=
  (ipcSplayTreeBounds tree name).map (fun (tree', lower, upper) =>
    (tree', (lower ≠ machPortLargest ∧ machPortIndex lower = machPortIndex name) ∨
      (upper ≠ machPortSmallest ∧ machPortIndex upper = machPortIndex name)))

def Table.setCollision (t : Table) (index : ℕ) (b : Bool) : Table :=
  t.setEntry index
    { t.entry index with ieBits := { (t.entry index).ieBits with collision := b } }

def treeLookup (s : Space) (name : MachPort) : Option (Space × Option EntryRef) :=
  (ipcSplayTreeLookup s.isTree name).bind (fun (tree, e) =>
    match e with
    | none => some ({ s with isTree := tree }, none)
    | some e =>
      if e.ieBits.type.isNone then none else some ({ s with isTree := tree }, some (.tree name)))

def ipcEntryLookup (s : Space) (name : MachPort) : Option (Space × Option EntryRef) :=
  let index := machPortIndex name
  if index < s.isTable.size then
    let entry := s.isTable.entry index
    if entry.ieBits.gen ≠ machPortGen name then
      if entry.ieBits.collision then
        if 0 < s.isTreeTotal then treeLookup s name else none
      else some (s, none)
    else if entry.ieBits.type.isNone then some (s, none)
    else some (s, some (.table index))
  else if s.isTreeTotal = 0 then some (s, none)
  else treeLookup s name

/-- `ipc_entry_get`: the name and the index, or `none` for `KERN_NO_SPACE`. -/
def ipcEntryGet (s : Space) : Option (Space × Option (MachPort × ℕ)) :=
  let table := s.isTable
  let firstFree := (table.entry 0).ieRequest
  if firstFree = 0 then some (s, none)
  else
    let freeEntry := table.entry firstFree
    let gen := freeEntry.ieBits.gen + 1
    let newName := machPortMake firstFree gen
    if freeEntry.ieBits = Bits.ofGen freeEntry.ieBits.gen ∧ machPortValid newName ∧
        freeEntry.ieObject = 0 then
      let table := table.setEntry 0 { table.entry 0 with ieRequest := freeEntry.ieRequest }
      let table := table.setEntry firstFree
        { freeEntry with ieBits := Bits.ofGen gen, ieRequest := 0 }
      some ({ s with isTable := table }, some (newName, firstFree))
    else none

/-- The loop that looks for the entry in front of `index` in the free list. -/
def freeBefore (t : Table) (index : ℕ) : ℕ → ℕ → Option ℕ :=
  IndexList.before (fun i => (t.entry i).ieRequest) index

/-- The entry is taken out of the free list and becomes the entry of the name. -/
def takeFree (t : Table) (name : MachPort) : Option Table :=
  let index := machPortIndex name
  (freeBefore t index t.size 0).bind (fun freeIndex =>
    let t' := t.setEntry freeIndex { t.entry freeIndex with ieRequest := (t.entry index).ieRequest }
    if (t'.entry index).ieObject = 0 then
      some (t'.setEntry index
        { t'.entry index with ieBits := Bits.ofGen (machPortGen name), ieRequest := 0 })
    else none)

/-! ## Growing the table -/

/-- The table in its new memory: the old part without its hash table, the new part zero. -/
def Table.grown (t : Table) (size : ℕ) : Table :=
  ⟨size, fun i => if i < t.size then { t.entry i with ieIndex := 0 }
    else if i < size then Entry.zero else t.entry i⟩

/-- The old entries that are pure send rights get into the hash table. -/
def rehash (osize : ℕ) (t : Table) : Option Table :=
  (List.range osize).foldlM (fun t i =>
    if (t.entry i).ieBits.type = PortType.sendRight then
      ipcHashLocalInsert t (t.entry i).ieObject i
    else some t) t

/-- A tree entry that is a pure send right changes from the global to the local hash table
when it moves into its slot. -/
def rehome (v : SpaceHash) (tentry : Entry) (name : MachPort) : Option SpaceHash :=
  if tentry.ieBits.type = PortType.sendRight then
    (ipcHashGlobalDelete v tentry.ieObject name).bind (fun v =>
      (ipcHashLocalInsert v.space.isTable tentry.ieObject (machPortIndex name)).map v.setTable)
  else some v

/-- One tree entry of the second region: it moves into its slot unless the slot is taken. -/
def moveEntry (osize : ℕ) (v : SpaceHash) (name : MachPort) (tentry : Entry) :
    Option (SpaceHash × Bool) :=
  let t := v.space.isTable
  let index := machPortIndex name
  let gen := machPortGen name
  let entry := t.entry index
  if osize ≤ index ∧ index < t.size then
    if entry.ieBits ≠ Bits.ofGen 0 then
      if entry.ieBits.type.isNone = false ∧ entry.ieBits.gen ≠ gen then
        some (v.setTable (t.setCollision index true), false)
      else none
    else if tentry.ieBits.type.isNone then none
    else
      let v := v.setTable (t.setEntry index
        { entry with ieBits := { tentry.ieBits with gen := tentry.ieBits.gen ||| gen },
                     ieObject := tentry.ieObject, ieRequest := tentry.ieRequest })
      (rehome v tentry name).map (fun v =>
        ({ v with space := { v.space with isTreeTotal := v.space.isTreeTotal - 1 } }, true))
  else none

/-- The loop that counts the indices of the third region. -/
def countIndex (c : ℕ × ℕ) (name : MachPort) (_ : Entry) : Option ((ℕ × ℕ) × Bool) :=
  let nindex := machPortIndex name
  if nindex ≠ c.2 then some ((c.1 + 1, nindex), false) else some (c, false)

def Splay.raw : Splay Entry := ⟨machPortSmallest, .nil, [], []⟩

/-- The part of the growth that is about the tree. -/
def migrate (osize size nsize : ℕ) (v : SpaceHash) : Option SpaceHash :=
  (ipcSplayTreeSplit v.space.isTree (machPortMake nsize 0) Splay.raw).bind (fun (tree, small) =>
  (ipcSplayTreeSplit small (machPortMake size 0) Splay.raw).bind (fun (small, move) =>
  (ipcSplayTreeSplit move (machPortMake osize 0) Splay.raw).bind (fun (move, ignore) =>
  (move.traverse (moveEntry osize) v).bind (fun (v, move) =>
  (small.traverse countIndex (0, 0)).bind (fun ((nosmall, _), small) =>
  if nosmall ≤ nsize - size ∧ nosmall ≤ v.space.isTreeTotal then
    (ipcSplayTreeJoin tree small).bind (fun (tree, _) =>
    (ipcSplayTreeJoin tree move).bind (fun (tree, _) =>
    (ipcSplayTreeJoin tree ignore).map (fun (tree, _) =>
      { v with space := { v.space with isTreeSmall := nosmall, isTree := tree } })))
  else none)))))

/-- The entry `i` of the new part gets into the free list unless it is used. -/
def addFree (c : Table × ℕ) (i : ℕ) : Table × ℕ :=
  if (c.1.entry i).ieBits = Bits.ofGen 0 then
    (c.1.setEntry i { c.1.entry i with ieBits := Bits.ofGen 255, ieRequest := c.2 }, i)
  else c

/-- The entries from `osize` to `size` in reverse order. -/
def addFreeEntries (osize : ℕ) (t : Table) : Table :=
  let (t', freeIndex) := (List.range' osize (t.size - osize)).reverse.foldl addFree
    (t, (t.entry 0).ieRequest)
  t'.setEntry 0 { t'.entry 0 with ieRequest := freeIndex }

/-- The table grows to the size with the number `its`. -/
def growTo (sizes : TableSizes) (v : SpaceHash) (its : ℕ) : Option SpaceHash :=
  let osize := v.space.isTable.size
  let size := sizes.its its
  let nsize := sizes.its (its + 1)
  let s := { v.space with isTable := v.space.isTable.grown size, isTableNext := its + 1 }
  (rehash osize s.isTable).bind (fun t =>
    let v : SpaceHash := { v with space := { s with isTable := t } }
    (if 0 < v.space.isTreeTotal then migrate osize size nsize v else some v).map (fun v =>
      v.setTable (addFreeEntries osize v.space.isTable)))

/-- The search for the size that holds `target`; the previous and the current size. -/
def findSize (sizes : TableSizes) (target : ℕ) : ℕ → ℕ → ℕ → ℕ × ℕ
  | 0, psize, its => (psize, its)
  | fuel + 1, psize, its =>
    if psize ≠ sizes.its its ∧ sizes.its its < target then
      findSize sizes target fuel (sizes.its its) (its + 1)
    else (psize, its)

/-- The previous size and the number of the new one; without a target the next size. -/
def chooseSize (sizes : TableSizes) (target : Option ℕ) (next : ℕ) : ℕ × ℕ :=
  match target with
  | none => (sizes.its (next - 1), next)
  | some target => findSize sizes target (sizes.last + 2) (sizes.its (next - 1)) next

/-- `ipc_entry_grow_table`. The memory for the table with the number `its` is there when
`mem its` holds. -/
def ipcEntryGrowTable (sizes : TableSizes) (mem : ℕ → Bool) (target : Option ℕ) :
    ℕ → SpaceHash → Option (SpaceHash × KernReturn)
  | 0, _ => none
  | fuel + 1, v =>
    let osize := sizes.its (v.space.isTableNext - 1)
    let psize := (chooseSize sizes target v.space.isTableNext).1
    let its := (chooseSize sizes target v.space.isTableNext).2
    let size := sizes.its its
    let nsize := sizes.its (its + 1)
    if target.any (· ≤ osize) then some (v, .success)
    else if target.isSome ∧ psize = size then some (v, .noSpace)
    else if osize = size then some (v, .noSpace)
    else if ¬ (osize < size ∧ size ≤ nsize) then none
    else if mem its = false then some (v, .resourceShortage)
    else if v.space.isTable.size ≠ osize then none
    else (growTo sizes v its).bind (fun v =>
      if 0 < v.space.isTreeSmall ∧ (nsize - size) * 16 < v.space.isTreeSmall * 32 then
        ipcEntryGrowTable sizes mem target fuel v
      else some (v, .success))

/-- There are fewer rounds than sizes. -/
def TableSizes.rounds (sizes : TableSizes) : ℕ := sizes.last + 2

/-- `ipc_entry_alloc`. -/
def ipcEntryAlloc (sizes : TableSizes) (mem : ℕ → Bool) :
    ℕ → SpaceHash → Option (SpaceHash × Option (MachPort × ℕ))
  | 0, _ => none
  | fuel + 1, v =>
    (ipcEntryGet v.space).bind (fun (s, r) =>
      match r with
      | some r => some ({ v with space := s }, some r)
      | none => (ipcEntryGrowTable sizes mem none sizes.rounds v).bind (fun (v, kr) =>
        if kr = .success then ipcEntryAlloc sizes mem fuel v else some (v, none)))

/-- A round of the loop of `ipc_entry_alloc_name` returns, or another one follows, with a
tree entry allocated or not. -/
inductive AllocName where
  | done (v : SpaceHash) (kr : KernReturn) (ref : Option EntryRef)
  | again (v : SpaceHash) (treeEntry : Bool)

/-- The new tree entry is inserted. -/
def insertTreeEntry (sizes : TableSizes) (v : SpaceHash) (name : MachPort) : Option SpaceHash :=
  let s := v.space
  let index := machPortIndex name
  let t := s.isTable
  let s := { s with isTreeTotal := s.isTreeTotal + 1 }
  (if index < t.size then
    some { s with isTable := t.setCollision index true }
  else if index < sizes.its s.isTableNext then
    (ipcEntryTreeCollision s.isTree name).map (fun (tree, collides) =>
      { s with isTree := tree,
               isTreeSmall := if collides then s.isTreeSmall else s.isTreeSmall + 1 })
  else some s).bind (fun s =>
    (ipcSplayTreeInsert s.isTree name Entry.zero).map (fun tree =>
      { v with space := { s with isTree := tree } }))

/-- The part of the round behind the table: `iteAlloc` says whether there is memory. -/
def allocNameTree (sizes : TableSizes) (mem : ℕ → Bool) (iteAlloc : Bool) (name : MachPort)
    (treeEntry : Bool) (v : SpaceHash) : Option AllocName :=
  let index := machPortIndex name
  (if 0 < v.space.isTreeTotal then ipcSplayTreeLookup v.space.isTree name
    else some (v.space.isTree, none)).bind (fun (tree, e) =>
    let v := v.setTree tree
    let its := sizes.its v.space.isTableNext
    match e with
    | some e => if e.ieBits.type.isNone then none else some (.done v .success (some (.tree name)))
    | none =>
      if v.space.isTable.size ≤ index ∧ index < its ∧
          (its - v.space.isTable.size) * 16 < (v.space.isTreeSmall + 1) * 32 then
        (ipcEntryGrowTable sizes mem none sizes.rounds v).bind (fun (v, kr) =>
          if kr = .noSpace then none
          else if kr = .success then some (.again v treeEntry)
          else some (.done v kr none))
      else if treeEntry then
        (insertTreeEntry sizes v name).map (fun v => .done v .success (some (.tree name)))
      else if iteAlloc then some (.again v true)
      else some (.done v .resourceShortage none))

def allocNameRound (sizes : TableSizes) (mem : ℕ → Bool) (iteAlloc : Bool) (name : MachPort)
    (treeEntry : Bool) (v : SpaceHash) : Option AllocName :=
  let index := machPortIndex name
  let entry := v.space.isTable.entry index
  if 0 < index ∧ index < v.space.isTable.size then
    if entry.ieBits.type.isNone then
      (takeFree v.space.isTable name).map (fun t =>
        .done (v.setTable t) .success (some (.table index)))
    else if entry.ieBits.gen = machPortGen name then
      some (.done v .success (some (.table index)))
    else allocNameTree sizes mem iteAlloc name treeEntry v
  else allocNameTree sizes mem iteAlloc name treeEntry v

def allocNameLoop (sizes : TableSizes) (mem : ℕ → Bool) (iteAlloc : Bool) (name : MachPort) :
    ℕ → Bool → SpaceHash → Option (SpaceHash × KernReturn × Option EntryRef)
  | 0, _, _ => none
  | fuel + 1, treeEntry, v =>
    (allocNameRound sizes mem iteAlloc name treeEntry v).bind (fun r =>
      match r with
      | .done v kr ref => some (v, kr, ref)
      | .again v treeEntry => allocNameLoop sizes mem iteAlloc name fuel treeEntry v)

/-- `ipc_entry_alloc_name`: the rounds are those that grow the table, the one that allocates
a tree entry and the last one. -/
def ipcEntryAllocName (sizes : TableSizes) (mem : ℕ → Bool) (iteAlloc : Bool) (name : MachPort)
    (v : SpaceHash) : Option (SpaceHash × KernReturn × Option EntryRef) :=
  if machPortValid name then
    allocNameLoop sizes mem iteAlloc name (sizes.rounds + 2) false v
  else none

/-! ## Deallocation -/

/-- The tree entry that a pointer leads to. -/
def Splay.find? (s : Splay Entry) (name : MachPort) : Option Entry :=
  (s.inorder.find? (fun p => p.1 = name)).map Prod.snd

/-- The slot of the table is given up, and a tree entry with its index moves in. -/
def pullEntry (v : SpaceHash) (index : ℕ) : Option SpaceHash :=
  (ipcSplayTreeSplit v.space.isTree (machPortMake (index + 1) 0) Splay.raw).bind
    (fun (tree, collisions) =>
  (ipcSplayTreeSplit collisions (machPortMake index 0) Splay.raw).bind (fun (collisions, small) =>
  (ipcSplayTreePick collisions).bind (fun (tname, tentry) =>
  if machPortIndex tname ≠ index then none
  else
    let t := v.space.isTable
    let v := v.setTable (t.setEntry index
      { t.entry index with
        ieBits := { tentry.ieBits with gen := tentry.ieBits.gen ||| machPortGen tname },
        ieObject := tentry.ieObject, ieRequest := tentry.ieRequest })
    (rehome v tentry tname).bind (fun v =>
    (ipcSplayTreeDelete collisions tname tentry).bind (fun collisions =>
    if v.space.isTreeTotal = 0 then none
    else
      let s := { v.space with isTreeTotal := v.space.isTreeTotal - 1 }
      let t := s.isTable
      (match ipcSplayTreePick collisions with
      | some _ => (ipcSplayTreeJoin tree collisions).map (fun (tree, _) =>
        (tree, t.setCollision index true))
      | none => some (tree, t) : Option (Splay Entry × Table)).bind (fun (tree, t) =>
      (ipcSplayTreeJoin tree small).map (fun (tree, _) =>
        { v with space := { s with isTable := t, isTree := tree } })))))))

/-- The entry of the tree is deleted. -/
def deallocTree (sizes : TableSizes) (s : Space) (name : MachPort) : Option Space :=
  let index := machPortIndex name
  (s.isTree.find? name).bind (fun tentry =>
  if tentry.ieObject ≠ 0 ∨ tentry.ieRequest ≠ 0 then none
  else (ipcSplayTreeDelete s.isTree name tentry).bind (fun tree =>
  if s.isTreeTotal = 0 then none
  else
    let s := { s with isTree := tree, isTreeTotal := s.isTreeTotal - 1 }
    let t := s.isTable
    if index < t.size then
      if (t.entry index).ieBits.collision then
        (ipcEntryTreeCollision s.isTree name).map (fun (tree, collides) =>
          { s with isTree := tree, isTable := if collides then t else t.setCollision index false })
      else none
    else if index < sizes.its s.isTableNext then
      (ipcEntryTreeCollision s.isTree name).bind (fun (tree, collides) =>
        if collides then some { s with isTree := tree }
        else if s.isTreeSmall = 0 then none
        else some { s with isTree := tree, isTreeSmall := s.isTreeSmall - 1 })
    else some s))

def ipcEntryDealloc (sizes : TableSizes) (v : SpaceHash) (name : MachPort) (ref : EntryRef) :
    Option SpaceHash :=
  let index := machPortIndex name
  let t := v.space.isTable
  let entry := t.entry index
  if v.inTable name ref then
    if entry.ieObject = 0 ∧ entry.ieRequest = 0 ∧ entry.ieBits.gen = machPortGen name then
      if entry.ieBits.collision then pullEntry v index
      else
        let t := t.setEntry index
          { entry with ieBits := Bits.ofGen entry.ieBits.gen, ieRequest := (t.entry 0).ieRequest }
        some (v.setTable (t.setEntry 0 { t.entry 0 with ieRequest := index }))
    else none
  else if ref = .tree name then
    (deallocTree sizes v.space name).map (fun s => { v with space := s })
  else none

/-! ## A new space, and what the callers do -/

/-- `ipc_space_create`. -/
def ipcSpaceCreate (sizes : TableSizes) (self initial : ℕ) : Space where
  self := self
  isTable := ⟨sizes.its initial, fun index =>
    ⟨Bits.ofGen 255, 0, if index + 1 = sizes.its initial then 0 else index + 1, 0⟩⟩
  isTableNext := initial + 1
  isTree := Splay.raw
  isTreeTotal := 0
  isTreeSmall := 0
  isTreeHash := 0

/-- What an entry is for its holder: all but the generation and the collision bit. -/
structure Contents where
  compat : Bool
  marequest : Bool
  type : PortType
  urefs : ℕ
  object : ℕ
  request : ℕ
  deriving DecidableEq, Repr

def Entry.contents (e : Entry) : Contents :=
  ⟨e.ieBits.compat, e.ieBits.marequest, e.ieBits.type, e.ieBits.urefs, e.ieObject, e.ieRequest⟩

def Entry.store (c : Contents) (e : Entry) : Entry :=
  ⟨⟨e.ieBits.gen, e.ieBits.collision, c.compat, c.marequest, c.type, c.urefs⟩, c.object, c.request,
    e.ieIndex⟩

/-- A store through the pointer to a tree entry. -/
def Splay.modify {α : Type} (s : Splay α) (name : MachPort) (f : α → α) : Splay α :=
  ⟨s.istName, s.istRoot.modify name f, LeftSpine.modify name f s.istLtree,
    RightSpine.modify name f s.istRtree⟩

/-- The entry that a pointer leads to. -/
def Space.deref (s : Space) : EntryRef → Option Entry
  | .table index => if index < s.isTable.size then some (s.isTable.entry index) else none
  | .tree name => s.isTree.find? name

/-- A store through a pointer to an entry. -/
def Space.store (s : Space) (c : Contents) : EntryRef → Space
  | .table index => { s with isTable := s.isTable.setEntry index ((s.isTable.entry index).store c) }
  | .tree name => { s with isTree := s.isTree.modify name (Entry.store c) }

/-- The slot of the table with the index of the name is in use under this name. -/
def Space.named (s : Space) (name : MachPort) : Bool :=
  0 < machPortIndex name ∧ machPortIndex name < s.isTable.size ∧
    (s.isTable.entry (machPortIndex name)).ieBits.type ≠ PortType.none ∧
    (s.isTable.entry (machPortIndex name)).ieBits.gen = machPortGen name

/-- Where the entry of a name is when it has one. -/
def Space.locate (s : Space) (name : MachPort) : EntryRef :=
  if s.named name then .table (machPortIndex name) else .tree name

end Darwin.Ipc
