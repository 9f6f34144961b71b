import Darwin.Lib.BitWords

/-! # The partition map of a disk

`partition_map.c` of `pdisk`. An entry is known by its address in memory, and the two lists through
the entries are kept as lists; every number is one of 32 bits.
-/
namespace Darwin.Pdisk
open Darwin.Lib

def DPISTRLEN : ℕ := 32

def kFreeType : List Char := "Apple_Free".toList

def kMapType : List Char := "Apple_partition_map".toList

def kFreeName : List Char := "Extra".toList

/-- The fields of a `DPME` that decide something here. -/
structure Dpme where
  pblockStart : ℕ
  pblocks : ℕ
  name : List Char
  type : List Char
deriving DecidableEq

/-- `struct partition_map` -/
structure Entry where
  address : ℕ
  data : Dpme
deriving DecidableEq

/-- `struct partition_map_header` -/
structure PartitionMap where
  baseOrder : List Entry
  diskOrder : List ℕ
  diskAddress : ℕ → ℕ
  /-- where the next entry is allocated -/
  nextAddress : ℕ
  blocksInMap : ℤ
  maximumInMap : ℤ
  mediaSize : ℕ
  changed : Bool

/-! ## Numbers -/

/-- An unsigned number as an `int`. -/
def toInt (x : ℕ) : ℤ := if x < 2 ^ 31 then x else x - 2 ^ 32

/-- A `long` as an unsigned number. -/
def toU32 (n : ℤ) : ℕ := (n % 2 ^ 32).toNat

/-! ## Lists of entries -/

/-- The loops of `insert_in_disk_order` and `insert_in_base_order`. -/
def insertBehind {α : Type*} (key : α → ℕ) (entry : α) : List α → List α
  | [] => []
  | [cur] => if key cur ≤ key entry then [cur, entry] else [cur]
  | cur :: next :: l =>
    if key cur ≤ key entry ∧ key entry ≤ key next then cur :: entry :: next :: l
    else cur :: insertBehind key entry (next :: l)

def insertInOrder {α : Type*} (key : α → ℕ) (entry : α) : List α → List α
  | [] => [entry]
  | cur :: l => if key entry ≤ key cur then entry :: cur :: l else insertBehind key entry (cur :: l)

namespace PartitionMap
variable (m : PartitionMap)

def entryAt (address : ℕ) : Option Entry := m.baseOrder.find? (fun e => e.address = address)

def nextByBase (address : ℕ) : Option Entry :=
  (m.baseOrder.dropWhile (fun e => e.address ≠ address)).tail.head?

def prevByBase (address : ℕ) : Option Entry :=
  (m.baseOrder.takeWhile (fun e => e.address ≠ address)).getLast?

/-- The data of an entry is replaced. -/
def setData (address : ℕ) (data : Dpme) : PartitionMap :=
  { m with baseOrder := m.baseOrder.map (fun e => if e.address = address then { e with data } else e) }

/-- With memory for the entry or not. -/
def addDataToMap (memory : Bool) (data : Dpme) (index : ℕ) : Option PartitionMap :=
  if memory then
    let diskAddress := Function.update m.diskAddress m.nextAddress index
    some { m with
      diskAddress
      diskOrder := insertInOrder diskAddress m.nextAddress m.diskOrder
      baseOrder := insertInOrder (fun e => e.data.pblockStart) ⟨m.nextAddress, data⟩ m.baseOrder
      nextAddress := m.nextAddress + 1
      blocksInMap := m.blocksInMap + 1
      maximumInMap :=
        if m.maximumInMap < 0 ∧ data.type = kMapType then toInt data.pblocks else m.maximumInMap }
  else none

def renumberDiskAddresses : PartitionMap :=
  { m with diskAddress := fun p => if p ∈ m.diskOrder then m.diskOrder.idxOf p + 1 else m.diskAddress p }

end PartitionMap

/-! ## `add_partition_to_map` -/

/-- `create_data` -/
def createData (name dptype : List Char) (base length : ℕ) : Dpme :=
  ⟨base, length, name.take DPISTRLEN, dptype.take DPISTRLEN⟩

inductive AddAction where
  | kReplace
  | kAdd
  | kSplit
deriving DecidableEq

/-- How many entries more. -/
def AddAction.value : AddAction → ℤ
  | .kReplace => 0
  | .kAdd => 1
  | .kSplit => 2

/-- The test of the search. -/
def Dpme.includes (data : Dpme) (base length : ℕ) : Bool :=
  data.pblockStart ≤ base && u32 (base + length) ≤ u32 (data.pblockStart + data.pblocks)

/-- What to do, and sizes. -/
structure AddPlan where
  act : AddAction
  adjustedBase : ℕ
  adjustedLength : ℕ
  newBase : ℕ
  newLength : ℕ

def addPlan (data : Dpme) (base length : ℕ) : AddPlan :=
  if data.pblockStart = base then
    if data.pblocks = length then ⟨.kReplace, 0, 0, 0, 0⟩
    else ⟨.kAdd, u32 (base + length), u32Sub data.pblocks length, 0, 0⟩
  else if u32 (data.pblockStart + data.pblocks) = u32 (base + length) then
    ⟨.kAdd, data.pblockStart, u32Sub base data.pblockStart, 0, 0⟩
  else
    let newLength := u32Sub base data.pblockStart
    ⟨.kSplit, u32 (base + length), u32Sub data.pblocks (u32 (length + newLength)),
      data.pblockStart, newLength⟩

namespace PartitionMap
variable (m : PartitionMap)

def limit : ℤ := if m.maximumInMap < 0 then toInt m.mediaSize else m.maximumInMap

/-- An `enum` without negative values is unsigned, and the comparison with it. -/
def overflows (act : AddAction) : Prop := toU32 m.limit < toU32 (m.blocksInMap + act.value)

instance (act : AddAction) : Decidable (m.overflows act) := Nat.decLt _ _

/-- The new data in the place of the entry `cur`, with what is left of it. -/
def place (memory : ℕ → Bool) (cur : Entry) (plan : AddPlan) (data : Dpme) : PartitionMap :=
  match plan.act with
  | .kReplace => m.setData cur.address data
  | act =>
    let m := m.setData cur.address
      { cur.data with pblockStart := plan.adjustedBase, pblocks := plan.adjustedLength }
    match m.addDataToMap (memory 1) data (m.diskAddress cur.address) with
    | none => m
    | some m =>
      if act = .kSplit ∧ memory 2 = true then
        (m.addDataToMap (memory 3) (createData kFreeName kFreeType plan.newBase plan.newLength)
          (m.diskAddress cur.address)).getD m
      else m

/-- `memory k` says whether the allocation number `k` of the call succeeds. -/
def addPartitionToMap (memory : ℕ → Bool) (name dptype : List Char) (base length : ℕ) :
    PartitionMap × Bool :=
  match m.baseOrder.find? (fun cur => cur.data.includes base length) with
  | none => (m, false)
  | some cur =>
    if cur.data.type ≠ kFreeType then (m, false)
    else
      let plan := addPlan cur.data base length
      if m.overflows plan.act then (m, false)
      else if memory 0 = false then (m, false)
      else
        let m := m.place memory cur plan (createData name dptype base length)
        ({ m.renumberDiskAddresses with changed := true }, true)

/-! ## `delete_partition_from_map` -/

def deleteEntry (address : ℕ) : PartitionMap :=
  { m with
    baseOrder := m.baseOrder.filter (fun e => e.address ≠ address)
    diskOrder := m.diskOrder.erase address
    blocksInMap := m.blocksInMap - 1 }

/-- The first half of `combine_entry`. -/
def combineNext (entry : Entry) : PartitionMap :=
  match m.nextByBase entry.address with
  | none => m
  | some p =>
    if p.data.type ≠ kFreeType then m
    else if u32 (entry.data.pblockStart + entry.data.pblocks) ≠ p.data.pblockStart then m
    else
      (m.setData entry.address
        { entry.data with pblocks := u32 (entry.data.pblocks + p.data.pblocks) }).deleteEntry p.address

/-- The second half. -/
def combinePrev (entry : Entry) : PartitionMap :=
  match m.prevByBase entry.address with
  | none => m
  | some p =>
    if p.data.type ≠ kFreeType then m
    else if u32 (p.data.pblockStart + p.data.pblocks) ≠ entry.data.pblockStart then m
    else
      (m.setData entry.address
        { entry.data with
          pblockStart := p.data.pblockStart
          pblocks := u32 (entry.data.pblocks + p.data.pblocks) }).deleteEntry p.address

def combineEntry (address : ℕ) : PartitionMap :=
  match m.entryAt address with
  | none => m
  | some entry =>
    if entry.data.type ≠ kFreeType then m
    else
      let m := m.combineNext entry
      match m.entryAt address with
      | none => m
      | some entry => m.combinePrev entry

/-- No entry has a driver in a map whose block 0 lists none. -/
def deletePartitionFromMap (memory : Bool) (address : ℕ) : PartitionMap :=
  match m.entryAt address with
  | none => m
  | some entry =>
    if entry.data.type = kMapType then m
    else if memory = false then m
    else
      let data := createData kFreeName kFreeType entry.data.pblockStart entry.data.pblocks
      let m := (m.setData address data).combineEntry address
      { m.renumberDiskAddresses with changed := true }

/-! ## `resize_map` -/

/-- The end of `resize_map`. -/
def replaceMapEntry (memory : ℕ → Bool) (entry : Entry) (newSize : ℤ) : PartitionMap :=
  let m := m.setData entry.address { entry.data with type := [] }
  let m := m.deletePartitionFromMap (memory 0) entry.address
  (m.addPartitionToMap (fun k => memory (k + 1)) "Apple".toList kMapType 1 (toU32 newSize)).1

/-- Whether there is a next entry, and it is free. -/
def nextFree (entry : Entry) : Bool :=
  match m.nextByBase entry.address with
  | none => false
  | some next => next.data.type = kFreeType

def resizeMap (memory : ℕ → Bool) (newSize : ℤ) : PartitionMap :=
  match m.baseOrder.find? (fun e => e.data.type = kMapType) with
  | none => m
  | some entry =>
    if toU32 newSize = entry.data.pblocks then m
    else if toU32 newSize < entry.data.pblocks then
      let incr : ℤ := if m.nextFree entry then 0 else 1
      if newSize < m.blocksInMap + incr then m
      else m.replaceMapEntry memory entry newSize
    else
      match m.nextByBase entry.address with
      | none => m
      | some next =>
        if next.data.type ≠ kFreeType then m
        else if u32 (entry.data.pblockStart + entry.data.pblocks) ≠ next.data.pblockStart then m
        else if u32 (entry.data.pblocks + next.data.pblocks) < toU32 newSize then m
        else m.replaceMapEntry memory entry newSize

end PartitionMap

/-! ## New maps -/

/-- `create_partition_map` up to the first entry. -/
def newMap (mediaSize : ℕ) : PartitionMap where
  baseOrder := []
  diskOrder := []
  diskAddress _ := 0
  nextAddress := 0
  blocksInMap := 0
  maximumInMap := -1
  mediaSize := mediaSize
  changed := true

/-- With all memory that is asked for; `add_partition_to_map` may refuse. -/
def initPartitionMap (mediaSize : ℕ) : PartitionMap :=
  let data := createData kFreeName kFreeType 1 (mediaSize - 1)
  let m := ((newMap mediaSize).addDataToMap true data 1).getD (newMap mediaSize)
  (m.addPartitionToMap (fun _ => true) "Apple".toList kMapType 1 (if mediaSize ≤ 128 then 2 else 63)).1

end Darwin.Pdisk
