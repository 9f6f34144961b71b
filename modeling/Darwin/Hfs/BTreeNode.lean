import Darwin.Hfs.BTreeAllocate
import Darwin.Lib.SortedSearch

/-! # The records of an HFS B-tree

Nodes with their records, the search of a node and of the tree, and iteration. The order of
the keys is the one of `keyCompareProc`, and keys that compare equal need not be equal. The
calls of the file system agent succeed here; a node is checked when it comes from disk, and
`disk` says of which nodes that holds during a call.
-/
namespace Darwin.Hfs.BTreeRecords
open Darwin.Lib
open Darwin.Hfs.BTreeAllocate (NodeType)

/-- A record of a node. The length of the key is the one that is stored with it. -/
structure Record (κ : Type) where
  key : κ
  keyLength : ℕ
  data : List UInt8
  deriving DecidableEq, Repr

/-- A leaf or index node. It is formatted when the offset of its free space is set. -/
structure Node (κ : Type) where
  type : NodeType
  height : ℕ
  fLink : ℕ
  bLink : ℕ
  formatted : Bool
  records : List (Record κ)
  deriving DecidableEq, Repr

/-- The control block, with the header and map nodes and the other nodes of the file. -/
structure BTree (κ : Type) where
  map : BTreeAllocate.BTree
  bigKeys : Bool
  variableIndexKeys : Bool
  maxKeyLength : ℕ
  treeDepth : ℕ
  rootNode : ℕ
  leafRecords : ℕ
  firstLeafNode : ℕ
  lastLeafNode : ℕ
  node : ℕ → Node κ

/-- `noResult` is for a search that never ends, `nodeMap` for the errors of the node map. -/
inductive OSStatus where
  | fsBTInvalidNodeErr
  | fsBTEmptyErr
  | fsBTRecordNotFoundErr
  | fsBTStartOfIterationErr
  | fsBTEndOfIterationErr
  | fsBTInvalidIteratorErr
  | fsBTDuplicateRecordErr
  | fsBTRecordTooLargeErr
  | fsBTBadRotateErr
  | nodeMap (err : BTreeAllocate.OSStatus)
  | noResult
  deriving DecidableEq, Repr

variable {κ : Type}

/-! ## Nodes -/

def Node.numRecords (node : Node κ) : ℕ := node.records.length

/-- The node after `ClearNode`. -/
def Node.clear : Node κ := ⟨.index, 0, 0, 0, false, []⟩

/-- The node with this number. A header or map node has no records of the tree. -/
def BTree.nodeAt (btree : BTree κ) (nodeNum : ℕ) : Node κ :=
  match (btree.map.node nodeNum).type with
  | .header => ⟨.header, 0, (btree.map.node nodeNum).fLink, 0, true, []⟩
  | .map => ⟨.map, 0, (btree.map.node nodeNum).fLink, 0, true, []⟩
  | _ => btree.node nodeNum

/-- `CalcKeySize` of a key of this length. -/
def BTree.calcKeySize (btree : BTree κ) (keyLength : ℕ) : ℕ :=
  if btree.bigKeys then keyLength + 2 else keyLength + 1

/-- A size with its pad byte. -/
def padded (size : ℕ) : ℕ := size + size % 2

def BTree.getRecordSize (btree : BTree κ) (record : Record κ) : ℕ :=
  padded (btree.calcKeySize record.keyLength) + record.data.length

/-- The offset of the free space of a node. -/
def BTree.freeOffset (btree : BTree κ) (node : Node κ) : ℕ :=
  14 + (node.records.map btree.getRecordSize).sum

def BTree.getNodeFreeSize (btree : BTree κ) (node : Node κ) : ℕ :=
  btree.map.nodeSize - btree.freeOffset node - 2 * node.numRecords - 2

/-- The record offsets of a node make sense. -/
def BTree.checkOffsets (btree : BTree κ) (node : Node κ) : Bool :=
  node.formatted && node.records.all (fun r => btree.getRecordSize r % 2 = 0) &&
    decide (btree.freeOffset node + 2 * node.numRecords < btree.map.nodeSize)

def BTree.checkNode (btree : BTree κ) (node : Node κ) : Bool :=
  let maxNode := btree.map.fcbEOF / btree.map.nodeSize - 1
  decide (node.fLink ≤ maxNode) && decide (node.bLink ≤ maxNode) &&
    decide (node.height ≤ btree.treeDepth) &&
    decide (node.numRecords ≤ (btree.map.nodeSize - 14) / 8) && btree.checkOffsets node

def BTree.getNode (btree : BTree κ) (disk : ℕ → Bool) (nodeNum : ℕ) : Except OSStatus (Node κ) :=
  if btree.map.totalNodes ≤ nodeNum then .error .fsBTInvalidNodeErr
  else if disk nodeNum && !btree.checkNode (btree.nodeAt nodeNum) then .error .fsBTInvalidNodeErr
  else .ok (btree.nodeAt nodeNum)

/-! ## Searching -/

section Search
variable [Ord κ]

def searchNode (searchKey : κ) (node : Node κ) : Bool × ℕ :=
  bisect (fun trial => compare searchKey trial.key) node.records node.numRecords 0
    (node.numRecords - 1)

/-- The node number in the first four bytes of an index record. -/
def childNodeNum (data : List UInt8) : ℕ :=
  (data.take 4).foldl (fun n byte => 256 * n + byte.toNat) 0

/-- The node and the index at each level of a search. -/
abbrev TreePathTable := ℕ → ℕ × ℕ

/-- What `SearchTree` returns: `noErr` when the key was found, and `fsBTRecordNotFoundErr` with
the place to insert it otherwise. -/
structure Found (κ : Type) where
  treePathTable : TreePathTable
  nodeNum : ℕ
  node : Node κ
  index : ℕ
  keyFound : Bool

def searchLevels (btree : BTree κ) (disk : ℕ → Bool) (searchKey : κ) :
    ℕ → TreePathTable → ℕ → Except OSStatus (Found κ)
  | 0, _, _ => .error .noResult
  | fuel + 1, path, curNodeNum => do
    let node ← btree.getNode disk curNodeNum
    let (keyFound, index) := searchNode searchKey node
    if node.type = .leaf then
      pure ⟨Function.update path node.height (curNodeNum, index), curNodeNum, node, index, keyFound⟩
    else
      let index := if keyFound = false ∧ index ≠ 0 then index - 1 else index
      match node.records[index]? with
      | none => .error .noResult
      | some record =>
        searchLevels btree disk searchKey fuel
          (Function.update path node.height (curNodeNum, index)) (childNodeNum record.data)

def searchTree (btree : BTree κ) (disk : ℕ → Bool) (searchKey : κ) : Except OSStatus (Found κ) :=
  if btree.treeDepth = 0 then .error .fsBTEmptyErr
  else searchLevels btree disk searchKey (btree.treeDepth + btree.map.totalNodes)
    (fun _ => (0, 0)) btree.rootNode

/-! ## Iterating -/

/-- An iterator: a key, and the node of the hint. -/
structure Iterator (κ : Type) where
  key : κ
  keyLength : ℕ
  nodeNum : ℕ
  deriving DecidableEq, Repr

/-- The place that `FindIteratorPosition` finds, with the neighbours that it holds. -/
structure Position (κ : Type) where
  left : Option (Node κ)
  node : Node κ
  right : Option (Node κ)
  nodeNum : ℕ
  index : ℕ
  foundRecord : Bool

/-- The label `SearchTheTree`. -/
def searchTheTree (btree : BTree κ) (disk : ℕ → Bool) (key : κ) (foundIt : Bool) :
    Except OSStatus (Position κ) := do
  let found ← searchTree btree disk key
  pure ⟨none, found.node, none, found.nodeNum, found.index, foundIt || found.keyFound⟩

/-- A node that an iterator can stand in. -/
def Node.hasRecords (node : Node κ) : Bool := decide (node.type = .leaf) && decide (0 < node.numRecords)

/-- The part of `FindIteratorPosition` that looks to the left of the hinted node. -/
def findToTheLeft (btree : BTree κ) (disk : ℕ → Bool) (key : κ) (nodeNum index : ℕ)
    (middle : Node κ) : Except OSStatus (Position κ) :=
  if middle.bLink = 0 then .ok ⟨none, middle, none, nodeNum, index, false⟩
  else do
    let left ← btree.getNode disk middle.bLink
    if left.hasRecords = false then searchTheTree btree disk key false
    else
      let (foundIt, leftIndex) := searchNode key left
      if foundIt then .ok ⟨none, left, some middle, middle.bLink, leftIndex, true⟩
      else if leftIndex = 0 then searchTheTree btree disk key false
      else if left.numRecords ≤ leftIndex then .ok ⟨some left, middle, none, left.fLink, index, false⟩
      else .ok ⟨none, left, some middle, middle.bLink, leftIndex, false⟩

/-- The part of `FindIteratorPosition` that looks to the right of the hinted node. -/
def findToTheRight (btree : BTree κ) (disk : ℕ → Bool) (key : κ) (nodeNum index : ℕ)
    (middle : Node κ) : Except OSStatus (Position κ) :=
  if middle.fLink = 0 then .ok ⟨none, middle, none, nodeNum, index, false⟩
  else do
    let right ← btree.getNode disk middle.fLink
    if right.hasRecords = false then searchTheTree btree disk key false
    else
      let (foundIt, rightIndex) := searchNode key right
      if right.numRecords ≤ rightIndex then searchTheTree btree disk key foundIt
      else .ok ⟨some middle, right, none, middle.fLink, rightIndex, foundIt⟩

def findIteratorPosition (btree : BTree κ) (disk : ℕ → Bool) :
    Option (Iterator κ) → Except OSStatus (Position κ)
  | none => .error .fsBTInvalidIteratorErr
  | some iterator =>
    if iterator.nodeNum = 0 then searchTheTree btree disk iterator.key false
    else
      match btree.getNode disk iterator.nodeNum with
      | .error .fsBTInvalidNodeErr => searchTheTree btree disk iterator.key false
      | .error err => .error err
      | .ok middle =>
        if middle.hasRecords = false then searchTheTree btree disk iterator.key false
        else
          let (foundIt, index) := searchNode iterator.key middle
          if foundIt then .ok ⟨none, middle, none, iterator.nodeNum, index, true⟩
          else if index = 0 then
            findToTheLeft btree disk iterator.key iterator.nodeNum index middle
          else if middle.numRecords ≤ index then
            findToTheRight btree disk iterator.key iterator.nodeNum index middle
          else searchTheTree btree disk iterator.key false

inductive Operation where
  | first
  | next
  | current
  | prev
  | last
  deriving DecidableEq, Repr

/-- The node, its number and the index that an iteration goes to. -/
structure Target (κ : Type) where
  node : Node κ
  nodeNum : ℕ
  index : ℕ

def firstOrLast (btree : BTree κ) (disk : ℕ → Bool) (operation : Operation) :
    Except OSStatus (Target κ) :=
  let nodeNum := if operation = .first then btree.firstLeafNode else btree.lastLeafNode
  if nodeNum = 0 then .error .fsBTEmptyErr
  else do
    let node ← btree.getNode disk nodeNum
    if node.hasRecords = false then .error .fsBTInvalidNodeErr
    else pure ⟨node, nodeNum, if operation = .first then 0 else node.numRecords - 1⟩

def previous (btree : BTree κ) (disk : ℕ → Bool) (p : Position κ) : Except OSStatus (Target κ) :=
  if 0 < p.index then .ok ⟨p.node, p.nodeNum, p.index - 1⟩
  else
    match p.left with
    | some left => .ok ⟨left, p.nodeNum, left.numRecords - 1⟩
    | none =>
      if 0 < p.node.bLink then do
        let left ← btree.getNode disk p.node.bLink
        pure ⟨left, p.node.bLink, left.numRecords - 1⟩
      else .error .fsBTStartOfIterationErr

def following (btree : BTree κ) (disk : ℕ → Bool) (p : Position κ) : Except OSStatus (Target κ) :=
  if p.foundRecord = false ∧ p.node.fLink = 0 ∧ p.index = p.node.numRecords then
    .error .fsBTEndOfIterationErr
  else if p.foundRecord = false ∧ p.index ≠ p.node.numRecords then .ok ⟨p.node, p.nodeNum, p.index⟩
  else if p.index + 1 < p.node.numRecords then .ok ⟨p.node, p.nodeNum, p.index + 1⟩
  else
    match p.right with
    | some right => .ok ⟨right, p.nodeNum, 0⟩
    | none =>
      if 0 < p.node.fLink then do
        let right ← btree.getNode disk p.node.fLink
        pure ⟨right, p.node.fLink, 0⟩
      else .error .fsBTEndOfIterationErr

def findTarget (btree : BTree κ) (disk : ℕ → Bool) (operation : Operation)
    (iterator : Option (Iterator κ)) : Except OSStatus (Target κ) :=
  match operation with
  | .first => firstOrLast btree disk .first
  | .last => firstOrLast btree disk .last
  | .prev => findIteratorPosition btree disk iterator >>= previous btree disk
  | .next => findIteratorPosition btree disk iterator >>= following btree disk
  | .current => do
    let p ← findIteratorPosition btree disk iterator
    if p.foundRecord = false ∧ p.node.numRecords ≤ p.index then .error .fsBTEndOfIterationErr
    else pure ⟨p.node, p.nodeNum, p.index⟩

/-- What an iteration returns: the key and the node of the iterator, the length of the record,
and as much of it as the buffer holds. -/
structure Iterated (κ : Type) where
  iterator : Iterator κ
  recordLen : ℕ
  buffer : List UInt8
  deriving DecidableEq, Repr

/-- The label `CopyData`. -/
def copyData (recordSize : ℕ) (target : Target κ) : Except OSStatus (Iterated κ) :=
  match target.node.records[target.index]? with
  | none => .error .fsBTRecordNotFoundErr
  | some record => .ok ⟨⟨record.key, record.keyLength, target.nodeNum⟩, record.data.length,
      record.data.take recordSize⟩

/-- The errors as the caller sees them. -/
def exitError : OSStatus → OSStatus
  | .fsBTEmptyErr => .fsBTRecordNotFoundErr
  | .fsBTEndOfIterationErr => .fsBTRecordNotFoundErr
  | err => err

/-- `BTIterateRecord` with a record buffer of `recordSize` bytes. -/
def btIterateRecord (btree : BTree κ) (disk : ℕ → Bool) (operation : Operation)
    (iterator : Option (Iterator κ)) (recordSize : ℕ) : Except OSStatus (Iterated κ) :=
  (findTarget btree disk operation iterator >>= copyData recordSize).mapError exitError

end Search

end Darwin.Hfs.BTreeRecords
