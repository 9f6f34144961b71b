import Darwin.Hfs.BTreeNode

/-! # Inserting into an HFS B-tree

`InsertTree` with its parts, and the three routines that insert or replace a record. A node
buffer is the cached copy of its node, so a block descriptor is the number of its node, and
none where the buffer is nil. The size of a record is limited by `CheckInsertParams`.
-/
namespace Darwin.Hfs.BTreeRecords
open Darwin.Lib
open Darwin.Hfs.BTreeAllocate (NodeType)

variable {κ α : Type}

abbrev TreeM (κ : Type) := EStateM OSStatus (BTree κ)

/-! ## Nodes -/

def BTree.setNode (btree : BTree κ) (nodeNum : ℕ) (node : Node κ) : BTree κ :=
  { btree with node := Function.update btree.node nodeNum node }

def BTree.setRecords (btree : BTree κ) (nodeNum : ℕ) (records : List (Record κ)) : BTree κ :=
  btree.setNode nodeNum { btree.nodeAt nodeNum with records := records }

/-- A routine of the node map. -/
def liftMap (m : BTreeAllocate.BTreeM α) : TreeM κ α := fun btree =>
  match m.run ⟨fun _ => true, 0, btree.map⟩ with
  | .ok a s => .ok a { btree with map := s.st }
  | .error err s => .error (.nodeMap err) { btree with map := s.st }

def fetchNode (disk : ℕ → Bool) (nodeNum : ℕ) : TreeM κ (Node κ) := fun btree =>
  match btree.getNode disk nodeNum with
  | .ok node => .ok node btree
  | .error err => .error err btree

def getNewNode (nodeNum : ℕ) : TreeM κ Unit :=
  modify fun btree => { btree.setNode nodeNum { (Node.clear : Node κ) with formatted := true } with
    map := btree.map.setNode nodeNum ⟨.index, 0, []⟩ }

/-- `InsertRecord`: the record at the index, when it fits. -/
def insertRecord (nodeNum index : ℕ) (record : Record κ) : TreeM κ Bool := do
  let btree ← get
  let node := btree.nodeAt nodeNum
  if btree.getNodeFreeSize node < btree.getRecordSize record + 2 then pure false
  else do
    set (btree.setRecords nodeNum (node.records.insertIdx index record))
    pure true

/-- `InsertKeyRecord`. The key is stored with the given length. -/
def insertKeyRecord (nodeNum index : ℕ) (key : κ) (keyLength : ℕ) (data : List UInt8) :
    TreeM κ Bool := insertRecord nodeNum index ⟨key, keyLength, data⟩

def deleteRecord (nodeNum index : ℕ) : TreeM κ Unit :=
  modify fun btree => btree.setRecords nodeNum ((btree.nodeAt nodeNum).records.eraseIdx index)

/-- A node number as the data of an index record. -/
def nodeNumData (nodeNum : ℕ) : List UInt8 :=
  [UInt8.ofNat (nodeNum / 2 ^ 24), UInt8.ofNat (nodeNum / 2 ^ 16), UInt8.ofNat (nodeNum / 2 ^ 8),
    UInt8.ofNat nodeNum]

/-! ## The tree -/

/-- A key with its record that is to be inserted. `storedLength` is the length in front of the
key where it is now. -/
structure InsertKey (κ : Type) where
  key : κ
  storedLength : ℕ
  keyLength : ℕ
  data : List UInt8
  replacingKey : Bool
  skipRotate : Bool

def getKeyLength (btree : BTree κ) (storedLength : ℕ) (forLeafNode : Bool) : ℕ :=
  if forLeafNode || btree.variableIndexKeys then storedLength else btree.maxKeyLength

/-- The sizes of two nodes while records move from the right one to the left one. -/
structure Balance where
  leftSize : ℤ
  rightSize : ℤ
  moveSize : ℤ
  moveIndex : ℕ

def balance (size : ℕ → ℤ) : ℕ → Balance → Balance
  | 0, b => b
  | fuel + 1, b =>
    if b.leftSize < b.rightSize then
      balance size fuel ⟨b.leftSize + size b.moveIndex, b.rightSize - size b.moveIndex,
        size b.moveIndex, b.moveIndex + 1⟩
    else b

/-- The size that moves with an index, where the new record has index `insertIndex`. -/
def moveSize (btree : BTree κ) (right : Node κ) (insertIndex insertSize moveIndex : ℕ) : ℤ :=
  let recordSize := fun i => ((right.records.map btree.getRecordSize).getD i 0 : ℕ) + 2
  if moveIndex < insertIndex then recordSize moveIndex
  else if moveIndex = insertIndex then insertSize
  else recordSize (moveIndex - 1)

def rotateRecordLeft (left right : ℕ) : TreeM κ Bool := do
  let btree ← get
  match (btree.nodeAt right).records with
  | [] => pure false
  | record :: _ =>
    if ← insertRecord left (btree.nodeAt left).numRecords record then do
      deleteRecord right 0
      pure true
    else pure false

/-- The loop of `RotateLeft` over the `count` records from `index` on: the place of the new
record, when it is one of them. -/
def rotateRecords (left right insertIndex : ℕ) (key : InsertKey κ) (keyLength : ℕ) :
    ℕ → ℕ → Option (ℕ × ℕ) → TreeM κ (Option (ℕ × ℕ))
  | 0, _, place => pure place
  | count + 1, index, place => do
    let btree ← get
    if index = insertIndex then
      let leftInsertIndex := (btree.nodeAt left).numRecords
      if ← insertKeyRecord left leftInsertIndex key.key keyLength key.data then
        rotateRecords left right insertIndex key keyLength count (index + 1)
          (some (leftInsertIndex, (btree.nodeAt right).bLink))
      else throw .fsBTBadRotateErr
    else if ← rotateRecordLeft left right then
      rotateRecords left right insertIndex key keyLength count (index + 1) place
    else throw .fsBTBadRotateErr

/-- What an insertion into two nodes returns: the index and node of the new record and the
number of records that moved. -/
structure Rotated where
  insertIndex : ℕ
  insertNodeNum : ℕ
  recsRotated : ℕ

/-- `RotateLeft`, with `none` when the record does not fit. -/
def rotateLeft (left right rightInsertIndex : ℕ) (key : InsertKey κ) : TreeM κ (Option Rotated) := do
  let btree ← get
  let leftNode := btree.nodeAt left
  let rightNode := btree.nodeAt right
  let keyLength := getKeyLength btree key.storedLength (decide (rightNode.type = .leaf))
  let insertSize := padded (btree.calcKeySize keyLength + key.data.length + 2)
  let nodeSize : ℤ := btree.map.nodeSize
  let b := balance (moveSize btree rightNode rightInsertIndex insertSize) (rightNode.numRecords + 1)
    ⟨nodeSize - btree.getNodeFreeSize leftNode,
      nodeSize - btree.getNodeFreeSize rightNode + insertSize, 0, 0⟩
  let b := if nodeSize < b.leftSize then
    ⟨b.leftSize - b.moveSize, b.rightSize + b.moveSize, b.moveSize, b.moveIndex - 1⟩ else b
  if nodeSize < b.rightSize then pure none
  else do
    let place ← rotateRecords left right rightInsertIndex key keyLength b.moveIndex 0 none
    match place with
    | some (insertIndex, insertNodeNum) => pure (some ⟨insertIndex, insertNodeNum, b.moveIndex⟩)
    | none => do
      let insertIndex := rightInsertIndex - b.moveIndex
      let btree ← get
      if ← insertKeyRecord right insertIndex key.key keyLength key.data then
        pure (some ⟨insertIndex, (btree.nodeAt left).fLink, b.moveIndex⟩)
      else throw .fsBTBadRotateErr

/-- The checks of `SplitLeft` on the left sibling. -/
def splitSiblings (btree : BTree κ) (left : Option ℕ) (right rightNodeNum : ℕ) : Bool :=
  let rightNode := btree.nodeAt right
  let types := decide (rightNode.height = 1 → rightNode.type = .leaf)
  match left with
  | none => types
  | some left =>
    let leftNode := btree.nodeAt left
    types && decide (leftNode.fLink = rightNodeNum) && decide (leftNode.height = rightNode.height) &&
      decide (leftNode.type = rightNode.type)

/-- `SplitLeft`: the new left node, and the place of the record. Whether the record fits after
the rotation is not looked at. -/
def splitLeft (left : Option ℕ) (right rightNodeNum index : ℕ) (key : InsertKey κ) :
    TreeM κ (ℕ × Rotated) := do
  let btree ← get
  if splitSiblings btree left right rightNodeNum = false then throw .fsBTInvalidNodeErr
  else do
    let newNodeNum ← liftMap BTreeAllocate.allocateNode
    match left with
    | some left => modify fun btree =>
        btree.setNode left { btree.nodeAt left with fLink := newNodeNum }
    | none => pure ()
    getNewNode newNodeNum
    modify fun btree =>
      let rightNode := btree.nodeAt right
      (btree.setNode newNodeNum { btree.nodeAt newNodeNum with
        fLink := rightNodeNum, bLink := rightNode.bLink, type := rightNode.type,
        height := rightNode.height }).setNode right { rightNode with bLink := newNodeNum }
    modify fun btree =>
      let newNode := btree.nodeAt newNodeNum
      if newNode.type = .leaf ∧ newNode.bLink = 0 then { btree with firstLeafNode := newNodeNum }
      else btree
    let rotated ← rotateLeft newNodeNum right index key
    pure (newNodeNum, rotated.getD ⟨0, 0, 0⟩)

/-- The first record of a node. A node without records has none to read. -/
def firstRecord (nodeNum : ℕ) : TreeM κ (Record κ) := do
  let btree ← get
  match (btree.nodeAt nodeNum).records with
  | [] => throw .noResult
  | record :: _ => pure record

def addNewRootNode (left right : ℕ) : TreeM κ Unit := do
  let rootNum ← liftMap BTreeAllocate.allocateNode
  getNewNode rootNum
  modify fun btree => { btree.setNode rootNum { btree.nodeAt rootNum with
    type := .index, height := btree.treeDepth + 1 } with treeDepth := btree.treeDepth + 1 }
  let btree ← get
  let leftRecord ← firstRecord left
  let _ ← insertKeyRecord rootNum 0 leftRecord.key
    (getKeyLength btree leftRecord.keyLength false) (nodeNumData (btree.nodeAt right).bLink)
  let rightRecord ← firstRecord right
  let _ ← insertKeyRecord rootNum 1 rightRecord.key
    (getKeyLength btree rightRecord.keyLength false) (nodeNumData (btree.nodeAt left).fLink)
  modify fun btree => { btree with rootNode := rootNum }

/-- What `InsertNode` returns. -/
structure Inserted where
  newNode : ℕ
  newIndex : ℕ
  leftNode : Option ℕ
  updateParent : Bool
  insertParent : Bool
  rootSplit : Bool

/-- `InsertNode`, for the node number `node` and the buffer `rightNode`. -/
def insertNode (disk : ℕ → Bool) (key : InsertKey κ) (rightNode node index : ℕ)
    (leftNode : Option ℕ) (updateParent insertParent : Bool) : TreeM κ Inserted := do
  let btree ← get
  let leftNodeNum := (btree.nodeAt rightNode).bLink
  let target := if node = leftNodeNum then leftNode else some rightNode
  match target with
  | none => throw .noResult
  | some targetNode =>
    if ← insertKeyRecord targetNode index key.key key.keyLength key.data then
      let first := decide (index = 0) && decide ((btree.nodeAt targetNode).height ≠ btree.treeDepth)
      pure ⟨node, index, leftNode, updateParent || first, insertParent, false⟩
    else do
      let leftNode ← if 0 < leftNodeNum ∧ leftNode = none then do
          let _ ← fetchNode disk leftNodeNum
          pure (some leftNodeNum)
        else pure leftNode
      let rotated ← match leftNode with
        | some left => if 0 < leftNodeNum ∧ key.skipRotate = false then
            rotateLeft left rightNode index key else pure none
        | none => pure none
      match rotated with
      | some r =>
        let changed := key.replacingKey || decide (1 < r.recsRotated) || decide (0 < index)
        pure ⟨r.insertNodeNum, r.insertIndex, leftNode, updateParent || changed, insertParent, false⟩
      | none => do
        let (left, r) ← splitLeft leftNode rightNode node index key
        let btree ← get
        if (btree.nodeAt rightNode).height = btree.treeDepth then do
          addNewRootNode left rightNode
          pure ⟨r.insertNodeNum, r.insertIndex, some left, updateParent, insertParent, true⟩
        else
          let changed := key.replacingKey || decide (1 < r.recsRotated) || decide (0 < index)
          pure ⟨r.insertNodeNum, r.insertIndex, some left, updateParent || changed, true, false⟩

/-- The key of the first record of a node, as an index record. -/
def indexKey (nodeNum : ℕ) (data : List UInt8) (replacingKey skipRotate : Bool) :
    TreeM κ (InsertKey κ) := do
  let btree ← get
  let record ← firstRecord nodeNum
  pure ⟨record.key, record.keyLength, getKeyLength btree record.keyLength false, data,
    replacingKey, skipRotate⟩

/-- The keys for the parent of a node. -/
def parentKeys (targetNodeNum parentNodeNum index : ℕ) (inserted : Inserted) :
    TreeM κ (InsertKey κ × Option (InsertKey κ)) := do
  if inserted.updateParent then do
    deleteRecord parentNodeNum index
    let update ← indexKey targetNodeNum (nodeNumData targetNodeNum) true inserted.insertParent
    if inserted.insertParent then
      match inserted.leftNode with
      | none => throw .noResult
      | some left => do
        let btree ← get
        let insert ← indexKey left (nodeNumData (btree.nodeAt targetNodeNum).bLink) false false
        pure (update, some insert)
    else pure (update, none)
  else
    match inserted.leftNode with
    | none => throw .noResult
    | some left => do
      let btree ← get
      let insert ← indexKey left (nodeNumData (btree.nodeAt targetNodeNum).bLink) false false
      pure (insert, none)

/-- `InsertLevel`: the node that the primary key went to. -/
def insertLevel (disk : ℕ → Bool) : ℕ → TreePathTable → InsertKey κ → Option (InsertKey κ) → ℕ → ℕ →
    TreeM κ ℕ
  | 0, _, _, _, _, _ => throw .noResult
  | fuel + 1, path, primaryKey, secondaryKey, index, level => do
    let targetNodeNum := (path level).1
    let first ← insertNode disk primaryKey targetNodeNum targetNodeNum index none false false
    let btree ← get
    let path := if first.rootSplit then Function.update path (level + 1) (btree.rootNode, 1) else path
    let last ← match secondaryKey with
      | none => pure first
      | some key =>
        insertNode disk key targetNodeNum first.newNode first.newIndex first.leftNode
          first.updateParent first.insertParent
    if last.insertParent || last.updateParent then do
      let parentNodeNum := (path (level + 1)).1
      let parentIndex := (path (level + 1)).2
      let _ ← fetchNode disk parentNodeNum
      let (primaryKey, secondaryKey) ← parentKeys targetNodeNum parentNodeNum parentIndex last
      let _ ← insertLevel disk fuel path primaryKey secondaryKey parentIndex (level + 1)
      pure first.newNode
    else pure first.newNode

def insertTree (disk : ℕ → Bool) (path : TreePathTable) (key : κ) (keyLength : ℕ)
    (data : List UInt8) (index level : ℕ) (replacingKey : Bool) : TreeM κ ℕ := do
  let btree ← get
  insertLevel disk (btree.treeDepth + 2) path
    ⟨key, keyLength, getKeyLength btree keyLength (decide (level = 1)), data, replacingKey, false⟩
    none index level

/-! ## Records -/

section Records
variable [Ord κ]

/-- The node map can be extended by `setEndOfForkProc`; `disk` says which nodes are read from
disk. -/
structure Agent where
  setEndOfForkProc : ℕ → ℕ → ℕ × Bool
  disk : ℕ → Bool

/-- `CalcKeyRecordSize`, a 16-bit number. -/
def calcKeyRecordSize (keySize recSize : ℕ) : ℕ := (padded keySize + padded recSize) % 2 ^ 16

def checkInsertParams (btree : BTree κ) (iterator : Iterator κ) (record : List UInt8) : Bool :=
  decide (calcKeyRecordSize (btree.calcKeySize iterator.keyLength) record.length ≤
    btree.map.nodeSize / 2)

/-- The record is replaced as a whole. That the source places it by the size of the new key is seen
only in bytes: `NodeBytes.trySimpleReplace`. -/
def trySimpleReplace (nodeNum : ℕ) (iterator : Iterator κ) (record : List UInt8) :
    TreeM κ Bool := do
  let btree ← get
  let node := btree.nodeAt nodeNum
  if node.type ≠ .leaf then pure false
  else
    let (foundIt, index) := searchNode iterator.key node
    match foundIt, node.records[index]? with
    | true, some old =>
      let spaceNeeded := calcKeyRecordSize (btree.calcKeySize iterator.keyLength) record.length
      let oldSpace := btree.getRecordSize old
      if spaceNeeded = oldSpace then do
        set (btree.setRecords nodeNum (node.records.set index
          { old with data := record ++ old.data.drop record.length }))
        pure true
      else if spaceNeeded ≤ btree.getNodeFreeSize node + oldSpace then do
        deleteRecord nodeNum index
        let _ ← insertKeyRecord nodeNum index iterator.key iterator.keyLength record
        pure true
      else pure false
    | _, _ => pure false

/-- `CalcMapBits`. -/
def calcMapBits (btree : BTree κ) : ℕ → ℕ → ℕ
  | 0, mapBits => mapBits
  | fuel + 1, mapBits =>
    if mapBits < btree.map.totalNodes then
      calcMapBits btree fuel (mapBits + 8 * (btree.map.nodeSize - 20))
    else mapBits

/-- The number of nodes that the file must have before `InsertTree`, when it has too few free
ones. -/
def nodesNeeded (btree : BTree κ) : Option ℕ :=
  if btree.map.freeNodes < btree.treeDepth + 1 then
    let nodes := btree.treeDepth + 1 - btree.map.freeNodes + btree.map.totalNodes
    some (if calcMapBits btree btree.map.totalNodes (8 * (btree.map.nodeSize - 256)) < nodes
      then nodes + 1 else nodes)
  else none

/-- Extend the file if necessary. -/
def makeRoom (agent : Agent) : TreeM κ Unit := do
  let btree ← get
  match nodesNeeded btree with
  | some nodes => liftMap (BTreeAllocate.extendBTree agent.setEndOfForkProc nodes)
  | none => pure ()

/-- A free node for an empty tree. -/
def allocateFirst (agent : Agent) : TreeM κ ℕ := do
  let btree ← get
  if btree.map.freeNodes = 0 then
    liftMap (BTreeAllocate.extendBTree agent.setEndOfForkProc (btree.map.totalNodes + 1))
  else pure ()
  liftMap BTreeAllocate.allocateNode

/-- The first leaf node of an empty tree, with the record. -/
def addFirstLeaf (agent : Agent) (iterator : Iterator κ) (record : List UInt8) : TreeM κ ℕ := do
  let insertNodeNum ← allocateFirst agent
  getNewNode insertNodeNum
  modify fun btree => btree.setNode insertNodeNum
    { btree.nodeAt insertNodeNum with type := .leaf, height := 1 }
  if ← insertKeyRecord insertNodeNum 0 iterator.key iterator.keyLength record then
    pure insertNodeNum
  else throw .fsBTRecordTooLargeErr

def countRecord : TreeM κ Unit :=
  modify fun btree => { btree with leafRecords := u32 (btree.leafRecords + 1) }

/-- `BTInsertRecord`: the node of the hint that is left in the iterator. -/
def btInsertRecord (agent : Agent) (iterator : Iterator κ) (record : List UInt8) : TreeM κ ℕ := do
  let btree ← get
  if checkInsertParams btree iterator record = false then throw .fsBTRecordTooLargeErr
  else
    match searchTree btree agent.disk iterator.key with
    | .error .fsBTEmptyErr => do
      let insertNodeNum ← addFirstLeaf agent iterator record
      modify fun btree => { btree with
        treeDepth := 1, rootNode := insertNodeNum, firstLeafNode := insertNodeNum,
        lastLeafNode := insertNodeNum }
      countRecord
      pure insertNodeNum
    | .error err => throw err
    | .ok found =>
      if found.keyFound then throw .fsBTDuplicateRecordErr
      else do
        let recordFit ← if 0 < found.index then
            insertKeyRecord found.nodeNum found.index iterator.key iterator.keyLength record
          else pure false
        if recordFit then do
          countRecord
          pure found.nodeNum
        else do
          makeRoom agent
          let insertNodeNum ← insertTree agent.disk found.treePathTable iterator.key
            iterator.keyLength record found.index 1 false
          countRecord
          pure insertNodeNum

/-- The attempt to replace the record in the node of the hint. -/
def replaceAtHint (agent : Agent) (iterator : Iterator κ) (record : List UInt8) :
    TreeM κ Bool := do
  let btree ← get
  if iterator.nodeNum = 0 then pure false
  else
    match btree.getNode agent.disk iterator.nodeNum with
    | .error _ => pure false
    | .ok _ => trySimpleReplace iterator.nodeNum iterator record

/-- The rest of a replacement, from the place that `SearchTree` found. -/
def replaceFound (agent : Agent) (iterator : Iterator κ) (record : List UInt8) (found : Found κ) :
    TreeM κ ℕ := do
  if ← trySimpleReplace found.nodeNum iterator record then pure found.nodeNum
  else do
    makeRoom agent
    deleteRecord found.nodeNum found.index
    insertTree agent.disk found.treePathTable iterator.key iterator.keyLength record found.index 1
      true

def btSetRecord (agent : Agent) (iterator : Iterator κ) (record : List UInt8) : TreeM κ ℕ := do
  let btree ← get
  if checkInsertParams btree iterator record = false then throw .fsBTRecordTooLargeErr
  else if ← replaceAtHint agent iterator record then pure iterator.nodeNum
  else
    match searchTree btree agent.disk iterator.key with
    | .error .fsBTEmptyErr => do
      let insertNodeNum ← addFirstLeaf agent iterator record
      modify fun btree => { btree with rootNode := insertNodeNum, treeDepth := 1 }
      countRecord
      pure insertNodeNum
    | .error err => throw err
    | .ok found =>
      if found.keyFound then replaceFound agent iterator record found
      else do
        makeRoom agent
        let insertNodeNum ← insertTree agent.disk found.treePathTable iterator.key
          iterator.keyLength record found.index 1 false
        countRecord
        pure insertNodeNum

def btReplaceRecord (agent : Agent) (iterator : Iterator κ) (record : List UInt8) : TreeM κ ℕ := do
  let btree ← get
  if checkInsertParams btree iterator record = false then throw .fsBTRecordTooLargeErr
  else if ← replaceAtHint agent iterator record then pure iterator.nodeNum
  else
    match searchTree btree agent.disk iterator.key with
    | .error err => throw err
    | .ok found =>
      if found.keyFound then replaceFound agent iterator record found
      else throw .fsBTRecordNotFoundErr

end Records

end Darwin.Hfs.BTreeRecords
