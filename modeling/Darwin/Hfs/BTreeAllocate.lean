import Darwin.Lib.BitWords
import Darwin.Lib.Fallible

/-! # The node map of an HFS B-tree

Allocation of the nodes of a B-tree file. The node map is a bitmap spread over the map
record of the header node and, through `fLink`, the records of the map nodes; it is read in
16-bit words. Every call of the file system agent (`GetNode`, `GetNewNode`, `ReleaseNode`,
`UpdateNode`) is an operation that may fail. A node buffer is the cached copy of its node,
so a store through it changes the node, and a `BlockDescriptor` is the number of its node.
A release on the way out of an error is left out, since its result is ignored.
-/
namespace Darwin.Hfs.BTreeAllocate
open Darwin.Lib

inductive NodeType where
  | leaf
  | index
  | header
  | map
  deriving DecidableEq, Repr

/-- A node as the map routines see it. `mapRecord` is record 2 of the header node and
record 0 of a map node, as words. -/
structure Node where
  type : NodeType
  fLink : ℕ
  mapRecord : List (BitVec 16)
  deriving DecidableEq, Repr

/-- The fields of the control block the map routines use, the end of the file and its
nodes. -/
structure BTree where
  nodeSize : ℕ
  totalNodes : ℕ
  freeNodes : ℕ
  fcbEOF : ℕ
  node : ℕ → Node

/-- `agentErr` stands for the errors of the agent. A walk that never ends has `noResult`. -/
inductive OSStatus where
  | fsBTFullErr
  | fsBTNoMoreMapNodesErr
  | fsBTInvalidNodeErr
  | fsBTBadNodeType
  | fsBTInvalidHeaderErr
  | agentErr
  | noResult
  deriving DecidableEq, Repr

abbrev BTreeM := IoM OSStatus BTree

/-! ## Nodes -/

def getNode (nodeNum : ℕ) : BTreeM Unit := do
  let btree ← current
  if btree.totalNodes ≤ nodeNum then throw .fsBTInvalidNodeErr
  else operation .agentErr

def releaseNode : BTreeM Unit := operation .agentErr

def updateNode : BTreeM Unit := operation .agentErr

def BTree.setNode (btree : BTree) (nodeNum : ℕ) (node : Node) : BTree :=
  { btree with node := Function.update btree.node nodeNum node }

def BTree.setFLink (btree : BTree) (nodeNum fLink : ℕ) : BTree :=
  btree.setNode nodeNum { btree.node nodeNum with fLink := fLink }

/-- A store to word `pos` of a map record. -/
def BTree.setWord (btree : BTree) (nodeNum pos : ℕ) (word : BitVec 16) : BTree :=
  btree.setNode nodeNum
    { btree.node nodeNum with mapRecord := (btree.node nodeNum).mapRecord.set pos word }

/-- The number of bits of a map record, `mapSize << 3`. -/
def BTree.mapBits (btree : BTree) (nodeNum : ℕ) : ℕ :=
  16 * (btree.node nodeNum).mapRecord.length

/-- `GetNewNode` clears the node, which makes it an index node without records. -/
def getNewNode (nodeNum : ℕ) : BTreeM Unit := do
  operation .agentErr
  IoM.update (·.setNode nodeNum ⟨.index, 0, []⟩)

/-- The next node of the map, the header node at first. -/
def getMapNode : Option ℕ → BTreeM ℕ
  | some nodeNum => do
    let btree ← current
    let nextNodeNum := (btree.node nodeNum).fLink
    if nextNodeNum = 0 then throw .fsBTNoMoreMapNodesErr
    else do
      releaseNode
      getNode nextNodeNum
      if (btree.node nextNodeNum).type ≠ .map then throw .fsBTBadNodeType
      else pure nextNodeNum
  | none => do
    let btree ← current
    getNode 0
    if (btree.node 0).type ≠ .header then throw .fsBTInvalidHeaderErr
    else pure 0

/-! ## Allocating and freeing a node -/

/-- The first word with a clear bit: its node, its index in the map record and the number
of the first node of this record. -/
def findFreeWord : ℕ → Option ℕ → ℕ → BTreeM (ℕ × ℕ × ℕ)
  | 0, _, _ => throw .noResult
  | fuel + 1, node, nodeNumber => do
    let node ← getMapNode node
    let btree ← current
    let map := (btree.node node).mapRecord
    let pos := map.findIdx (· ≠ 0xFFFF)
    if pos < map.length then pure (node, pos, nodeNumber)
    else findFreeWord fuel (some node) (u32 (nodeNumber + btree.mapBits node))

/-- The loop that finds the clear bit of a word, from `bitOffset` and its mask on. -/
def findFreeBit (freeWord : BitVec 16) : ℕ → BitVec 16 → ℕ × BitVec 16
  | 0, mask => (0, mask)
  | bitOffset + 1, mask =>
    if freeWord &&& mask = 0 then (bitOffset + 1, mask)
    else findFreeBit freeWord bitOffset (mask >>> 1)

def allocateNode : BTreeM ℕ := do
  let btree ← current
  let (node, pos, first) ← findFreeWord (btree.totalNodes + 1) none 0
  let freeWord := (btree.node node).mapRecord.getD pos 0
  let (bitOffset, mask) := findFreeBit freeWord 15 0x8000
  let nodeNumber := u32 (first + (pos * 16 + (15 - bitOffset)))
  if btree.totalNodes ≤ nodeNumber then throw .fsBTFullErr
  else do
    IoM.update (·.setWord node pos (freeWord ||| mask))
    updateNode
    IoM.update (fun btree => { btree with freeNodes := u32Sub btree.freeNodes 1 })
    pure nodeNumber

/-- The map record of `nodeNum`: its node and the number of the first node behind it. -/
def findMapRecord (nodeNum : ℕ) : ℕ → Option ℕ → ℕ → BTreeM (ℕ × ℕ)
  | 0, _, _ => throw .noResult
  | fuel + 1, node, nodeIndex => do
    let node ← getMapNode node
    let btree ← current
    let nodeIndex := u32 (nodeIndex + btree.mapBits node)
    if nodeIndex ≤ nodeNum then findMapRecord nodeNum fuel (some node) nodeIndex
    else pure (node, nodeIndex)

def freeNode (nodeNum : ℕ) : BTreeM Unit := do
  let btree ← current
  let (node, nodeIndex) ← findMapRecord nodeNum (btree.totalNodes + 1) none 0
  let nodeNum := u32Sub nodeNum (u32Sub nodeIndex (btree.mapBits node))
  let bitOffset := 15 - nodeNum % 16
  let word := (btree.node node).mapRecord.getD (nodeNum / 16) 0
  IoM.update (·.setWord node (nodeNum / 16) (word &&& ~~~(1#16 <<< bitOffset)))
  updateNode
  IoM.update (fun btree => { btree with freeNodes := u32 (btree.freeNodes + 1) })

/-! ## Extending the file -/

/-- A place in the map: a map node, the bit number of its first bit, and the number of map
bits up to its end. -/
structure MapPos where
  mapNode : ℕ
  recStartBit : ℕ
  totalMapBits : ℕ
  deriving DecidableEq, Repr

/-- The bits of the map, and its last node. -/
def countMapBits : ℕ → Option ℕ → ℕ → BTreeM MapPos
  | 0, _, _ => throw .noResult
  | fuel + 1, node, totalMapBits => do
    let mapNode ← getMapNode node
    let btree ← current
    let pos : MapPos := ⟨mapNode, totalMapBits, u32 (totalMapBits + btree.mapBits mapNode)⟩
    if (btree.node mapNode).fLink ≠ 0 then countMapBits fuel (some mapNode) pos.totalMapBits
    else pure pos

/-- A new map node with an empty map record that is followed by the node `fLink`. -/
def initMapNode (nodeNum fLink : ℕ) : BTreeM Unit := do
  getNewNode nodeNum
  IoM.update (fun btree => btree.setNode nodeNum
    ⟨.map, fLink, List.replicate ((btree.nodeSize - 20) / 2) 0⟩)
  updateNode

/-- Initializes the map node `nodeNum` and the `more` map nodes behind it. -/
def initMapNodes : ℕ → ℕ → BTreeM Unit
  | 0, nodeNum => initMapNode nodeNum 0
  | more + 1, nodeNum => do
    initMapNode nodeNum (u32 (nodeNum + 1))
    initMapNodes more (u32 (nodeNum + 1))

/-- The walk to the map record of `nodeNum`, from `pos` on. -/
def seekMapRecord (nodeNum : ℕ) : ℕ → MapPos → BTreeM MapPos
  | 0, _ => throw .noResult
  | fuel + 1, pos => do
    let btree ← current
    if btree.mapBits pos.mapNode ≤ u32Sub nodeNum pos.recStartBit then
      let nextNodeNum := (btree.node pos.mapNode).fLink
      if nextNodeNum = 0 then throw .fsBTNoMoreMapNodesErr
      else do
        updateNode
        getNode nextNodeNum
        seekMapRecord nodeNum fuel
          ⟨nextNodeNum, pos.totalMapBits, u32 (pos.totalMapBits + btree.mapBits nextNodeNum)⟩
    else pure pos

/-- Marks the nodes from `nodeNum` on in the map. -/
def markMapNodes (fuel : ℕ) : ℕ → ℕ → MapPos → BTreeM Unit
  | 0, _, _ => pure ()
  | more + 1, nodeNum, pos => do
    let pos ← seekMapRecord nodeNum fuel pos
    let bitInRecord := u32Sub nodeNum pos.recStartBit
    let bitInWord := 15 - bitInRecord % 16
    IoM.update (fun btree => btree.setWord pos.mapNode (bitInRecord / 16)
      ((btree.node pos.mapNode).mapRecord.getD (bitInRecord / 16) 0 ||| 1#16 <<< bitInWord))
    markMapNodes fuel more (u32 (nodeNum + 1)) pos

/-- The number of map nodes for the nodes behind the map. -/
def newMapNodes (nodeSize newTotalNodes totalMapBits : ℕ) : ℕ :=
  (newTotalNodes - totalMapBits) / 8 / (nodeSize - 20) + 1

/-- The part of `ExtendBTree` behind the new end of the file. -/
def addMapNodes (oldTotalNodes newTotalNodes : ℕ) (pos : MapPos) : BTreeM Unit := do
  let btree ← current
  IoM.update (fun btree => { btree with totalNodes := newTotalNodes })
  if pos.totalMapBits < newTotalNodes then do
    let count := newMapNodes btree.nodeSize newTotalNodes pos.totalMapBits
    IoM.update (·.setFLink pos.mapNode oldTotalNodes)
    initMapNodes (count - 1) oldTotalNodes
    markMapNodes (newTotalNodes + 1) count oldTotalNodes pos
    updateNode
    IoM.update (fun btree => { btree with
      freeNodes := u32 (btree.freeNodes + u32Sub (u32Sub newTotalNodes oldTotalNodes) count) })
  else do
    releaseNode
    IoM.update (fun btree => { btree with
      freeNodes := u32 (btree.freeNodes + u32Sub newTotalNodes oldTotalNodes) })

/-- `setEndOfForkProc fcbEOF minEOF` is the end of the file that the agent leaves, and
whether it reports success. -/
def extendBTree (setEndOfForkProc : ℕ → ℕ → ℕ × Bool) (newTotalNodes : ℕ) : BTreeM Unit := do
  let btree ← current
  if newTotalNodes ≤ btree.totalNodes then pure ()
  else do
    let pos ← countMapBits (btree.totalNodes + 1) none 0
    let minEOF := u32 (newTotalNodes * btree.nodeSize)
    if btree.fcbEOF < minEOF then do
      let (newEOF, success) := setEndOfForkProc btree.fcbEOF minEOF
      let fcbEOF := u32 newEOF
      IoM.update (fun btree => { btree with fcbEOF := fcbEOF })
      if success = true then addMapNodes btree.totalNodes (fcbEOF / btree.nodeSize) pos
      else throw .agentErr
    else addMapNodes btree.totalNodes (btree.fcbEOF / btree.nodeSize) pos

end Darwin.Hfs.BTreeAllocate
