import Darwin.Hfs.NodeBytes

/-! # The check of a node that comes from the disk

`CheckNode` of `BTreeNodeOps.c` on the bytes of a node. It looks at the links, the type, the height,
the number of records and the offsets; it does not look into the records.
-/
namespace Darwin.Hfs.NodeBytes
open Darwin.Lib
open Darwin.Hfs.BTreeAllocate (NodeType)

/-- The fields of the control block that belong to the whole tree, and the end of its file. -/
structure Tree extends ControlBlock where
  treeDepth : ℕ
  rootNode : ℕ
  totalNodes : ℕ
  fcbEOF : ℕ
  deriving DecidableEq, Repr

/-- The node sizes that `VerifyHeader` lets through. -/
def nodeSizes : List ℕ := [512, 1024, 2048, 4096, 8192, 16384, 32768]

/-! ## The node descriptor -/

def kLeafNode : ℤ := -1

def kMapNode : ℤ := 2

def fLink (node : Memory) : ℕ := node.long 0

def bLink (node : Memory) : ℕ := node.long 4

/-- The node type is a signed byte. -/
def nodeKind (node : Memory) : ℤ := if (node 8).toNat < 2 ^ 7 then (node 8).toNat else (node 8).toNat - 2 ^ 8

def height (node : Memory) : ℕ := (node 9).toNat

def numRecords (node : Memory) : ℕ := node.word 10

/-- The type as one of the four that a checked node has. -/
def nodeType (node : Memory) : NodeType :=
  if nodeKind node = kLeafNode then .leaf
  else if nodeKind node = 0 then .index
  else if nodeKind node = 1 then .header
  else .map

/-- The node as the routines on records see it. -/
def buffer (node : Memory) : NodeBuffer := ⟨fLink node, bLink node, nodeType node, numRecords node, node⟩

/-! ## The check -/

/-- The loop over the offsets, from the free space down to the first record. -/
def checkOffsets (btree : ControlBlock) (node : Memory) : ℕ → ℕ → Bool
  | index, prevOffset =>
    let offset := getRecordOffset btree node index
    if offset < descriptorSize then false
    else if offset % 2 = 1 then false
    else if prevOffset ≤ offset then false
    else if btree.nodeSize ≤ offset then false
    else
      match index with
      | 0 => true
      | index + 1 => checkOffsets btree node index offset

def checkNode (btree : Tree) (node : Memory) : Bool :=
  let maxNode := (btree.fcbEOF / btree.nodeSize + 2 ^ 32 - 1) % 2 ^ 32
  let maxRecords := (btree.nodeSize - descriptorSize) / 8
  if maxNode < fLink node ∨ maxNode < bLink node then false
  else if nodeKind node < kLeafNode ∨ kMapNode < nodeKind node then false
  else if btree.treeDepth < height node then false
  else if maxRecords < numRecords node then false
  else
    checkOffsets btree.toControlBlock node (numRecords node)
      (word16 (btree.nodeSize - 2 * numRecords node))

/-- The size of the key of a record with its pad byte, in 16 bits. -/
def keySizeAt (btree : ControlBlock) (node : Memory) (index : ℕ) : ℕ :=
  word16 (padded (word16 (calcKeySize btree (keyLengthAt btree node (getRecordOffset btree node index)))))

/-- The records follow each other between the descriptor and the offset table, their sizes and the
free size are true differences, and what `GetRecordByIndex` returns of a key lies inside its record;
the data does where the key does. -/
structure Ordered (btree : ControlBlock) (node : Memory) : Prop where
  first : descriptorSize ≤ getRecordOffset btree node 0
  increasing : ∀ i j, i < j → j ≤ numRecords node →
    getRecordOffset btree node i < getRecordOffset btree node j
  table : getRecordOffset btree node (numRecords node) + 2 * (numRecords node + 1) ≤ btree.nodeSize
  free : getRecordOffset btree node (numRecords node) + getNodeFreeSize btree (buffer node) +
    2 * (numRecords node + 1) = btree.nodeSize
  size : ∀ i < numRecords node, getRecordOffset btree node i + getRecordSize btree node i =
    getRecordOffset btree node (i + 1)
  record : ∀ i < numRecords node, ∃ dataOffset dataSize,
    getRecordByIndex btree (buffer node) i = some (getRecordOffset btree node i, dataOffset, dataSize) ∧
      getRecordOffset btree node i + lengthSize btree ≤ getRecordOffset btree node (i + 1) ∧
      (keySizeAt btree node i ≤ getRecordSize btree node i ↔
        getRecordOffset btree node i ≤ dataOffset ∧
          dataOffset + dataSize = getRecordOffset btree node (i + 1))

section check
variable {btree : ControlBlock} {node : Memory}

theorem checkOffsets_spec {index prevOffset : ℕ} (h : checkOffsets btree node index prevOffset = true) :
    getRecordOffset btree node index < prevOffset ∧
      descriptorSize ≤ getRecordOffset btree node 0 ∧
      ∀ i ≤ index, getRecordOffset btree node i % 2 = 0 ∧
        (i < index → getRecordOffset btree node i < getRecordOffset btree node (i + 1)) := by
  induction index generalizing prevOffset with
  | zero =>
    rw [checkOffsets] at h
    simp only [Bool.if_false_left, Bool.and_eq_true, Bool.not_eq_true', decide_eq_false_iff_not] at h
    obtain ⟨hmin, heven, hprev, -⟩ := h
    refine ⟨by omega, by omega, fun i hi => ?_⟩
    obtain rfl := Nat.le_zero.mp hi
    exact ⟨by omega, nofun⟩
  | succ index ih =>
    rw [checkOffsets] at h
    simp only [Bool.if_false_left, Bool.and_eq_true, Bool.not_eq_true', decide_eq_false_iff_not,
      Nat.succ_eq_add_one] at h
    obtain ⟨hmin, heven, hprev, -, hrest⟩ := h
    obtain ⟨hbelow, hfirst, hall⟩ := ih hrest
    refine ⟨by omega, hfirst, fun i hi => ?_⟩
    by_cases hlast : i = index + 1
    · subst hlast
      exact ⟨by omega, fun hlt => absurd hlt (Nat.lt_irrefl _)⟩
    · refine ⟨(hall i (by omega)).1, fun _ => ?_⟩
      by_cases hindex : i = index
      · subst hindex
        exact hbelow
      · exact (hall i (by omega)).2 (by omega)

theorem offsets_increasing {n : ℕ}
    (h : ∀ i < n, getRecordOffset btree node i < getRecordOffset btree node (i + 1)) {i j : ℕ}
    (hij : i < j) (hj : j ≤ n) : getRecordOffset btree node i < getRecordOffset btree node j := by
  induction j with
  | zero => omega
  | succ j ih =>
    have hlast := h j (by omega)
    by_cases heq : i = j
    · subst heq
      exact hlast
    · exact (ih (by omega) (by omega)).trans hlast

theorem checkNode_offsets {btree : Tree} (hsize : btree.nodeSize ∈ nodeSizes)
    (h : checkNode btree node = true) :
    numRecords node ≤ (btree.nodeSize - descriptorSize) / 8 ∧
      checkOffsets btree.toControlBlock node (numRecords node)
        (btree.nodeSize - 2 * numRecords node) = true := by
  have hnode : btree.nodeSize < 2 ^ 16 := by
    simp only [nodeSizes, List.mem_cons, List.not_mem_nil, or_false] at hsize
    omega
  rw [checkNode] at h
  simp only [Bool.if_false_left, Bool.and_eq_true, Bool.not_eq_true', decide_eq_false_iff_not] at h
  obtain ⟨-, -, -, hcount, hoffsets⟩ := h
  rw [word16_eq (by omega)] at hoffsets
  exact ⟨by omega, hoffsets⟩

theorem getRecordByIndex_eq {i : ℕ} (hi : i < numRecords node) :
    getRecordByIndex btree (buffer node) i = some (getRecordOffset btree node i,
      word16 (getRecordOffset btree node i + keySizeAt btree node i),
      word16Sub (getRecordOffset btree node (i + 1))
        (word16 (getRecordOffset btree node i + keySizeAt btree node i))) :=
  if_neg (Nat.not_le.mpr hi)

end check

/-- A node that `CheckNode` lets through is safe for the routines that take it apart. -/
theorem checkNode_ordered (btree : Tree) (node : Memory) (hsize : btree.nodeSize ∈ nodeSizes)
    (h : checkNode btree node = true) : Ordered btree.toControlBlock node := by
  have hnode : btree.nodeSize % 2 = 0 ∧ btree.nodeSize ≤ 2 ^ 15 := by
    simp only [nodeSizes, List.mem_cons, List.not_mem_nil, or_false] at hsize
    omega
  obtain ⟨hcount, hoffsets⟩ := checkNode_offsets hsize h
  obtain ⟨hfree, hfirst, hall⟩ := checkOffsets_spec hoffsets
  have heven := (hall _ (Nat.le_refl _)).1
  have hincreasing : ∀ i j, i < j → j ≤ numRecords node →
      getRecordOffset btree.toControlBlock node i < getRecordOffset btree.toControlBlock node j :=
    fun i j hij hj => offsets_increasing (fun k hk => (hall k (Nat.le_of_lt hk)).2 hk) hij hj
  -- all offsets are even, so that the last one is two below the table
  have htable : getRecordOffset btree.toControlBlock node (numRecords node) +
      2 * (numRecords node + 1) ≤ btree.nodeSize := by
    omega
  have hbelow : ∀ i < numRecords node, getRecordOffset btree.toControlBlock node i + 2 ≤
      getRecordOffset btree.toControlBlock node (i + 1) ∧
      getRecordOffset btree.toControlBlock node (i + 1) ≤
        getRecordOffset btree.toControlBlock node (numRecords node) := by
    intro i hi
    have hlt := (hall i (Nat.le_of_lt hi)).2 hi
    have heven' := (hall i (Nat.le_of_lt hi)).1
    have hnext := (hall (i + 1) hi).1
    refine ⟨by omega, ?_⟩
    by_cases heq : i + 1 = numRecords node
    · rw [heq]
    · exact Nat.le_of_lt (hincreasing (i + 1) (numRecords node) (by omega) (Nat.le_refl _))
  have hrecordSize : ∀ i < numRecords node, getRecordOffset btree.toControlBlock node i +
      getRecordSize btree.toControlBlock node i = getRecordOffset btree.toControlBlock node (i + 1) := by
    intro i hi
    have := hbelow i hi
    rw [getRecordSize, word16Sub_eq (by omega) (by omega)]
    omega
  refine ⟨hfirst, hincreasing, htable, ?_, hrecordSize, fun i hi => ?_⟩
  · have hfreeSize : getNodeFreeSize btree.toControlBlock (buffer node) = btree.nodeSize -
        (getRecordOffset btree.toControlBlock node (numRecords node) + 2 * numRecords node + 2) := by
      rw [getNodeFreeSize]
      exact word16Sub_eq (by simp only [buffer]; omega) (by omega)
    rw [hfreeSize]
    omega
  · have hkey := word16_lt (padded (word16 (calcKeySize btree.toControlBlock
      (keyLengthAt btree.toControlBlock node (getRecordOffset btree.toControlBlock node i)))))
    rw [← keySizeAt] at hkey
    have hends := hbelow i hi
    have hlength : lengthSize btree.toControlBlock ≤ 2 := by
      rw [lengthSize]
      split
      · exact Nat.le_refl 2
      · exact Nat.le_succ 1
    have hextent := hrecordSize i hi
    refine ⟨_, _, getRecordByIndex_eq hi, by omega, ?_⟩
    rw [word16, word16Sub]
    constructor
    · intro hle
      rw [Nat.mod_eq_of_lt (by omega)]
      omega
    · rintro ⟨hbehind, hend⟩
      by_cases hwrap : getRecordOffset btree.toControlBlock node i +
          keySizeAt btree.toControlBlock node i < 2 ^ 16
      · rw [Nat.mod_eq_of_lt hwrap] at hend
        omega
      · omega

/-- A node of 512 bytes with the offsets 14 and 16, and a key of 101 bytes in its one record. -/
def longKeyNode : Memory :=
  (((Memory.storeWord (fun _ => 0) 10 1).storeWord 510 14).storeWord 508 16).store 14 [101]

def oneNodeTree : Tree := ⟨⟨512, false, false, 37⟩, 1, 0, 1, 512⟩

/-- Two records, of four and of six bytes. -/
def twoRecordNode : Memory :=
  ((((Memory.storeWord (fun _ => 0) 10 2).storeWord 510 14).storeWord 508 18).storeWord 506 24).store 14
    [1, 3, 7, 7, 3, 4, 5, 6, 8, 8]

theorem checkNode_ordered_two : checkNode oneNodeTree twoRecordNode = true ∧
    numRecords twoRecordNode = 2 ∧ Ordered oneNodeTree.toControlBlock twoRecordNode :=
  ⟨by decide +kernel, by decide +kernel,
    checkNode_ordered oneNodeTree twoRecordNode (by decide) (by decide +kernel)⟩

/-- The data of the record with the long key is said to begin at 116, behind the end of the record, and to have 65436
bytes. -/
theorem long_key_escapes : oneNodeTree.nodeSize ∈ nodeSizes ∧
    checkNode oneNodeTree longKeyNode = true ∧ 0 < numRecords longKeyNode ∧
    getRecordByIndex oneNodeTree.toControlBlock (buffer longKeyNode) 0 = some (14, 116, 65436) ∧
    oneNodeTree.nodeSize < 116 + 65436 := by
  refine ⟨by decide, by decide +kernel, by decide +kernel, by decide +kernel, by decide⟩

end Darwin.Hfs.NodeBytes
