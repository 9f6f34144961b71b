import Darwin.Hfs.BTreeAllocate
import Darwin.Lib.BitWords
import Darwin.Lib.Memory

/-! # The bytes of a B-tree node

The functions of `BTreeNodeOps.c` that insert and delete a record. A node is the memory that it
lies in: its records come one behind the other after the node descriptor, and their offsets stand
at the end of the node, the first one last. The size of a node is at most 2 ^ 15, so that an offset
is the same as a signed and as an unsigned number.
-/
namespace Darwin.Hfs.NodeBytes
open Darwin.Lib List
open Darwin.Hfs.BTreeAllocate (NodeType)

/-- A 16-bit number. -/
def word16 (x : ℕ) : ℕ := x % 2 ^ 16

def word16Sub (a b : ℕ) : ℕ := (a + 2 ^ 16 - b % 2 ^ 16) % 2 ^ 16

/-- The fields of `BTreeControlBlock` that the functions here read. -/
structure ControlBlock where
  nodeSize : ℕ
  bigKeys : Bool
  variableIndexKeys : Bool
  maxKeyLength : ℕ
  deriving DecidableEq, Repr

/-- A node in memory, with the fields of its descriptor. -/
structure NodeBuffer where
  fLink : ℕ
  bLink : ℕ
  type : NodeType
  numRecords : ℕ
  bytes : Memory

/-- `sizeof (BTNodeDescriptor)` -/
def descriptorSize : ℕ := 14

/-- `M_IsOdd (size)` adds a pad byte. -/
def padded (size : ℕ) : ℕ := size + size % 2

/-- The size of the length field of a key. -/
def lengthSize (btree : ControlBlock) : ℕ := if btree.bigKeys then 2 else 1

/-- `CalcKeySize` of a key with this length. -/
def calcKeySize (btree : ControlBlock) (keyLength : ℕ) : ℕ := keyLength + lengthSize btree

/-! ## Offsets -/

/-- `GetOffsetAddress` -/
def getOffsetAddress (btree : ControlBlock) (index : ℕ) : ℕ := btree.nodeSize - 2 * index - 2

def getRecordOffset (btree : ControlBlock) (bytes : Memory) (index : ℕ) : ℕ :=
  bytes.word (getOffsetAddress btree index)

def getRecordSize (btree : ControlBlock) (bytes : Memory) (index : ℕ) : ℕ :=
  word16Sub (getRecordOffset btree bytes (index + 1)) (getRecordOffset btree bytes index)

def getNodeFreeSize (btree : ControlBlock) (node : NodeBuffer) : ℕ :=
  word16Sub btree.nodeSize
    (getRecordOffset btree node.bytes node.numRecords + 2 * node.numRecords + 2)

/-- The body of the loop of `InsertOffset`, for the offset `index`. -/
def moveOffset (btree : ControlBlock) (delta : ℕ) (bytes : Memory) (index : ℕ) : Memory :=
  bytes.storeWord (getOffsetAddress btree (index + 1))
    (word16 (getRecordOffset btree bytes index + delta))

/-- The loop of `InsertOffset`; it runs once more than `numOffsets` says. -/
def insertOffsets (btree : ControlBlock) (delta : ℕ) : ℕ → ℕ → Memory → Memory
  | 0, index, bytes => moveOffset btree delta bytes index
  | numOffsets + 1, index, bytes =>
    insertOffsets btree delta numOffsets (index - 1) (moveOffset btree delta bytes index)

def insertOffset (btree : ControlBlock) (node : NodeBuffer) (index delta : ℕ) : NodeBuffer :=
  { node with
    numRecords := node.numRecords + 1
    bytes := insertOffsets btree delta (node.numRecords - index) node.numRecords node.bytes }

/-- The loop of `DeleteOffset`: the offset `index` becomes the one behind it. -/
def deleteOffsets (btree : ControlBlock) (delta : ℕ) : ℕ → ℕ → Memory → Memory
  | 0, _, bytes => bytes
  | numOffsets + 1, index, bytes =>
    deleteOffsets btree delta numOffsets (index + 1)
      (bytes.storeWord (getOffsetAddress btree index)
        (word16Sub (getRecordOffset btree bytes (index + 1)) delta))

def deleteOffset (btree : ControlBlock) (node : NodeBuffer) (index : ℕ) : NodeBuffer :=
  { node with
    numRecords := node.numRecords - 1
    bytes := deleteOffsets btree (getRecordSize btree node.bytes index)
      (node.numRecords - 1 - index) (index + 1) node.bytes }

/-! ## Records -/

/-- Make a hole for a new record and adjust the offsets for the records that have moved. -/
def makeHole (btree : ControlBlock) (node : NodeBuffer) (index size : ℕ) : NodeBuffer :=
  let indexOffset := getRecordOffset btree node.bytes index
  let freeOffset := getRecordOffset btree node.bytes node.numRecords
  insertOffset btree
    { node with
      bytes := node.bytes.move indexOffset (indexOffset + size) (word16Sub freeOffset indexOffset) }
    index (word16 size)

def insertRecord (btree : ControlBlock) (node : NodeBuffer) (index : ℕ) (record : List UInt8) :
    Bool × NodeBuffer :=
  if getNodeFreeSize btree node < record.length + 2 then (false, node)
  else
    let hole := makeHole btree node index record.length
    (true, { hole with
      bytes := hole.bytes.store (getRecordOffset btree node.bytes index) record })

/-- The bytes of a key behind its length field, as many as `keyPtr->length` says. -/
abbrev Key := List UInt8

/-- The length field of a key. -/
def lengthField (btree : ControlBlock) (keyLength : ℕ) : List UInt8 :=
  if btree.bigKeys then Memory.wordBytes keyLength else [UInt8.ofNat keyLength]

/-- The key of `InsertKeyRecord`. The pad bytes that it clears are counted from behind the length
field, though the size of the key includes that field. -/
def copyKey (btree : ControlBlock) (bytes : Memory) (offset : ℕ) (key : Key)
    (keyLength keySize : ℕ) : Memory :=
  let dst := offset + lengthSize btree
  ((bytes.store offset (lengthField btree keyLength)).store dst key).clear (dst + key.length)
    (word16Sub keySize key.length)

def insertKeyRecord (btree : ControlBlock) (node : NodeBuffer) (index : ℕ) (key : Key)
    (keyLength : ℕ) (data : List UInt8) : Bool × NodeBuffer :=
  let keySize := word16 (padded (word16 (calcKeySize btree keyLength)))
  if getNodeFreeSize btree node < keySize + data.length + 2 then (false, node)
  else
    let offset := getRecordOffset btree node.bytes index
    let hole := makeHole btree node index (keySize + data.length)
    (true, { hole with
      bytes := (copyKey btree hole.bytes offset key keyLength keySize).store (offset + keySize) data })

def deleteRecord (btree : ControlBlock) (node : NodeBuffer) (index : ℕ) : NodeBuffer :=
  let indexOffset := getRecordOffset btree node.bytes index
  let nextOffset := getRecordOffset btree node.bytes (index + 1)
  let freeOffset := getRecordOffset btree node.bytes node.numRecords
  deleteOffset btree
    { node with bytes := node.bytes.move nextOffset indexOffset (word16Sub freeOffset nextOffset) } index

/-- The length of the key at an offset. -/
def keyLengthAt (btree : ControlBlock) (bytes : Memory) (offset : ℕ) : ℕ :=
  if btree.bigKeys then bytes.word offset else (bytes offset).toNat

/-- What `GetRecordByIndex` returns: the offsets of the key and of the data, and the size of the
data; `none` is `fsBTRecordNotFoundErr`. -/
def getRecordByIndex (btree : ControlBlock) (node : NodeBuffer) (index : ℕ) : Option (ℕ × ℕ × ℕ) :=
  if node.numRecords ≤ index then none
  else
    let offset := getRecordOffset btree node.bytes index
    let keySize := word16 (padded (word16 (calcKeySize btree (keyLengthAt btree node.bytes offset))))
    let dataOffset := word16 (offset + keySize)
    some (offset, dataOffset,
      word16Sub (getRecordOffset btree node.bytes (index + 1)) dataOffset)

/-! ## Well-formed nodes -/

/-- Where a record starts, in a node that holds these records. -/
def start (records : List (List UInt8)) (index : ℕ) : ℕ :=
  descriptorSize + (records.take index).flatten.length

/-- The node is well formed, and its records are these. -/
structure Holds (btree : ControlBlock) (node : NodeBuffer) (records : List (List UInt8)) : Prop where
  count : node.numRecords = records.length
  offsets : ∀ index ≤ records.length, getRecordOffset btree node.bytes index = start records index
  contents : node.bytes.At descriptorSize records.flatten
  fits : descriptorSize + records.flatten.length + 2 * (records.length + 1) ≤ btree.nodeSize
  size : btree.nodeSize ≤ 2 ^ 15

/-- A record of `size` bytes fits into the node besides these, with its offset. -/
def Room (btree : ControlBlock) (records : List (List UInt8)) (size : ℕ) : Prop :=
  descriptorSize + records.flatten.length + size + 2 * (records.length + 2) ≤ btree.nodeSize

instance (btree : ControlBlock) (records : List (List UInt8)) (size : ℕ) :
    Decidable (Room btree records size) := inferInstanceAs (Decidable (_ ≤ _))

section offsets
variable {btree : ControlBlock} {bytes bytes' : Memory} {index i j n delta w : ℕ}

theorem word16_eq {x : ℕ} (h : x < 2 ^ 16) : word16 x = x := Nat.mod_eq_of_lt h

theorem word16Sub_eq {a b : ℕ} (h : b ≤ a) (ha : a < 2 ^ 16) : word16Sub a b = a - b := by
  rw [word16Sub]
  omega

theorem getRecordOffset_storeWord (hi : 2 * i + 2 ≤ btree.nodeSize) (hj : 2 * j + 2 ≤ btree.nodeSize)
    (hw : w < 2 ^ 16) :
    getRecordOffset btree (bytes.storeWord (getOffsetAddress btree j) w) i =
      if i = j then w else getRecordOffset btree bytes i := by
  by_cases heq : i = j
  · subst heq
    rw [if_pos rfl]
    exact Memory.word_storeWord hw
  · rw [if_neg heq]
    refine Memory.word_congr (Memory.agree_storeWord ?_)
    simp only [getOffsetAddress]
    omega

theorem getRecordOffset_congr {b : ℕ} (h : Memory.Agree bytes bytes' b btree.nodeSize)
    (hb : b + 2 * i + 2 ≤ btree.nodeSize) :
    getRecordOffset btree bytes i = getRecordOffset btree bytes' i := by
  refine Memory.word_congr (h.mono ?_ ?_)
  · rw [getOffsetAddress]
    omega
  · rw [getOffsetAddress]
    omega

theorem word16_lt (x : ℕ) : word16 x < 2 ^ 16 := Nat.mod_lt _ (by decide)

theorem word16Sub_lt (a b : ℕ) : word16Sub a b < 2 ^ 16 := Nat.mod_lt _ (by decide)

theorem agree_storeWord {w b : ℕ} (hb : b ≤ getOffsetAddress btree j) :
    Memory.Agree (bytes.storeWord (getOffsetAddress btree j) w) bytes 0 b :=
  Memory.agree_storeWord (.inl hb)

/-- The loop moves the offsets from `index - numOffsets` to `index` up by one place; nothing in
front of the new offset changes. -/
theorem insertOffsets_spec (btree : ControlBlock) (delta numOffsets index : ℕ) (bytes : Memory) (hn : numOffsets ≤ index)
    (hindex : 2 * index + 4 ≤ btree.nodeSize) :
    (∀ i, 2 * i + 2 ≤ btree.nodeSize →
      getRecordOffset btree (insertOffsets btree delta numOffsets index bytes) i =
        if index - numOffsets < i ∧ i ≤ index + 1 then
          word16 (getRecordOffset btree bytes (i - 1) + delta)
        else getRecordOffset btree bytes i) ∧
      Memory.Agree (insertOffsets btree delta numOffsets index bytes) bytes 0
        (btree.nodeSize - 2 * index - 4) := by
  induction numOffsets generalizing index bytes with
  | zero =>
    refine ⟨fun i hi => ?_, agree_storeWord ?_⟩
    · rw [insertOffsets, moveOffset, getRecordOffset_storeWord hi (by omega) (word16_lt _)]
      by_cases h : i = index + 1
      · rw [if_pos h, if_pos (by omega), h, Nat.add_sub_cancel]
      · rw [if_neg h, if_neg (by omega)]
    · rw [getOffsetAddress]
      omega
  | succ numOffsets ih =>
    obtain ⟨hoffsets, hagree⟩ := ih (index - 1) (moveOffset btree delta bytes index)
      (by omega) (by omega)
    have hmove : ∀ k, 2 * k + 2 ≤ btree.nodeSize → k ≠ index + 1 →
        getRecordOffset btree (moveOffset btree delta bytes index) k = getRecordOffset btree bytes k := by
      intro k hk hne
      rw [moveOffset, getRecordOffset_storeWord hk (by omega) (word16_lt _), if_neg hne]
    refine ⟨fun i hi => ?_, ?_⟩
    · rw [insertOffsets, hoffsets i hi]
      by_cases hlast : i = index + 1
      · rw [if_neg (by omega), if_pos (by omega), moveOffset,
          getRecordOffset_storeWord hi (by omega) (word16_lt _), if_pos hlast, hlast, Nat.add_sub_cancel]
      · by_cases hmid : index - 1 - numOffsets < i ∧ i ≤ index - 1 + 1
        · rw [if_pos hmid, if_pos (by omega), hmove _ (by omega) (by omega)]
        · rw [if_neg hmid, if_neg (by omega), hmove i hi hlast]
    · refine (hagree.mono (Nat.le_refl 0) (by omega)).trans (agree_storeWord ?_)
      rw [getOffsetAddress]
      omega

theorem deleteOffsets_spec (btree : ControlBlock) (delta numOffsets index : ℕ) (bytes : Memory) (hindex : 2 * (index + numOffsets) + 2 ≤ btree.nodeSize) :
    (∀ i, 2 * i + 2 ≤ btree.nodeSize →
      getRecordOffset btree (deleteOffsets btree delta numOffsets index bytes) i =
        if index ≤ i ∧ i < index + numOffsets then
          word16Sub (getRecordOffset btree bytes (i + 1)) delta
        else getRecordOffset btree bytes i) ∧
      Memory.Agree (deleteOffsets btree delta numOffsets index bytes) bytes 0
        (btree.nodeSize - 2 * (index + numOffsets) - 2) := by
  induction numOffsets generalizing index bytes with
  | zero =>
    refine ⟨fun i hi => ?_, .refl _ _ _⟩
    rw [deleteOffsets, if_neg (by omega)]
  | succ numOffsets ih =>
    have hstore : ∀ k, 2 * k + 2 ≤ btree.nodeSize →
        getRecordOffset btree (bytes.storeWord (getOffsetAddress btree index)
          (word16Sub (getRecordOffset btree bytes (index + 1)) delta)) k =
          if k = index then word16Sub (getRecordOffset btree bytes (index + 1)) delta
          else getRecordOffset btree bytes k :=
      fun k hk => getRecordOffset_storeWord hk (by omega) (word16Sub_lt _ _)
    obtain ⟨hoffsets, hagree⟩ := ih (index + 1) (bytes.storeWord
      (getOffsetAddress btree index) (word16Sub (getRecordOffset btree bytes (index + 1)) delta))
      (by omega)
    refine ⟨fun i hi => ?_, ?_⟩
    · rw [deleteOffsets, hoffsets i hi]
      by_cases hfirst : i = index
      · rw [if_neg (by omega), if_pos (by omega), hstore i hi, if_pos hfirst, hfirst]
      · by_cases hmid : index + 1 ≤ i ∧ i < index + 1 + numOffsets
        · rw [if_pos hmid, if_pos (by omega), hstore _ (by omega), if_neg (by omega)]
        · rw [if_neg hmid, if_neg (by omega), hstore i hi, if_neg hfirst]
    · refine (hagree.mono (Nat.le_refl 0) (by omega)).trans (agree_storeWord ?_)
      rw [getOffsetAddress]
      omega

end offsets

/-- A node as `GetNewNode` leaves it, with its type and links filled in. -/
def newNode (btree : ControlBlock) (type : NodeType) (fLink bLink : ℕ) : NodeBuffer :=
  ⟨fLink, bLink, type, 0, Memory.storeWord (fun _ => 0) (getOffsetAddress btree 0) descriptorSize⟩

theorem newNode_holds {btree : ControlBlock} (type : NodeType) (fLink bLink : ℕ)
    (hmin : 16 ≤ btree.nodeSize) (hmax : btree.nodeSize ≤ 2 ^ 15) :
    Holds btree (newNode btree type fLink bLink) [] := by
  refine ⟨rfl, fun index hi => ?_, Memory.at_nil, hmin, hmax⟩
  obtain rfl : index = 0 := Nat.le_zero.mp hi
  exact Memory.word_storeWord (by decide)

/-! ## Inserting -/

section insert
variable {btree : ControlBlock} {node : NodeBuffer} {records front back : List (List UInt8)}
  {record data : List UInt8} {key : Key} {index i size keyLength : ℕ}

theorem start_front (hi : i ≤ front.length) : start (front ++ back) i = start front i := by
  rw [start, start, take_append_of_le_length hi]

theorem start_length : start records records.length = descriptorSize + records.flatten.length := by
  rw [start, take_length]

theorem start_behind (hi : front.length < i) :
    start (front ++ record :: back) i = start (front ++ back) (i - 1) + record.length := by
  obtain ⟨k, rfl⟩ : ∃ k, i = front.length + k + 1 := ⟨i - front.length - 1, by omega⟩
  have htake : (front ++ record :: back).take (front.length + k + 1) =
      front ++ record :: back.take k := by
    rw [Nat.add_assoc, take_length_add_append, take_succ_cons]
  rw [start, start, htake, Nat.add_sub_cancel, take_length_add_append]
  simp only [flatten_append, flatten_cons, length_append]
  omega

theorem Holds.getNodeFreeSize (h : Holds btree node records) : getNodeFreeSize btree node =
    btree.nodeSize - (descriptorSize + records.flatten.length + 2 * (records.length + 1)) := by
  have hfits := h.fits
  have hsize := h.size
  rw [NodeBytes.getNodeFreeSize, h.count, h.offsets _ (Nat.le_refl _), start_length,
    word16Sub_eq (by omega) (by omega)]
  omega

theorem start_succ (hi : index < records.length) :
    start records (index + 1) = start records index + (records[index]).length := by
  rw [start, start, take_add_one, List.getElem?_eq_getElem hi, flatten_append,
    length_append, ← Nat.add_assoc]
  simp

theorem start_le (index : ℕ) (records : List (List UInt8)) :
    start records index ≤ descriptorSize + records.flatten.length := by
  have hlen := congrArg (fun l => l.flatten.length) (take_append_drop index records)
  simp only [flatten_append, length_append] at hlen
  rw [start]
  omega

theorem Holds.getRecordSize (h : Holds btree node records) (hi : index < records.length) :
    getRecordSize btree node.bytes index = (records[index]).length := by
  have hnext := start_succ hi
  have hle := start_le (index + 1) records
  have hfits := h.fits
  have hsize := h.size
  rw [NodeBytes.getRecordSize, h.offsets (index + 1) hi, h.offsets _ (Nat.le_of_lt hi),
    word16Sub_eq (by omega) (by omega)]
  omega

/-- What `makeHole` leaves for a record of `size` bytes. -/
structure Hole (btree : ControlBlock) (hole : NodeBuffer) (front back : List (List UInt8))
    (size : ℕ) : Prop where
  count : hole.numRecords = front.length + back.length + 1
  offsets : ∀ i ≤ front.length + back.length + 1, getRecordOffset btree hole.bytes i =
    if i ≤ front.length then start (front ++ back) i else start (front ++ back) (i - 1) + size
  before : hole.bytes.At descriptorSize front.flatten
  behind : hole.bytes.At (descriptorSize + front.flatten.length + size) back.flatten

theorem Holds.makeHole (h : Holds btree node (front ++ back))
    (hroom : Room btree (front ++ back) size) :
    Hole btree (makeHole btree node front.length size) front back size := by
  have hfits : descriptorSize + (front ++ back).flatten.length + size +
      2 * ((front ++ back).length + 2) ≤ btree.nodeSize := hroom
  have hsize := h.size
  have hcount := h.count
  have hflat : (front ++ back).flatten.length = front.flatten.length + back.flatten.length := by simp
  have hlen : (front ++ back).length = front.length + back.length := by simp
  have hindex : getRecordOffset btree node.bytes front.length = descriptorSize + front.flatten.length := by
    rw [h.offsets _ (by omega), start_front (Nat.le_refl _), start_length]
  have hfree : getRecordOffset btree node.bytes node.numRecords =
      descriptorSize + (front ++ back).flatten.length := by
    rw [hcount, h.offsets _ (Nat.le_refl _), start_length]
  obtain ⟨hfront, hmoved⟩ := Memory.at_append.mp (flatten_append ▸ h.contents)
  -- the records behind the hole are moved first, and then the offsets
  have hspec := insertOffsets_spec btree (word16 size) back.length
    (front.length + back.length) (node.bytes.move (descriptorSize + front.flatten.length)
      (descriptorSize + front.flatten.length + size) back.flatten.length) (by omega) (by omega)
  obtain ⟨hoffsets, hagree⟩ := hspec
  have hmakes : NodeBytes.makeHole btree node front.length size = { node with
      numRecords := front.length + back.length + 1
      bytes := insertOffsets btree (word16 size) back.length (front.length + back.length)
        (node.bytes.move (descriptorSize + front.flatten.length)
          (descriptorSize + front.flatten.length + size) back.flatten.length) } := by
    rw [NodeBytes.makeHole, hindex, hfree, word16Sub_eq (by omega) (by omega), insertOffset, hcount, hlen,
      hflat]
    simp only [Nat.add_sub_cancel_left]
    rw [show descriptorSize + (front.flatten.length + back.flatten.length) -
      (descriptorSize + front.flatten.length) = back.flatten.length by omega]
  rw [hmakes]
  have hkeep : ∀ j ≤ front.length + back.length, getRecordOffset btree
      (node.bytes.move (descriptorSize + front.flatten.length)
        (descriptorSize + front.flatten.length + size) back.flatten.length) j =
      start (front ++ back) j := by
    intro j hj
    rw [← h.offsets j (by omega)]
    refine getRecordOffset_congr (b := btree.nodeSize - 2 * (front.length + back.length) - 2)
      (Memory.agree_move (.inr (by omega))) (by omega)
  refine ⟨rfl, fun i hi => ?_, ?_, ?_⟩
  · rw [hoffsets i (by omega)]
    by_cases hle : i ≤ front.length
    · rw [if_pos hle, if_neg (by omega), hkeep i (by omega)]
    · have hstart := start_le (i - 1) (front ++ back)
      rw [if_neg hle, if_pos (by omega), hkeep _ (by omega), word16_eq (x := size) (by omega),
        word16_eq (by omega)]
  · refine hfront.congr ((hagree.mono (Nat.zero_le _) (by omega)).trans (Memory.agree_move (.inl ?_)))
    omega
  · refine (hmoved.move (descriptorSize + front.flatten.length + size)).congr
      (hagree.mono (Nat.zero_le _) ?_)
    omega

theorem Hole.fill {hole : NodeBuffer} (h : Hole btree hole front back record.length)
    (hroom : Room btree (front ++ back) record.length) (hsize : btree.nodeSize ≤ 2 ^ 15)
    {bytes : Memory} (hrecord : bytes.At (descriptorSize + front.flatten.length) record)
    (hbefore : Memory.Agree bytes hole.bytes 0 (descriptorSize + front.flatten.length))
    (hbehind : Memory.Agree bytes hole.bytes
      (descriptorSize + front.flatten.length + record.length) btree.nodeSize) :
    Holds btree { hole with bytes := bytes } (front ++ record :: back) := by
  have hfits : descriptorSize + (front ++ back).flatten.length + record.length +
      2 * ((front ++ back).length + 2) ≤ btree.nodeSize := hroom
  have hflat : (front ++ back).flatten.length = front.flatten.length + back.flatten.length := by simp
  have hlen : (front ++ back).length = front.length + back.length := by simp
  have hflat' : (front ++ record :: back).flatten = front.flatten ++ (record ++ back.flatten) := by simp
  have hlen' : (front ++ record :: back).length = front.length + back.length + 1 := by
    rw [length_append, length_cons, Nat.add_assoc]
  refine ⟨?_, fun i hi => ?_, ?_, ?_, hsize⟩
  · rw [hlen']
    exact h.count
  · rw [hlen'] at hi
    have hoffset : getRecordOffset btree bytes i = getRecordOffset btree hole.bytes i :=
      getRecordOffset_congr hbehind (by omega)
    rw [hoffset, h.offsets i hi]
    by_cases hle : i ≤ front.length
    · rw [if_pos hle, start_front hle, start_front hle]
    · rw [if_neg hle, start_behind (by omega)]
  · rw [hflat', Memory.at_append, Memory.at_append]
    refine ⟨h.before.congr (hbefore.mono (Nat.zero_le _) (Nat.le_refl _)), hrecord,
      h.behind.congr (hbehind.mono (Nat.le_refl _) (by omega))⟩
  · rw [hflat', hlen']
    simp only [length_append]
    omega

theorem Holds.offset_front (h : Holds btree node (front ++ back)) :
    getRecordOffset btree node.bytes front.length = descriptorSize + front.flatten.length := by
  rw [h.offsets _ (by simp), start_front (Nat.le_refl _), start_length]

theorem Holds.free_lt_iff (h : Holds btree node records) :
    NodeBytes.getNodeFreeSize btree node < size + 2 ↔ ¬ Room btree records size := by
  have hfits := h.fits
  rw [h.getNodeFreeSize, Room]
  omega

theorem Holds.insertRecord (h : Holds btree node (front ++ back)) (record : List UInt8) :
    (insertRecord btree node front.length record).1 = decide (Room btree (front ++ back) record.length) ∧
      Holds btree (insertRecord btree node front.length record).2
        (if Room btree (front ++ back) record.length then front ++ record :: back
          else front ++ back) := by
  by_cases hroom : Room btree (front ++ back) record.length
  · have hhole := h.makeHole hroom
    rw [NodeBytes.insertRecord, if_neg (not_not.mpr hroom ∘ h.free_lt_iff.mp), h.offset_front,
      if_pos hroom]
    refine ⟨(decide_eq_true hroom).symm, ?_⟩
    exact hhole.fill hroom h.size Memory.at_store (Memory.agree_store (.inl (Nat.le_refl _)))
      (Memory.agree_store (.inr (Nat.le_refl _)))
  · rw [NodeBytes.insertRecord, if_pos (h.free_lt_iff.mpr hroom), if_neg hroom]
    exact ⟨(decide_eq_false hroom).symm, h⟩

/-- The record that `InsertKeyRecord` stores: the length field, the key, pad bytes and the data. -/
def keyRecord (btree : ControlBlock) (key : Key) (keyLength : ℕ) (data : List UInt8) : List UInt8 :=
  lengthField btree keyLength ++ key ++
    List.replicate (padded (calcKeySize btree keyLength) - lengthSize btree - key.length) 0 ++ data

theorem lengthField_length : (lengthField btree keyLength).length = lengthSize btree := by
  cases hb : btree.bigKeys <;> simp [lengthField, lengthSize, hb, Memory.wordBytes]

theorem keyRecord_length (btree : ControlBlock) (data : List UInt8) (hkey : key.length ≤ keyLength) : (keyRecord btree key keyLength data).length =
    padded (calcKeySize btree keyLength) + data.length := by
  simp only [keyRecord, length_append, lengthField_length, length_replicate, padded, calcKeySize]
  omega

/-- The key and the data as `InsertKeyRecord` stores them. -/
def copyRecord (btree : ControlBlock) (bytes : Memory) (offset : ℕ) (key : Key) (keyLength : ℕ)
    (data : List UInt8) : Memory :=
  (copyKey btree bytes offset key keyLength (padded (calcKeySize btree keyLength))).store
    (offset + padded (calcKeySize btree keyLength)) data

section copy
variable {bytes : Memory} {offset b : ℕ}

theorem copyRecord_at (hkey : key.length ≤ keyLength)
    (hsize : padded (calcKeySize btree keyLength) < 2 ^ 16) :
    (copyRecord btree bytes offset key keyLength data).At offset (keyRecord btree key keyLength data) := by
  have hpad : lengthSize btree + keyLength ≤ padded (calcKeySize btree keyLength) := by
    rw [padded, calcKeySize]
    omega
  have hlf : (lengthField btree keyLength).length = lengthSize btree := lengthField_length
  have hclear : word16Sub (padded (calcKeySize btree keyLength)) key.length =
      padded (calcKeySize btree keyLength) - key.length := word16Sub_eq (by omega) hsize
  rw [keyRecord, Memory.at_append, Memory.at_append, Memory.at_append]
  simp only [length_append, length_replicate, hlf]
  rw [copyRecord, copyKey, hclear]
  refine ⟨⟨⟨?_, ?_⟩, ?_⟩, ?_⟩
  · refine (Memory.at_store (m := bytes)).congr ?_
    rw [hlf]
    refine (Memory.agree_store (.inl (by omega))).trans ?_
    exact (Memory.agree_clear (.inl (by omega))).trans (Memory.agree_store (.inl (by omega)))
  · refine (Memory.at_store (m := bytes.store offset (lengthField btree keyLength))).congr ?_
    exact (Memory.agree_store (.inl (by omega))).trans (Memory.agree_clear (.inl (by omega)))
  · rw [← Nat.add_assoc]
    refine (Memory.at_clear (m := (bytes.store offset (lengthField btree keyLength)).store
      (offset + lengthSize btree) key) (n := padded (calcKeySize btree keyLength) - key.length)
      (by omega)).congr ?_
    rw [length_replicate]
    exact Memory.agree_store (.inl (by omega))
  · rw [show offset + (lengthSize btree + key.length +
      (padded (calcKeySize btree keyLength) - lengthSize btree - key.length)) =
      offset + padded (calcKeySize btree keyLength) by omega]
    exact Memory.at_store

theorem copyRecord_before : Memory.Agree (copyRecord btree bytes offset key keyLength data) bytes 0 offset := by
  rw [copyRecord, copyKey]
  refine (Memory.agree_store (.inl (by omega))).trans ((Memory.agree_clear (.inl (by omega))).trans ?_)
  exact (Memory.agree_store (.inl (by omega))).trans (Memory.agree_store (.inl (Nat.le_refl _)))

theorem copyRecord_behind (bytes : Memory) (offset b : ℕ) (data : List UInt8) (hkey : key.length ≤ keyLength)
    (hsize : padded (calcKeySize btree keyLength) < 2 ^ 16) :
    Memory.Agree (copyRecord btree bytes offset key keyLength data)
      (bytes.clear (offset + (padded (calcKeySize btree keyLength) + data.length))
        (lengthSize btree - data.length))
      (offset + (padded (calcKeySize btree keyLength) + data.length)) b := by
  have hpad : lengthSize btree + keyLength ≤ padded (calcKeySize btree keyLength) := by
    rw [padded, calcKeySize]
    omega
  have hlf : (lengthField btree keyLength).length = lengthSize btree := lengthField_length
  intro x hx _
  rw [copyRecord, copyKey, word16Sub_eq (by omega) hsize, Memory.store, if_neg (by omega), Memory.clear,
    Memory.clear]
  by_cases hspill : x < offset + (padded (calcKeySize btree keyLength) + data.length) +
      (lengthSize btree - data.length)
  · rw [if_pos (by omega), if_pos (by omega)]
  · rw [if_neg (by omega), if_neg (by omega), Memory.store, if_neg (by omega), Memory.store,
      if_neg (by omega)]

end copy

theorem keySize_eq (hsize : padded (calcKeySize btree keyLength) < 2 ^ 16) :
    word16 (padded (word16 (calcKeySize btree keyLength))) = padded (calcKeySize btree keyLength) := by
  rw [word16_eq (x := calcKeySize btree keyLength), word16_eq hsize]
  rw [padded] at hsize
  omega

/-- The records behind the new one, with the bytes cleared that the pad bytes reach. -/
def clearSpill (btree : ControlBlock) (data : List UInt8) (hole : NodeBuffer) (offset : ℕ) : NodeBuffer :=
  { hole with bytes := hole.bytes.clear offset (lengthSize btree - data.length) }

theorem Holds.insertKeyRecord_room (h : Holds btree node (front ++ back)) (hkey : key.length ≤ keyLength)
    (hsize : padded (calcKeySize btree keyLength) < 2 ^ 16) (back' : List (List UInt8))
    (hroom : Room btree (front ++ back) (keyRecord btree key keyLength data).length)
    (hroom' : Room btree (front ++ back') (keyRecord btree key keyLength data).length)
    (hhole : Hole btree (clearSpill btree data
        (NodeBytes.makeHole btree node front.length (keyRecord btree key keyLength data).length)
        (descriptorSize + front.flatten.length + (keyRecord btree key keyLength data).length))
      front back' (keyRecord btree key keyLength data).length) :
    (insertKeyRecord btree node front.length key keyLength data).1 = true ∧
      Holds btree (insertKeyRecord btree node front.length key keyLength data).2
        (front ++ keyRecord btree key keyLength data :: back') := by
  have hlen := keyRecord_length btree data hkey
  rw [NodeBytes.insertKeyRecord, keySize_eq hsize, ← hlen, if_neg (not_not.mpr hroom ∘ h.free_lt_iff.mp),
    h.offset_front]
  refine ⟨rfl, hhole.fill hroom' h.size (copyRecord_at hkey hsize) ?_ ?_⟩
  · exact copyRecord_before.trans (Memory.agree_clear (.inl (Nat.le_add_right _ _))).symm
  · rw [hlen]
    exact copyRecord_behind _ _ _ _ hkey hsize

theorem Holds.insertKeyRecord_full (h : Holds btree node (front ++ back)) (hkey : key.length ≤ keyLength)
    (hsize : padded (calcKeySize btree keyLength) < 2 ^ 16)
    (hroom : ¬ Room btree (front ++ back) (keyRecord btree key keyLength data).length) :
    insertKeyRecord btree node front.length key keyLength data = (false, node) := by
  rw [NodeBytes.insertKeyRecord, keySize_eq hsize, ← keyRecord_length btree data hkey,
    if_pos (h.free_lt_iff.mpr hroom)]

/-- With data that is at least as long as a length field the record fits in, and nothing else
changes; or there is no room. -/
theorem Holds.insertKeyRecord (h : Holds btree node (front ++ back)) (hkey : key.length ≤ keyLength)
    (hsize : padded (calcKeySize btree keyLength) < 2 ^ 16) (hdata : lengthSize btree ≤ data.length) :
    (insertKeyRecord btree node front.length key keyLength data).1 =
        decide (Room btree (front ++ back) (keyRecord btree key keyLength data).length) ∧
      Holds btree (insertKeyRecord btree node front.length key keyLength data).2
        (if Room btree (front ++ back) (keyRecord btree key keyLength data).length then
          front ++ keyRecord btree key keyLength data :: back else front ++ back) := by
  by_cases hroom : Room btree (front ++ back) (keyRecord btree key keyLength data).length
  · have hhole := h.makeHole hroom
    rw [if_pos hroom, decide_eq_true hroom]
    refine h.insertKeyRecord_room hkey hsize back hroom hroom ?_
    rw [clearSpill, Nat.sub_eq_zero_of_le hdata, Memory.clear_zero]
    exact hhole
  · rw [h.insertKeyRecord_full hkey hsize hroom, if_neg hroom]
    exact ⟨(decide_eq_false hroom).symm, h⟩

/-- The first bytes of a record are cleared. -/
def clearHead (k : ℕ) (record : List UInt8) : List UInt8 := List.replicate k 0 ++ record.drop k

theorem clearHead_length {k : ℕ} (hk : k ≤ record.length) : (clearHead k record).length = record.length := by
  rw [clearHead, length_append, length_replicate, length_drop]
  omega

theorem Hole.spill {hole : NodeBuffer} {next : List UInt8} {k : ℕ}
    (h : Hole btree hole front (next :: back) size) (hk : k ≤ next.length)
    (hroom : Room btree (front ++ next :: back) size) :
    Hole btree { hole with
        bytes := hole.bytes.clear (descriptorSize + front.flatten.length + size) k }
      front (clearHead k next :: back) size := by
  have hfits : descriptorSize + (front ++ next :: back).flatten.length + size +
      2 * ((front ++ next :: back).length + 2) ≤ btree.nodeSize := hroom
  simp only [flatten_append, flatten_cons, length_append, length_cons] at hfits
  have hlen := clearHead_length hk
  have hstart : ∀ i, start (front ++ clearHead k next :: back) i = start (front ++ next :: back) i := by
    intro i
    by_cases hle : i ≤ front.length
    · rw [start_front hle, start_front hle]
    · rw [start_behind (by omega), start_behind (by omega), hlen]
  have hbehind := h.behind
  rw [flatten_cons, Memory.at_append] at hbehind
  refine ⟨h.count, fun i hi => ?_, ?_, ?_⟩
  · rw [hstart, hstart, ← h.offsets i hi]
    rw [length_cons] at hi
    exact getRecordOffset_congr (b := descriptorSize + front.flatten.length + size + k)
      (Memory.agree_clear (.inr (Nat.le_refl _))) (by omega)
  · exact h.before.congr (Memory.agree_clear (.inl (Nat.le_add_right _ _)))
  · rw [flatten_cons, Memory.at_append, clearHead, Memory.at_append, length_append,
      length_replicate, length_drop]
    refine ⟨⟨Memory.at_clear (Nat.le_refl k), ?_⟩, ?_⟩
    · have hdrop := hbehind.1
      rw [← take_append_drop k next, Memory.at_append, length_take, Nat.min_eq_left hk] at hdrop
      exact hdrop.2.congr (Memory.agree_clear (.inr (Nat.le_refl _)))
    · rw [Nat.add_sub_cancel' hk]
      exact hbehind.2.congr (Memory.agree_clear (.inr (by omega)))

theorem Hole.spill_free {hole : NodeBuffer} {k : ℕ} (h : Hole btree hole front [] size)
    (hroom : Room btree front (size + k)) :
    Hole btree { hole with
        bytes := hole.bytes.clear (descriptorSize + front.flatten.length + size) k }
      front [] size := by
  have hfits : descriptorSize + front.flatten.length + (size + k) + 2 * (front.length + 2) ≤
      btree.nodeSize := hroom
  refine ⟨h.count, fun i hi => ?_, ?_, Memory.at_nil⟩
  · rw [← h.offsets i hi]
    rw [length_nil] at hi
    exact getRecordOffset_congr (b := descriptorSize + front.flatten.length + size + k)
      (Memory.agree_clear (.inr (Nat.le_refl _))) (by omega)
  · exact h.before.congr (Memory.agree_clear (.inl (Nat.le_add_right _ _)))

theorem Holds.deleteRecord (h : Holds btree node (front ++ record :: back)) :
    Holds btree (deleteRecord btree node front.length) (front ++ back) := by
  have hfits := h.fits
  have hsize := h.size
  have hlen : (front ++ record :: back).length = front.length + back.length + 1 := by
    rw [length_append, length_cons, Nat.add_assoc]
  have hflat : (front ++ record :: back).flatten = front.flatten ++ (record ++ back.flatten) := by simp
  have htotal : (front ++ record :: back).flatten.length =
      front.flatten.length + record.length + back.flatten.length := by
    rw [hflat]
    simp [Nat.add_assoc]
  rw [hlen, htotal] at hfits
  have hcontents := h.contents
  rw [hflat, Memory.at_append, Memory.at_append] at hcontents
  obtain ⟨hbefore, -, hbehind⟩ := hcontents
  have hnext : start (front ++ record :: back) (front.length + 1) =
      descriptorSize + front.flatten.length + record.length := by
    rw [start_behind (i := front.length + 1) (Nat.lt_succ_self _), Nat.add_sub_cancel,
      start_front (Nat.le_refl _), start_length]
  have hfree : start (front ++ record :: back) (front.length + back.length + 1) =
      descriptorSize + front.flatten.length + record.length + back.flatten.length := by
    rw [← hlen, start_length, htotal]
    omega
  -- the bytes move first; they lie in front of all the offsets
  obtain ⟨bytes, hbytes⟩ : ∃ bytes, bytes = node.bytes.move
      (descriptorSize + front.flatten.length + record.length) (descriptorSize + front.flatten.length)
      back.flatten.length := ⟨_, rfl⟩
  have hkeep : ∀ i ≤ front.length + back.length + 1, getRecordOffset btree bytes i =
      start (front ++ record :: back) i := by
    intro i hi
    rw [← h.offsets i (by omega), hbytes]
    exact getRecordOffset_congr (b := btree.nodeSize - 2 * (front.length + back.length + 1) - 2)
      (Memory.agree_move (.inr (by omega))) (by omega)
  have hdelta : NodeBytes.getRecordSize btree bytes front.length = record.length := by
    rw [NodeBytes.getRecordSize, hkeep _ (by omega), hkeep _ (by omega), hnext,
      start_front (Nat.le_refl _), start_length, word16Sub_eq (by omega) (by omega)]
    omega
  have hdeletes : NodeBytes.deleteRecord btree node front.length = { node with
      numRecords := front.length + back.length
      bytes := deleteOffsets btree record.length back.length (front.length + 1) bytes } := by
    have hindex := h.offset_front
    have hnextOffset : getRecordOffset btree node.bytes (front.length + 1) =
        descriptorSize + front.flatten.length + record.length := by
      rw [h.offsets _ (by omega), hnext]
    have hfreeOffset : getRecordOffset btree node.bytes node.numRecords =
        descriptorSize + front.flatten.length + record.length + back.flatten.length := by
      rw [h.count, h.offsets _ (Nat.le_refl _), hlen, hfree]
    rw [NodeBytes.deleteRecord, hindex, hnextOffset, hfreeOffset, word16Sub_eq (by omega) (by omega),
      Nat.add_sub_cancel_left, ← hbytes, deleteOffset, hdelta, h.count, hlen]
    simp only [Nat.add_sub_cancel, Nat.add_sub_cancel_left]
  obtain ⟨hoffsets, hagree⟩ := deleteOffsets_spec btree record.length back.length (front.length + 1)
    bytes (by omega)
  rw [hdeletes]
  refine ⟨by simp, fun i hi => ?_, ?_, ?_, hsize⟩
  · rw [length_append] at hi
    rw [hoffsets i (by omega)]
    by_cases hle : i ≤ front.length
    · rw [if_neg (by omega), hkeep _ (by omega), start_front hle, start_front hle]
    · have hstart : start (front ++ record :: back) (i + 1) = start (front ++ back) i + record.length :=
        start_behind (i := i + 1) (by omega)
      have hbound := start_le i (front ++ back)
      rw [flatten_append, length_append] at hbound
      rw [if_pos (by omega), hkeep _ (by omega), hstart, word16Sub_eq (by omega) (by omega),
        Nat.add_sub_cancel]
  · rw [flatten_append, Memory.at_append]
    refine ⟨hbefore.congr ?_, ?_⟩
    · refine (hagree.mono (Nat.zero_le _) (by omega)).trans ?_
      rw [hbytes]
      exact Memory.agree_move (.inl (Nat.le_refl _))
    · refine (hbehind.move (descriptorSize + front.flatten.length)).congr ?_
      rw [← hbytes]
      exact hagree.mono (Nat.zero_le _) (by omega)
  · rw [flatten_append, length_append, length_append]
    omega

end insert

/-! ## Reading -/

/-- The bytes of a record, by its offset and the next one. -/
def recordAt (btree : ControlBlock) (node : NodeBuffer) (index : ℕ) : List UInt8 :=
  node.bytes.read (getRecordOffset btree node.bytes index) (getRecordSize btree node.bytes index)

/-- The data that `GetRecordByIndex` returns. -/
def dataAt (btree : ControlBlock) (node : NodeBuffer) (index : ℕ) : Option (List UInt8) :=
  (getRecordByIndex btree node index).map (fun r => node.bytes.read r.2.1 r.2.2)

/-- The length in the length field of a record. -/
def storedLength (btree : ControlBlock) (record : List UInt8) : ℕ :=
  if btree.bigKeys then 256 * (record.getD 0 0).toNat + (record.getD 1 0).toNat
  else (record.getD 0 0).toNat

/-- The size of the key of a record, with its pad byte. -/
def storedKeySize (btree : ControlBlock) (record : List UInt8) : ℕ :=
  padded (calcKeySize btree (storedLength btree record))

/-- The key of the record lies inside it. -/
def WellFormed (btree : ControlBlock) (record : List UInt8) : Prop :=
  storedKeySize btree record ≤ record.length

section read
variable {btree : ControlBlock} {node : NodeBuffer} {records : List (List UInt8)}
  {record data : List UInt8} {key : Key} {index keyLength : ℕ}

theorem calcKeySize_le (btree : ControlBlock) (keyLength : ℕ) :
    calcKeySize btree keyLength ≤ keyLength + 2 := by
  rw [calcKeySize, lengthSize]
  split
  · omega
  · omega

theorem two_le_padded (btree : ControlBlock) (keyLength : ℕ) :
    2 ≤ padded (calcKeySize btree keyLength) := by
  rw [padded, calcKeySize, lengthSize]
  split
  · omega
  · omega

theorem two_le_storedKeySize (btree : ControlBlock) (record : List UInt8) :
    2 ≤ storedKeySize btree record := two_le_padded btree _

theorem Holds.at_record (h : Holds btree node records) (hi : index < records.length) :
    node.bytes.At (start records index) records[index] := by
  have hsplit : records = records.take index ++ records[index] :: records.drop (index + 1) := by simp
  have hcontents := h.contents
  rw [hsplit, flatten_append, Memory.at_append, flatten_cons, Memory.at_append] at hcontents
  exact hcontents.2.1

theorem Holds.recordAt (h : Holds btree node records) (hi : index < records.length) :
    recordAt btree node index = records[index] := by
  rw [NodeBytes.recordAt, h.getRecordSize hi, h.offsets _ (Nat.le_of_lt hi)]
  exact (h.at_record hi).read

theorem keyLengthAt_eq {bytes : Memory} {offset : ℕ} (hat : bytes.At offset record) (hlen : 2 ≤ record.length) :
    keyLengthAt btree bytes offset = storedLength btree record := by
  have hzero : bytes offset = record[0] := hat 0 (by omega)
  have hone : bytes (offset + 1) = record[1] := hat 1 (by omega)
  rw [keyLengthAt, storedLength, Memory.word, hzero, hone]
  simp [getD_eq_getElem?_getD, show 0 < record.length by omega, show 1 < record.length by omega]

theorem WellFormed.two_le (hwf : WellFormed btree record) : 2 ≤ record.length :=
  (two_le_storedKeySize btree record).trans hwf

theorem Holds.dataAt (h : Holds btree node records) (hi : index < records.length)
    (hwf : WellFormed btree records[index]) :
    dataAt btree node index = some (records[index].drop (storedKeySize btree records[index])) := by
  have hnext := start_succ hi
  have hle := start_le (index + 1) records
  have hfits := h.fits
  have hsize := h.size
  have hkey : storedKeySize btree records[index] ≤ records[index].length := hwf
  have hpad : calcKeySize btree (storedLength btree records[index]) ≤
      storedKeySize btree records[index] := Nat.le_add_right _ _
  have hgets : getRecordByIndex btree node index = some (start records index,
      start records index + storedKeySize btree records[index],
      records[index].length - storedKeySize btree records[index]) := by
    have hkeySize : word16 (padded (word16 (calcKeySize btree (storedLength btree records[index])))) =
        storedKeySize btree records[index] := by
      rw [word16_eq (x := calcKeySize btree _) (by omega), ← storedKeySize, word16_eq (by omega)]
    rw [getRecordByIndex, if_neg (by rw [h.count]; omega), h.offsets _ (Nat.le_of_lt hi),
      h.offsets (index + 1) hi]
    dsimp only
    rw [keyLengthAt_eq (h.at_record hi) hwf.two_le, hkeySize, word16_eq (by omega), word16Sub_eq (by omega) (by omega), hnext,
      Nat.add_sub_add_left]
  have hat := h.at_record hi
  rw [← take_append_drop (storedKeySize btree records[index]) records[index],
    Memory.at_append, length_take, Nat.min_eq_left hkey] at hat
  rw [NodeBytes.dataAt, hgets, Option.map_some, ← length_drop, hat.2.read]

theorem storedLength_keyRecord (hbig : keyLength < 2 ^ 16) (hsmall : btree.bigKeys = false → keyLength < 2 ^ 8) :
    storedLength btree (keyRecord btree key keyLength data) = keyLength := by
  cases hb : btree.bigKeys with
  | false =>
    have := hsmall hb
    simp [storedLength, keyRecord, lengthField, hb]
    omega
  | true =>
    simp [storedLength, keyRecord, lengthField, hb, Memory.wordBytes]
    omega

end read

end Darwin.Hfs.NodeBytes
