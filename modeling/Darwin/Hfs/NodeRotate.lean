import Darwin.Hfs.Balance
import Darwin.Hfs.NodeBytes

/-! # Rotating records to the left sibling

`RotateLeft` of `BTreeTreeOps.c` on the bytes of two siblings. The new record counts as one of the
right node's; the records in front of a balance point move to the left node, one after the other.
-/
namespace Darwin.Hfs.NodeBytes
open Darwin.Lib List
open Darwin.Hfs.BTreeAllocate (NodeType)
open Darwin.Hfs.BTreeRecords (Balance balance undoLastMove Balanced)

def getKeyLength (btree : ControlBlock) (key : Key) (forLeafNode : Bool) : ℕ :=
  if forLeafNode || btree.variableIndexKeys then key.length else btree.maxKeyLength

/-- The size that moves with an index, where the new record has the index `insertIndex`. -/
def moveSize (btree : ControlBlock) (right : NodeBuffer) (insertIndex insertSize moveIndex : ℕ) : ℤ :=
  if moveIndex < insertIndex then (getRecordSize btree right.bytes moveIndex : ℤ) + 2
  else if moveIndex = insertIndex then insertSize
  else (getRecordSize btree right.bytes (moveIndex - 1) : ℤ) + 2

/-- The two nodes, and where the new record is once it has been inserted. -/
structure Rotation where
  left : NodeBuffer
  right : NodeBuffer
  insertIndex : ℕ
  insertNodeNum : ℕ

def rotateRecordLeft (btree : ControlBlock) (left right : NodeBuffer) :
    Bool × NodeBuffer × NodeBuffer :=
  let record := right.bytes.read (getRecordOffset btree right.bytes 0) (getRecordSize btree right.bytes 0)
  let (recordFit, left) := insertRecord btree left left.numRecords record
  if recordFit then (true, left, deleteRecord btree right 0) else (false, left, right)

/-- The loop of `RotateLeft` over the `count` records from `index` on; `none` is
`fsBTBadRotateErr`. -/
def rotateRecords (btree : ControlBlock) (rightInsertIndex : ℕ) (key : Key) (keyLength : ℕ)
    (data : List UInt8) : ℕ → ℕ → Rotation → Option Rotation
  | 0, _, s => some s
  | count + 1, index, s =>
    if index = rightInsertIndex then
      let (didItFit, left) := insertKeyRecord btree s.left s.left.numRecords key keyLength data
      if didItFit then
        rotateRecords btree rightInsertIndex key keyLength data count (index + 1)
          ⟨left, s.right, s.left.numRecords, s.right.bLink⟩
      else none
    else
      let (didItFit, left, right) := rotateRecordLeft btree s.left s.right
      if didItFit then
        rotateRecords btree rightInsertIndex key keyLength data count (index + 1)
          { s with left := left, right := right }
      else none

/-- What `RotateLeft` returns. -/
structure RotateResult extends Rotation where
  recordFit : Bool
  recsRotated : ℕ

/-- The part of `RotateLeft` behind the balance point. -/
def rotateAt (btree : ControlBlock) (left right : NodeBuffer) (rightInsertIndex : ℕ) (key : Key)
    (keyLength : ℕ) (data : List UInt8) (moveIndex : ℕ) : Option RotateResult :=
  (rotateRecords btree rightInsertIndex key keyLength data moveIndex 0 ⟨left, right, 0, 0⟩).bind
    (fun s =>
      if moveIndex ≤ rightInsertIndex then
        let insertIndex := rightInsertIndex - moveIndex
        let (didItFit, right) := insertKeyRecord btree s.right insertIndex key keyLength data
        if didItFit then some ⟨⟨s.left, right, insertIndex, s.left.fLink⟩, true, moveIndex⟩ else none
      else some ⟨s, true, moveIndex⟩)

/-- The balance point of `RotateLeft`, with the sizes of the two nodes there. -/
def balancePoint (btree : ControlBlock) (left right : NodeBuffer) (rightInsertIndex keyLength : ℕ)
    (data : List UInt8) : Balance :=
  let insertSize := padded (calcKeySize btree keyLength + data.length + 2)
  undoLastMove btree.nodeSize
    (balance (moveSize btree right rightInsertIndex insertSize) (right.numRecords + 1)
      ⟨(btree.nodeSize : ℤ) - getNodeFreeSize btree left,
        (btree.nodeSize : ℤ) - getNodeFreeSize btree right + insertSize, 0, 0⟩)

def rotateLeft (btree : ControlBlock) (left right : NodeBuffer) (rightInsertIndex : ℕ) (key : Key)
    (data : List UInt8) : Option RotateResult :=
  let keyLength := getKeyLength btree key (right.type = .leaf)
  let b := balancePoint btree left right rightInsertIndex keyLength data
  if (btree.nodeSize : ℤ) < b.rightSize then some ⟨⟨left, right, 0, 0⟩, false, 0⟩
  else rotateAt btree left right rightInsertIndex key keyLength data b.moveIndex

/-! ## The sizes of the nodes -/

/-- The bytes of a node with these records that are not free. -/
def used (records : List (List UInt8)) : ℕ :=
  descriptorSize + records.flatten.length + 2 * (records.length + 1)

section used
variable {btree : ControlBlock} {node : NodeBuffer} {front back l l' : List (List UInt8)}
  {record : List UInt8} {size : ℕ}

theorem used_mid : used (front ++ record :: back) = used (front ++ back) + (record.length + 2) := by
  simp only [used, flatten_append, flatten_cons, length_append, length_cons]
  omega

theorem used_append_le : used l ≤ used (l ++ l') := by
  simp only [used, flatten_append, length_append]
  omega

theorem room_iff : Room btree l size ↔ used l + (size + 2) ≤ btree.nodeSize := by
  rw [Room, used]
  omega

theorem Holds.used_le (h : Holds btree node l) : used l ≤ btree.nodeSize := h.fits

theorem Holds.size_sub_free (h : Holds btree node l) :
    (btree.nodeSize : ℤ) - NodeBytes.getNodeFreeSize btree node = used l := by
  have hfits := h.used_le
  rw [h.getNodeFreeSize, ← used]
  omega

end used

/-! ## The records move -/

section rotate
variable {btree : ControlBlock} {left right : NodeBuffer} {l front back : List (List UInt8)}
  {record data : List UInt8} {key : Key} {keyLength rightInsertIndex index count : ℕ} {s : Rotation}

/-- The links of a node, which stay when records move. -/
def SameLinks (node node' : NodeBuffer) : Prop := node.fLink = node'.fLink ∧ node.bLink = node'.bLink

theorem insertRecord_links {node : NodeBuffer} : SameLinks (insertRecord btree node index record).2 node := by
  rw [insertRecord]
  split
  · exact ⟨rfl, rfl⟩
  · exact ⟨rfl, rfl⟩

theorem deleteRecord_links {node : NodeBuffer} : SameLinks (deleteRecord btree node index) node := ⟨rfl, rfl⟩

theorem insertKeyRecord_links {node : NodeBuffer} :
    SameLinks (insertKeyRecord btree node index key keyLength data).2 node := by
  rw [insertKeyRecord]
  split
  · exact ⟨rfl, rfl⟩
  · exact ⟨rfl, rfl⟩

theorem SameLinks.trans {a b c : NodeBuffer} (h : SameLinks a b) (h' : SameLinks b c) : SameLinks a c :=
  ⟨h.1.trans h'.1, h.2.trans h'.2⟩

theorem rotateRecordLeft_def : @rotateRecordLeft = fun btree left right =>
    let (recordFit, left) := insertRecord btree left left.numRecords
      (right.bytes.read (getRecordOffset btree right.bytes 0) (getRecordSize btree right.bytes 0))
    if recordFit then (true, left, deleteRecord btree right 0) else (false, left, right) := rfl

theorem Holds.rotateRecordLeft (hl : Holds btree left l) (hr : Holds btree right (record :: back))
    (hfits : used (l ++ [record]) ≤ btree.nodeSize) : ∃ left' right',
    rotateRecordLeft btree left right = (true, left', right') ∧ Holds btree left' (l ++ [record]) ∧
      Holds btree right' back ∧ SameLinks left' left ∧ SameLinks right' right := by
  have hread : right.bytes.read (getRecordOffset btree right.bytes 0)
      (NodeBytes.getRecordSize btree right.bytes 0) = record :=
    hr.recordAt (show 0 < (record :: back).length from Nat.zero_lt_succ _)
  have hroom : Room btree (l ++ []) record.length := by
    rw [used_mid] at hfits
    exact room_iff.mpr hfits
  have happend : Holds btree left (l ++ []) := (append_nil l).symm ▸ hl
  have hlinks : SameLinks (NodeBytes.insertRecord btree left l.length record).2 left := insertRecord_links
  obtain ⟨hfit, hholds⟩ := happend.insertRecord record
  rw [if_pos hroom] at hholds
  have hdeleted : Holds btree (NodeBytes.deleteRecord btree right 0) ([] ++ back) :=
    @Holds.deleteRecord btree right [] back record hr
  -- a variable for the pair, which the kernel would compute in the match
  generalize hinserted : NodeBytes.insertRecord btree left l.length record = inserted at hlinks hfit hholds
  obtain ⟨fit, node⟩ := inserted
  refine ⟨node, _, ?_, hholds, hdeleted, hlinks, deleteRecord_links⟩
  rw [rotateRecordLeft_def]
  beta_reduce
  rw [hread, hl.count, hinserted]
  exact if_pos (hfit.trans (decide_eq_true hroom))

/-- The nodes hold these records after the loop, and are still linked as before. -/
structure Rotates (btree : ControlBlock) (s s' : Rotation) (l r : List (List UInt8)) : Prop where
  left : Holds btree s'.left l
  right : Holds btree s'.right r
  leftLinks : SameLinks s'.left s.left
  rightLinks : SameLinks s'.right s.right

theorem rotateRecords_behind (key : Key) (keyLength : ℕ) (data : List UInt8) (hindex : rightInsertIndex < index) (hl : Holds btree s.left l)
    (hr : Holds btree s.right back) (hcount : count ≤ back.length)
    (hfits : used (l ++ back.take count) ≤ btree.nodeSize) :
    ∃ s', rotateRecords btree rightInsertIndex key keyLength data count index s = some s' ∧
      Rotates btree s s' (l ++ back.take count) (back.drop count) ∧
      s'.insertIndex = s.insertIndex ∧ s'.insertNodeNum = s.insertNodeNum := by
  induction count generalizing index s l back with
  | zero =>
    refine ⟨s, rfl, ⟨?_, hr, ⟨rfl, rfl⟩, ⟨rfl, rfl⟩⟩, rfl, rfl⟩
    rwa [take_zero, append_nil]
  | succ count ih =>
    cases back with
    | nil => cases hcount
    | cons record back =>
      have hassoc : l ++ (record :: back).take (count + 1) = (l ++ [record]) ++ back.take count := by
        rw [take_succ_cons, append_cons]
      rw [hassoc] at hfits ⊢
      obtain ⟨left, right, hmove, hleft, hright, hleftLinks, hrightLinks⟩ :=
        hl.rotateRecordLeft hr (used_append_le.trans hfits)
      obtain ⟨s', hrun, hs', hplace⟩ := ih (s := { s with left := left, right := right })
        (Nat.lt_succ_of_lt hindex) hleft hright (Nat.le_of_succ_le_succ hcount) hfits
      refine ⟨s', ?_, ⟨hs'.left, hs'.right, hs'.leftLinks.trans hleftLinks,
        hs'.rightLinks.trans hrightLinks⟩, hplace⟩
      rw [rotateRecords, if_neg (Nat.ne_of_gt hindex), hmove]
      exact hrun

/-- The loop moves the records in front of the new one, the new one itself and those behind it, as
many as `count` says. -/
theorem rotateRecords_spec (hkey : key.length ≤ keyLength)
    (hsize : padded (calcKeySize btree keyLength) < 2 ^ 16) (hdata : lengthSize btree ≤ data.length)
    (hindex : index + front.length = rightInsertIndex) (hl : Holds btree s.left l)
    (hr : Holds btree s.right (front ++ back)) (hcount : count ≤ front.length + back.length + 1)
    (hfits : used (l ++ (front ++ keyRecord btree key keyLength data :: back).take count) ≤
      btree.nodeSize) :
    ∃ s', rotateRecords btree rightInsertIndex key keyLength data count index s = some s' ∧
      Rotates btree s s' (l ++ (front ++ keyRecord btree key keyLength data :: back).take count)
        (if count ≤ front.length then front.drop count ++ back
          else back.drop (count - front.length - 1)) ∧
      (front.length < count →
        s'.insertIndex = l.length + front.length ∧ s'.insertNodeNum = s.right.bLink) := by
  induction count generalizing front index s l with
  | zero =>
    refine ⟨s, rfl, ⟨?_, ?_, ⟨rfl, rfl⟩, ⟨rfl, rfl⟩⟩, fun h => absurd h (Nat.not_lt_zero _)⟩
    · rwa [take_zero, append_nil]
    · rwa [if_pos (Nat.zero_le _), drop_zero]
  | succ count ih =>
    cases front with
    | nil =>
      rw [length_nil, Nat.add_zero] at hindex
      rw [nil_append] at hr
      rw [length_nil, Nat.zero_add] at hcount
      have hassoc : l ++ ([] ++ keyRecord btree key keyLength data :: back).take (count + 1) =
          (l ++ [keyRecord btree key keyLength data]) ++ back.take count := by
        rw [nil_append, take_succ_cons, append_cons]
      rw [hassoc] at hfits ⊢
      have hroom : Room btree (l ++ []) (keyRecord btree key keyLength data).length := by
        have hone := used_append_le.trans hfits
        rw [used_mid] at hone
        exact room_iff.mpr hone
      have happend : Holds btree s.left (l ++ []) := (append_nil l).symm ▸ hl
      have hlinks : SameLinks (insertKeyRecord btree s.left l.length key keyLength data).2 s.left :=
        insertKeyRecord_links
      obtain ⟨hfit, hholds⟩ := happend.insertKeyRecord hkey hsize hdata
      rw [if_pos hroom] at hholds
      generalize hinserted : insertKeyRecord btree s.left l.length key keyLength data = inserted
        at hlinks hfit hholds
      obtain ⟨fit, node⟩ := inserted
      obtain ⟨s', hrun, hs', hinsertIndex, hinsertNodeNum⟩ := rotateRecords_behind
        (s := ⟨node, s.right, l.length, s.right.bLink⟩) key keyLength data (Nat.lt_succ_of_le hindex.ge)
        hholds hr (Nat.le_of_succ_le_succ hcount) hfits
      refine ⟨s', ?_, ⟨hs'.left, ?_, hs'.leftLinks.trans hlinks, hs'.rightLinks⟩,
        fun _ => ⟨hinsertIndex, hinsertNodeNum⟩⟩
      · rw [rotateRecords, if_pos hindex, hl.count, hinserted]
        exact (if_pos (hfit.trans (decide_eq_true hroom))).trans hrun
      · rw [length_nil, if_neg (by omega)]
        exact hs'.right
    | cons record front =>
      have hassoc : l ++ (record :: front ++ keyRecord btree key keyLength data :: back).take (count + 1) =
          (l ++ [record]) ++ (front ++ keyRecord btree key keyLength data :: back).take count := by
        rw [cons_append, take_succ_cons, append_cons]
      rw [hassoc] at hfits ⊢
      rw [length_cons] at hindex hcount
      obtain ⟨left, right, hmove, hleft, hright, hleftLinks, hrightLinks⟩ :=
        hl.rotateRecordLeft hr (used_append_le.trans hfits)
      obtain ⟨s', hrun, hs', hplace⟩ := ih (s := { s with left := left, right := right })
        (show index + 1 + front.length = rightInsertIndex by omega) hleft hright (by omega) hfits
      refine ⟨s', ?_, ⟨hs'.left, ?_, hs'.leftLinks.trans hleftLinks, hs'.rightLinks.trans hrightLinks⟩,
        fun hlt => ?_⟩
      · rw [rotateRecords, if_neg (by omega), hmove]
        exact hrun
      · have hright := hs'.right
        rw [length_cons, drop_succ_cons, Nat.add_sub_add_right]
        simpa only [Nat.add_le_add_iff_right] using hright
      · rw [length_cons] at hlt ⊢
        obtain ⟨hinsertIndex, hinsertNodeNum⟩ := hplace (by omega)
        rw [length_append, length_singleton] at hinsertIndex
        exact ⟨by omega, hinsertNodeNum.trans hrightLinks.2⟩

/-- The new record stands where the index and the node number say: in the left node, or in the
right one, behind the records that have moved. -/
def Placed (leftNum rightNum : ℕ) (l' : List (List UInt8)) (place : ℕ) (s : Rotation) : Prop :=
  if place < l'.length then s.insertNodeNum = leftNum ∧ s.insertIndex = place
  else s.insertNodeNum = rightNum ∧ l'.length + s.insertIndex = place

theorem rotateAt_spec (hkey : key.length ≤ keyLength)
    (hsize : padded (calcKeySize btree keyLength) < 2 ^ 16) (hdata : lengthSize btree ≤ data.length)
    (hl : Holds btree left l) (hr : Holds btree right (front ++ back))
    (hcount : count ≤ front.length + back.length + 1)
    (hleft : used (l ++ (front ++ keyRecord btree key keyLength data :: back).take count) ≤
      btree.nodeSize)
    (hright : used ((front ++ keyRecord btree key keyLength data :: back).drop count) ≤ btree.nodeSize) :
    ∃ s, rotateAt btree left right front.length key keyLength data count = some ⟨s, true, count⟩ ∧
      Holds btree s.left (l ++ (front ++ keyRecord btree key keyLength data :: back).take count) ∧
      Holds btree s.right ((front ++ keyRecord btree key keyLength data :: back).drop count) ∧
      Placed right.bLink left.fLink (l ++ (front ++ keyRecord btree key keyLength data :: back).take count)
        (l.length + front.length) s := by
  obtain ⟨s, hrun, hs, hplace⟩ := rotateRecords_spec (s := ⟨left, right, 0, 0⟩) hkey hsize hdata
    (show 0 + front.length = front.length from Nat.zero_add _) hl hr hcount hleft
  have hlength : (l ++ (front ++ keyRecord btree key keyLength data :: back).take count).length =
      l.length + count := by
    rw [length_append, length_take, length_append, length_cons]
    omega
  by_cases hle : count ≤ front.length
  · have hdrop : (front ++ keyRecord btree key keyLength data :: back).drop count =
        front.drop count ++ keyRecord btree key keyLength data :: back :=
      drop_append_of_le_length hle
    have hfront : (front.drop count).length = front.length - count := length_drop
    rw [hdrop] at hright ⊢
    have hrest := hs.right
    rw [if_pos hle] at hrest
    have hroom : Room btree (front.drop count ++ back) (keyRecord btree key keyLength data).length := by
      rw [used_mid] at hright
      exact room_iff.mpr hright
    obtain ⟨hfit, hholds⟩ := hrest.insertKeyRecord hkey hsize hdata
    rw [if_pos hroom, hfront] at hholds
    rw [hfront] at hfit
    generalize hinserted : insertKeyRecord btree s.right (front.length - count) key keyLength data = inserted
      at hfit hholds
    obtain ⟨fit, node⟩ := inserted
    refine ⟨⟨s.left, node, front.length - count, s.left.fLink⟩, ?_, hs.left, hholds, ?_⟩
    · rw [rotateAt, hrun, Option.bind_some, if_pos hle]
      simp only [hinserted]
      exact if_pos (hfit.trans (decide_eq_true hroom))
    · rw [Placed, hlength, if_neg (by omega)]
      exact ⟨hs.leftLinks.1, by dsimp only; omega⟩
  · have hgt : front.length < count := Nat.lt_of_not_le hle
    have hdrop : (front ++ keyRecord btree key keyLength data :: back).drop count =
        back.drop (count - front.length - 1) := by
      obtain ⟨k, rfl⟩ : ∃ k, count = front.length + (k + 1) := ⟨count - front.length - 1, by omega⟩
      rw [drop_length_add_append, drop_succ_cons, Nat.add_sub_cancel_left, Nat.add_sub_cancel]
    have hrest := hs.right
    rw [if_neg hle, ← hdrop] at hrest
    obtain ⟨hinsertIndex, hinsertNodeNum⟩ := hplace hgt
    refine ⟨s, ?_, hs.left, hrest, ?_⟩
    · rw [rotateAt, hrun, Option.bind_some, if_neg hle]
    · rw [Placed, hlength, if_pos (by omega)]
      exact ⟨hinsertNodeNum, hinsertIndex⟩

end rotate

/-! ## The balance point -/

section balance
variable {btree : ControlBlock} {left right : NodeBuffer} {l full front back : List (List UInt8)}
  {data : List UInt8} {key : Key} {keyLength nodeSize : ℕ} {b : Balance} {size : ℕ → ℤ}

/-- What a record takes from the free space. -/
def sizes (records : List (List UInt8)) : List ℕ := records.map (fun record => record.length + 2)

theorem used_append : used (l ++ full) = used l + (sizes full).sum := by
  induction full with
  | nil => simp [sizes]
  | cons record full ih =>
    rw [used_mid, ih, sizes, sizes, map_cons, sum_cons]
    omega

theorem used_eq (full : List (List UInt8)) : used full = used [] + (sizes full).sum := used_append (l := [])

theorem sizes_take (k : ℕ) : (sizes full).take k = sizes (full.take k) := map_take.symm

theorem sizes_drop (k : ℕ) : (sizes full).drop k = sizes (full.drop k) := map_drop.symm

theorem moveSize_eq (hkey : key.length ≤ keyLength) (heven : data.length % 2 = 0)
    (hr : Holds btree right (front ++ back)) (k : ℕ)
    (hk : k < (sizes (front ++ keyRecord btree key keyLength data :: back)).length) :
    moveSize btree right front.length (padded (calcKeySize btree keyLength + data.length + 2)) k =
      (sizes (front ++ keyRecord btree key keyLength data :: back))[k] := by
  rw [sizes, length_map, length_append, length_cons] at hk
  simp only [sizes, getElem_map, Nat.cast_add, Nat.cast_ofNat]
  rw [moveSize]
  by_cases hlt : k < front.length
  · rw [if_pos hlt, hr.getRecordSize (by rw [length_append]; omega), getElem_append_left hlt,
      getElem_append_left hlt]
  · rw [if_neg hlt]
    by_cases heq : k = front.length
    · subst heq
      have hlen := keyRecord_length btree data hkey
      rw [if_pos rfl]
      simp only [getElem_append_right (Nat.le_refl _), Nat.sub_self, getElem_cons_zero, hlen, padded]
      omega
    · obtain ⟨j, rfl⟩ : ∃ j, k = front.length + (j + 1) := ⟨k - front.length - 1, by omega⟩
      rw [if_neg heq, hr.getRecordSize (by rw [length_append]; omega)]
      have hbefore : front.length + (j + 1) - 1 < (front ++ back).length := by
        rw [length_append]
        omega
      have hbehind : front.length + (j + 1) < (front ++ keyRecord btree key keyLength data :: back).length := by
        rw [length_append, length_cons]
        omega
      have hleft : (front ++ back)[front.length + (j + 1) - 1] = back[j] := by
        simp [← Nat.add_assoc]
      have hright : (front ++ keyRecord btree key keyLength data :: back)[front.length + (j + 1)] = back[j] := by
        rw [getElem_append_right (Nat.le_add_right _ _)]
        simp
      rw [hleft, hright]

end balance

/-! ## Redistribution -/

/-- A well-formed node with these records. -/
def Sound (btree : ControlBlock) (node : NodeBuffer) (records : List (List UInt8)) : Prop :=
  Holds btree node records ∧ ∀ record ∈ records, WellFormed btree record

/-- The record as it is stored in a node of this type. -/
def newRecord (btree : ControlBlock) (type : NodeType) (key : Key) (data : List UInt8) : List UInt8 :=
  keyRecord btree key (getKeyLength btree key (type = .leaf)) data

/-- `RotateLeft` does not fail. When the record fits, the two nodes hold their records with the new
one among them, in the order of before, `recsRotated` is what the left node has gained, and the new
record is where the results say; and else nothing has changed. -/
def Redistributes (btree : ControlBlock) (left right : NodeBuffer) (l r : List (List UInt8))
    (leftNum rightNum index : ℕ) (key : Key) (data : List UInt8) : Prop :=
  ∃ result, rotateLeft btree left right index key data = some result ∧
    if result.recordFit = true then
      ∃ l' r', Sound btree result.left l' ∧ Sound btree result.right r' ∧
        l' ++ r' = l ++ (r.take index ++ newRecord btree right.type key data :: r.drop index) ∧
        l'.length = l.length + result.recsRotated ∧
        Placed leftNum rightNum l' (l.length + index) result.toRotation
    else result.left = left ∧ result.right = right

/-- The right node is too large at the balance point: the record does not fit. -/
def Overfull (btree : ControlBlock) (left right : NodeBuffer) (index : ℕ) (key : Key)
    (data : List UInt8) : Prop :=
  (btree.nodeSize : ℤ) <
    (balancePoint btree left right index (getKeyLength btree key (right.type = .leaf)) data).rightSize

section redistribute
variable {btree : ControlBlock} {left right : NodeBuffer} {l r front back : List (List UInt8)}
  {data : List UInt8} {key : Key} {keyLength index leftNum rightNum : ℕ}

theorem balancePoint_spec (hkey : key.length ≤ keyLength) (heven : data.length % 2 = 0)
    (hl : Holds btree left l) (hr : Holds btree right (front ++ back)) {b : Balance}
    (hb : balancePoint btree left right front.length keyLength data = b) :
    b.moveIndex ≤ front.length + back.length + 1 ∧
      b.rightSize = used ((front ++ keyRecord btree key keyLength data :: back).drop b.moveIndex) ∧
      (b.rightSize ≤ btree.nodeSize →
        used (l ++ (front ++ keyRecord btree key keyLength data :: back).take b.moveIndex) ≤
          btree.nodeSize) := by
  have hlen : (front ++ keyRecord btree key keyLength data :: back).length =
      front.length + back.length + 1 := by
    rw [length_append, length_cons, Nat.add_assoc]
  have hcount : right.numRecords = front.length + back.length := by
    rw [hr.count, length_append]
  have hnew := keyRecord_length btree data hkey
  have hsize : (sizes (front ++ keyRecord btree key keyLength data :: back)).length =
      front.length + back.length + 1 := by
    rw [sizes, length_map, hlen]
  have hleft : (btree.nodeSize : ℤ) - getNodeFreeSize btree left = (used l : ℕ) := hl.size_sub_free
  have hright : (btree.nodeSize : ℤ) - getNodeFreeSize btree right +
      padded (calcKeySize btree keyLength + data.length + 2) =
      (used [] : ℕ) + (sizes (front ++ keyRecord btree key keyLength data :: back)).sum := by
    have hall := used_eq (front ++ keyRecord btree key keyLength data :: back)
    rw [used_mid, hnew] at hall
    rw [hr.size_sub_free]
    simp only [padded] at hall ⊢
    omega
  have hle : used [] ≤ used l := used_append_le (l := [])
  obtain ⟨hrun, -⟩ := (Balanced.start (used l) (used []) _).run hle (moveSize_eq hkey heven hr)
    (show _ ≤ 0 + (right.numRecords + 1) by omega)
  have hundo := hrun.undo hl.used_le
  rw [← hleft, ← hright, ← balancePoint, hb, hsize, sizes_take, sizes_drop, ← used_append] at hundo
  rwa [used_eq ((front ++ keyRecord btree key keyLength data :: back).drop b.moveIndex), Nat.cast_add]

theorem getKeyLength_le (hkey : key.length ≤ btree.maxKeyLength) (forLeafNode : Bool) :
    key.length ≤ getKeyLength btree key forLeafNode ∧
      getKeyLength btree key forLeafNode ≤ btree.maxKeyLength := by
  rw [getKeyLength]
  split
  · exact ⟨Nat.le_refl _, hkey⟩
  · exact ⟨hkey, Nat.le_refl _⟩

/-- `RotateLeft` redistributes the records of every two siblings, when there is data in the new
record or the record does not fit. -/
theorem rotateLeft_redistributes (hl : Sound btree left l) (hr : Sound btree right r)
    (hnext : left.fLink = rightNum) (hprevious : right.bLink = leftNum) (hindex : index ≤ r.length)
    (hkey : key.length ≤ btree.maxKeyLength) (hmax : btree.maxKeyLength ≤ 520)
    (hbyte : btree.bigKeys = false → btree.maxKeyLength < 2 ^ 8) (heven : data.length % 2 = 0)
    (hdata : data ≠ [] ∨ Overfull btree left right index key data) :
    Redistributes btree left right l r leftNum rightNum index key data := by
  rcases hdata with hdata | hover
  swap
  · exact ⟨_, if_pos hover, rfl, rfl⟩
  obtain ⟨hkeyLength, hlength⟩ := getKeyLength_le hkey (right.type = .leaf)
  have hrecord : newRecord btree right.type key data =
      keyRecord btree key (getKeyLength btree key (right.type = .leaf)) data := rfl
  rw [Redistributes, rotateLeft]
  generalize getKeyLength btree key (right.type = .leaf) = keyLength at *
  have hcalc := calcKeySize_le btree keyLength
  have hsize : padded (calcKeySize btree keyLength) < 2 ^ 16 := by
    rw [padded]
    omega
  have hlong : lengthSize btree ≤ data.length := by
    have hpos := length_pos_of_ne_nil hdata
    rw [lengthSize]
    split
    · omega
    · omega
  have hwf : WellFormed btree (keyRecord btree key keyLength data) := by
    rw [WellFormed, storedKeySize, storedLength_keyRecord (by omega) (fun h => by have := hbyte h; omega),
      keyRecord_length btree data hkeyLength]
    exact Nat.le_add_right _ _
  have hfront : (r.take index).length = index := by
    rw [length_take]
    omega
  have hsplit : r.take index ++ r.drop index = r := take_append_drop index r
  have hright : Holds btree right (r.take index ++ r.drop index) := hsplit.symm ▸ hr.1
  obtain ⟨b, hb⟩ : ∃ b, balancePoint btree left right index keyLength data = b := ⟨_, rfl⟩
  have hpoint : balancePoint btree left right (r.take index).length keyLength data = b := by
    rw [hfront, hb]
  obtain ⟨hcount, hrightSize, hleftSize⟩ := balancePoint_spec hkeyLength heven hl.1 hright hpoint
  rw [hb]
  by_cases hover : (btree.nodeSize : ℤ) < b.rightSize
  · exact ⟨_, if_pos hover, rfl, rfl⟩
  · have hfits := Int.not_lt.mp hover
    obtain ⟨s, hrun, hleft, hright', hplace⟩ := rotateAt_spec hkeyLength hsize hlong hl.1 hright hcount
      (hleftSize hfits) (by omega)
    rw [hfront] at hrun hplace
    refine ⟨_, (if_neg hover).trans hrun, ?_⟩
    rw [if_pos rfl, hrecord]
    have hjoin : (l ++ (r.take index ++ keyRecord btree key keyLength data :: r.drop index).take
        b.moveIndex) ++ (r.take index ++ keyRecord btree key keyLength data :: r.drop index).drop
        b.moveIndex = l ++ (r.take index ++ keyRecord btree key keyLength data :: r.drop index) := by
      rw [append_assoc, take_append_drop]
    have hall : ∀ record ∈ l ++ (r.take index ++ keyRecord btree key keyLength data :: r.drop index),
        WellFormed btree record := by
      intro record hmem
      rcases mem_append.mp hmem with hmem | hmem
      · exact hl.2 record hmem
      · rcases mem_append.mp hmem with hmem | hmem
        · exact hr.2 record (mem_of_mem_take hmem)
        · rcases mem_cons.mp hmem with rfl | hmem
          · exact hwf
          · exact hr.2 record (mem_of_mem_drop hmem)
    rw [← hjoin] at hall
    refine ⟨_, _, ⟨hleft, fun record hmem => hall record (mem_append_left _ hmem)⟩,
      ⟨hright', fun record hmem => hall record (mem_append_right _ hmem)⟩, hjoin, ?_, ?_⟩
    · rw [length_append, length_take, length_append, length_cons]
      dsimp only
      omega
    · rwa [hprevious, hnext] at hplace

end redistribute

/-! ## Two leaves -/

def bigTree : ControlBlock := ⟨512, true, true, 8⟩

/-- A leaf with one record: ten bytes under a key of length one. -/
def leftLeaf : NodeBuffer :=
  (insertKeyRecord bigTree (newNode bigTree .leaf 2 0) 0 [1] 1 [1, 2, 3, 4, 5, 6, 7, 8, 9, 10]).2

/-- Its right sibling, with two bytes under a key of length two. -/
def rightLeaf : NodeBuffer :=
  (insertKeyRecord bigTree (newNode bigTree .leaf 0 1) 0 [5, 6] 2 [7, 8]).2

theorem leftLeaf_sound : Sound bigTree leftLeaf [[0, 1, 1, 0, 1, 2, 3, 4, 5, 6, 7, 8, 9, 10]] := by
  refine ⟨(@Holds.insertKeyRecord bigTree _ [] [] [1, 2, 3, 4, 5, 6, 7, 8, 9, 10] [1] 1
    (newNode_holds .leaf 2 0 (by decide) (by decide)) (by decide) (by decide) (by decide)).2, ?_⟩
  intro record hmem
  obtain rfl := mem_singleton.mp hmem
  rw [WellFormed]
  decide

theorem rightLeaf_sound : Sound bigTree rightLeaf [[0, 2, 5, 6, 7, 8]] := by
  refine ⟨(@Holds.insertKeyRecord bigTree _ [] [] [7, 8] [5, 6] 2
    (newNode_holds .leaf 0 1 (by decide) (by decide)) (by decide) (by decide) (by decide)).2, ?_⟩
  intro record hmem
  obtain rfl := mem_singleton.mp hmem
  rw [WellFormed]
  decide

theorem rotateLeft_redistributes_leaves : Redistributes bigTree leftLeaf rightLeaf
    [[0, 1, 1, 0, 1, 2, 3, 4, 5, 6, 7, 8, 9, 10]] [[0, 2, 5, 6, 7, 8]] 1 2 0 [3] [9, 9] :=
  rotateLeft_redistributes leftLeaf_sound rightLeaf_sound rfl rfl (by decide) (by decide) (by decide)
    (by decide) (by decide) (.inl (by decide))

/-- Without data the pad bytes of the new record clear the length field of the next one. -/
theorem empty_data_clears : Sound bigTree leftLeaf [[0, 1, 1, 0, 1, 2, 3, 4, 5, 6, 7, 8, 9, 10]] ∧
    Sound bigTree rightLeaf [[0, 2, 5, 6, 7, 8]] ∧ leftLeaf.fLink = 2 ∧ rightLeaf.bLink = 1 ∧
    leftLeaf.type = rightLeaf.type ∧ ¬ Redistributes bigTree leftLeaf rightLeaf [[0, 1, 1, 0, 1, 2, 3, 4, 5, 6, 7, 8, 9, 10]]
      [[0, 2, 5, 6, 7, 8]] 1 2 0 [3] [] := by
  refine ⟨leftLeaf_sound, rightLeaf_sound, rfl, rfl, rfl, ?_⟩
  have hrun : (rotateLeft bigTree leftLeaf rightLeaf 0 [3] []).map
      (fun result => (result.recordFit, result.recsRotated, recordAt bigTree result.right 1)) =
      some (true, 0, [0, 0, 5, 6, 7, 8]) := by decide +kernel
  rintro ⟨result, hresult, hnodes⟩
  rw [hresult, Option.map_some, Option.some.injEq, Prod.mk.injEq, Prod.mk.injEq] at hrun
  obtain ⟨hfit, hrotated, hcleared⟩ := hrun
  rw [if_pos hfit] at hnodes
  obtain ⟨l', r', -, ⟨hright, -⟩, hjoin, hlength, -⟩ := hnodes
  obtain ⟨-, rfl⟩ := append_inj hjoin (by simpa [hrotated] using hlength)
  have hkept := hright.recordAt (show 1 < 2 by decide)
  rw [hcleared] at hkept
  revert hkept
  decide

end Darwin.Hfs.NodeBytes
