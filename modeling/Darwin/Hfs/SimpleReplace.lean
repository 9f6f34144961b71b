import Darwin.Hfs.NodeBytes
import Darwin.Lib.SortedSearch

/-! # Replacing a record in its leaf

`TrySimpleReplace` of `BTreeMiscOps.c`. A record of the same space is overwritten behind its key, as
long as the new key is; any other is deleted and inserted again under the new key.
-/
namespace Darwin.Hfs.NodeBytes
open Darwin.Lib List

def calcKeyRecordSize (keySize recSize : ℕ) : ℕ :=
  word16 (word16 (padded keySize) + word16 (padded recSize))

/-- The key at an offset of the node. -/
def keyAt (btree : ControlBlock) (bytes : Memory) (offset : ℕ) : Key :=
  bytes.read (offset + lengthSize btree) (keyLengthAt btree bytes offset)

/-- The keys that `SearchNode` compares with the search key. -/
def trialKeys (btree : ControlBlock) (node : NodeBuffer) : List Key :=
  (List.range node.numRecords).map
    (fun index => keyAt btree node.bytes (getRecordOffset btree node.bytes index))

def searchNode (btree : ControlBlock) (compareProc : Key → Key → Ordering) (node : NodeBuffer)
    (searchKey : Key) : Bool × ℕ :=
  bisect (compareProc searchKey) (trialKeys btree node) node.numRecords 0 (node.numRecords - 1)

/-- What `TrySimpleReplace` leaves: besides its results the region that it writes with
`BlockMoveData`, and `didItFit`, which it panics about. -/
structure Replaced where
  recordInserted : Bool
  node : NodeBuffer
  blockMoved : Option (ℕ × ℕ)
  didItFit : Bool

/-- The space of the record that is to be stored. -/
def spaceNeeded (btree : ControlBlock) (key : Key) (record : List UInt8) : ℕ :=
  calcKeyRecordSize (word16 (calcKeySize btree key.length)) record.length

/-- The part of `TrySimpleReplace` behind the search. -/
def replaceAt (btree : ControlBlock) (node : NodeBuffer) (index : ℕ) (key : Key)
    (record : List UInt8) : Replaced :=
  let oldSpace := getRecordSize btree node.bytes index
  if spaceNeeded btree key record = oldSpace then
    let dst := getRecordOffset btree node.bytes index +
      word16 (padded (word16 (calcKeySize btree key.length)))
    ⟨true, { node with bytes := node.bytes.store dst record }, some (dst, record.length), true⟩
  else if spaceNeeded btree key record ≤ getNodeFreeSize btree node + oldSpace then
    let (didItFit, node) :=
      insertKeyRecord btree (deleteRecord btree node index) index key key.length record
    ⟨true, node, none, didItFit⟩
  else ⟨false, node, none, true⟩

def trySimpleReplace (btree : ControlBlock) (compareProc : Key → Key → Ordering) (node : NodeBuffer)
    (key : Key) (record : List UInt8) : Replaced :=
  if node.type ≠ .leaf then ⟨false, node, none, true⟩
  else
    let (foundIt, index) := searchNode btree compareProc node key
    if foundIt = false then ⟨false, node, none, true⟩
    else replaceAt btree node index key record

/-- The new record is stored at its place: it is what is read there, the other records are as
before, nothing is written behind the node, and the re-insert did not fail. -/
structure Stores (btree : ControlBlock) (node : NodeBuffer) (index : ℕ) (record : List UInt8)
    (replaced : Replaced) : Prop where
  fit : replaced.didItFit = true
  inside : ∀ dst size, replaced.blockMoved = some (dst, size) → dst + size ≤ btree.nodeSize
  count : replaced.node.numRecords = node.numRecords
  data : dataAt btree replaced.node index = some record
  others : ∀ i < node.numRecords, i ≠ index →
    recordAt btree replaced.node i = recordAt btree node i

/-- When the new record takes the place of the old one as it should. In its old space it needs an
even size and a key as long as the old one; and else its pad bytes must not change what is behind
it: data shorter than the length field is stored in front of zeros, or in front of free space. -/
def Replaceable (btree : ControlBlock) (node : NodeBuffer) (index : ℕ) (key : Key)
    (record : List UInt8) : Prop :=
  padded (calcKeySize btree key.length) + padded record.length < 2 ^ 16 ∧
    if padded (calcKeySize btree key.length) + padded record.length = getRecordSize btree node.bytes index
    then record.length % 2 = 0 ∧
      storedKeySize btree (recordAt btree node index) = padded (calcKeySize btree key.length)
    else if index + 1 < node.numRecords then
      (recordAt btree node (index + 1)).take (lengthSize btree - record.length) =
        List.replicate (lengthSize btree - record.length) 0
    else padded (calcKeySize btree key.length) + max record.length (lengthSize btree) ≤
      getNodeFreeSize btree node + getRecordSize btree node.bytes index

section replace
variable {btree : ControlBlock} {node : NodeBuffer} {front back back' : List (List UInt8)}
  {old new record data : List UInt8} {key : Key} {replaced : Replaced} {index : ℕ}

theorem padded_even (size : ℕ) : padded size % 2 = 0 := by
  rw [padded]
  omega

theorem padded_lt (btree : ControlBlock) (hkey : key.length ≤ 520) : padded (calcKeySize btree key.length) < 2 ^ 16 := by
  have := calcKeySize_le btree key.length
  rw [padded]
  omega

theorem spaceNeeded_eq (btree : ControlBlock) (record : List UInt8) (hkey : key.length ≤ 520) :
    spaceNeeded btree key record =
      (padded (calcKeySize btree key.length) + padded record.length) % 2 ^ 16 := by
  have hlt : padded (calcKeySize btree key.length) < 2 ^ 16 := padded_lt btree hkey
  have hle : calcKeySize btree key.length ≤ padded (calcKeySize btree key.length) :=
    Nat.le_add_right _ _
  rw [spaceNeeded, calcKeyRecordSize, word16_eq (x := calcKeySize _ _) (by omega), word16_eq hlt, word16,
    word16, Nat.add_mod_mod]

theorem Holds.hole (h : Holds btree node (front ++ old :: back)) :
    Hole btree node front back old.length := by
  have hcount := h.count
  have hlen : (front ++ old :: back).length = front.length + back.length + 1 := by
    rw [length_append, length_cons, Nat.add_assoc]
  have hcontents := h.contents
  rw [flatten_append, flatten_cons, Memory.at_append, Memory.at_append] at hcontents
  refine ⟨hcount.trans hlen, fun i hi => ?_, hcontents.1, hcontents.2.2⟩
  rw [h.offsets i (by omega)]
  by_cases hle : i ≤ front.length
  · rw [if_pos hle, start_front hle, start_front hle]
  · rw [if_neg hle, start_behind (by omega)]

theorem Holds.overwrite (h : Holds btree node (front ++ old :: back)) (hlen : new.length = old.length)
    {bytes : Memory} (hnew : bytes.At (descriptorSize + front.flatten.length) new)
    (hbefore : Memory.Agree bytes node.bytes 0 (descriptorSize + front.flatten.length))
    (hbehind : Memory.Agree bytes node.bytes
      (descriptorSize + front.flatten.length + old.length) btree.nodeSize) :
    Holds btree { node with bytes := bytes } (front ++ new :: back) := by
  have hfits := h.fits
  have hhole := h.hole
  rw [← hlen] at hhole hbehind
  refine hhole.fill ?_ h.size hnew hbefore hbehind
  simp only [flatten_append, flatten_cons, length_append, length_cons] at hfits
  simp only [Room, flatten_append, length_append]
  omega

/-- Where the node holds a well-formed new record, it is the right one if its data is, and the
records behind it must be the old ones. -/
theorem stores_iff (h : Holds btree node (front ++ old :: back))
    (hnew : Holds btree replaced.node (front ++ new :: back')) (hback : back'.length = back.length)
    (hwf : WellFormed btree new) (hfit : replaced.didItFit = true)
    (hinside : ∀ dst size, replaced.blockMoved = some (dst, size) → dst + size ≤ btree.nodeSize) :
    Stores btree node front.length record replaced ↔
      new.drop (storedKeySize btree new) = record ∧ back' = back := by
  have hlen : (front ++ old :: back).length = front.length + back.length + 1 := by
    rw [length_append, length_cons, Nat.add_assoc]
  have hlen' : (front ++ new :: back').length = front.length + back.length + 1 := by
    rw [length_append, length_cons, hback, Nat.add_assoc]
  have hdata : dataAt btree replaced.node front.length =
      some (new.drop (storedKeySize btree new)) := by
    have hin : front.length < (front ++ new :: back').length := by omega
    have hget : (front ++ new :: back')[front.length] = new := by simp
    have hread := hnew.dataAt (show front.length < (front ++ new :: back').length by omega) (by rwa [hget])
    rwa [hget] at hread
  constructor
  · intro hs
    refine ⟨Option.some.inj (hdata.symm.trans hs.data), ext_getElem hback fun k hk hk' => ?_⟩
    have hother := hs.others (front.length + 1 + k) (by rw [h.count]; omega) (by omega)
    rw [hnew.recordAt (by omega), h.recordAt (by omega)] at hother
    simpa [getElem_append_right, Nat.add_assoc, Nat.add_comm 1] using hother
  · rintro ⟨hrecord, rfl⟩
    refine ⟨hfit, hinside, ?_, by rw [hdata, hrecord], fun i hi hne => ?_⟩
    · rw [hnew.count, h.count, hlen, hlen']
    · rw [h.count] at hi
      rw [hnew.recordAt (by omega), h.recordAt hi]
      by_cases hlt : i < front.length
      · rw [getElem_append_left hlt, getElem_append_left hlt]
      · obtain ⟨k, rfl⟩ : ∃ k, i = front.length + 1 + k := ⟨i - front.length - 1, by omega⟩
        simp [getElem_append_right, Nat.add_assoc, Nat.add_comm 1]

section inserted
variable {inserted : Bool × NodeBuffer} (hreplaced : replaced = ⟨true, inserted.2, none, inserted.1⟩)
include hreplaced

theorem stores_inserted_iff (h : Holds btree node (front ++ old :: back))
    (hnew : Holds btree inserted.2 (front ++ new :: back')) (hback : back'.length = back.length)
    (hwf : WellFormed btree new) (hfit : inserted.1 = true) :
    Stores btree node front.length record replaced ↔
      new.drop (storedKeySize btree new) = record ∧ back' = back := by
  subst hreplaced
  exact stores_iff h hnew hback hwf hfit (by simp)

theorem Stores.inserted_data {index : ℕ} (h : Stores btree node index record replaced) :
    dataAt btree inserted.2 index = some record := by
  subst hreplaced
  exact h.data

end inserted

theorem storedLength_take {k : ℕ} (l : List UInt8) (hk : 2 ≤ k) (hlen : k ≤ old.length) :
    storedLength btree (old.take k ++ l) = storedLength btree old := by
  have hget : ∀ i < 2, (old.take k ++ l).getD i 0 = old.getD i 0 := by
    intro i hi
    rw [getD_eq_getElem?_getD, getD_eq_getElem?_getD,
      List.getElem?_append_left (by rw [length_take]; omega), List.getElem?_take_of_lt (by omega)]
  rw [storedLength, storedLength, hget 0 (by omega), hget 1 (by omega)]

theorem stores_same (h : Holds btree node (front ++ old :: back)) (hwf : WellFormed btree old)
    (hkey : key.length ≤ 520)
    (hspace : padded (calcKeySize btree key.length) + padded record.length = old.length) :
    Stores btree node front.length record (replaceAt btree node front.length key record) ↔
      record.length % 2 = 0 ∧ storedKeySize btree old = padded (calcKeySize btree key.length) := by
  have hfits := h.fits
  have hsize := h.size
  simp only [flatten_append, flatten_cons, length_append, length_cons] at hfits
  have hin : front.length < (front ++ old :: back).length := by simp
  have hget : (front ++ old :: back)[front.length] = old := by simp
  have hold : getRecordSize btree node.bytes front.length = old.length := by
    rw [h.getRecordSize (by simp), hget]
  have hpk : 2 ≤ padded (calcKeySize btree key.length) := two_le_padded _ _
  have hpad : record.length ≤ padded record.length := Nat.le_add_right _ _
  have hneeded : spaceNeeded btree key record = old.length := by
    rw [spaceNeeded_eq btree record hkey, hspace, Nat.mod_eq_of_lt (by omega)]
  have hcalc : word16 (padded (word16 (calcKeySize btree key.length))) =
      padded (calcKeySize btree key.length) := keySize_eq (padded_lt btree hkey)
  generalize hpkey : padded (calcKeySize btree key.length) = pk at *
  -- the old record with the new data stored in it
  obtain ⟨new, hnew⟩ : ∃ new, new = old.take pk ++ record ++ old.drop (pk + record.length) := ⟨_, rfl⟩
  have hlen : new.length = old.length := by
    rw [hnew, length_append, length_append, length_take, length_drop]
    omega
  have hstored : storedLength btree new = storedLength btree old := by
    rw [hnew, append_assoc]
    exact storedLength_take _ hpk (by omega)
  have hkeySize : storedKeySize btree new = storedKeySize btree old := by
    rw [storedKeySize, storedKeySize, hstored]
  have hcontents := h.contents
  rw [flatten_append, flatten_cons, Memory.at_append, Memory.at_append] at hcontents
  have hat := hcontents.2.1
  rw [← take_append_drop pk old, Memory.at_append, ← take_append_drop record.length (old.drop pk),
    Memory.at_append, drop_drop, length_take, length_take, length_drop,
    Nat.min_eq_left (by omega), Nat.min_eq_left (by omega)] at hat
  have hholds : Holds btree { node with
      bytes := node.bytes.store (descriptorSize + front.flatten.length + pk) record }
      (front ++ new :: back) := by
    refine h.overwrite hlen ?_ (Memory.agree_store (.inl (by omega))) (Memory.agree_store (.inr (by omega)))
    rw [hnew, Memory.at_append, Memory.at_append, length_append, length_take,
      Nat.min_eq_left (by omega)]
    refine ⟨⟨hat.1.congr (Memory.agree_store (.inl ?_)), Memory.at_store⟩, ?_⟩
    · rw [length_take]
      omega
    · rw [← Nat.add_assoc]
      exact hat.2.2.congr (Memory.agree_store (.inr (Nat.le_refl _)))
  have hreplace : replaceAt btree node front.length key record = ⟨true,
      { node with bytes := node.bytes.store (descriptorSize + front.flatten.length + pk) record },
      some (descriptorSize + front.flatten.length + pk, record.length), true⟩ := by
    rw [replaceAt, hneeded, hold, if_pos rfl, h.offset_front, hcalc]
  have hinside : ∀ dst size, some (descriptorSize + front.flatten.length + pk, record.length) =
      some (dst, size) → dst + size ≤ btree.nodeSize := by
    intro dst size heq
    cases heq
    omega
  have hwf' : WellFormed btree new := by
    rw [WellFormed, hkeySize, hlen]
    exact hwf
  have hevenOld : storedKeySize btree old % 2 = 0 := padded_even _
  have heven : pk % 2 = 0 := hpkey ▸ padded_even _
  rw [hreplace, stores_iff h hholds rfl hwf' rfl hinside, hkeySize, and_iff_left rfl]
  constructor
  · intro hdrop
    have hlength := congrArg List.length hdrop
    rw [length_drop, hlen] at hlength
    rw [padded] at hspace
    have hle : storedKeySize btree old ≤ old.length := hwf
    omega
  · rintro ⟨hmod, hsame⟩
    rw [padded, hmod, Nat.add_zero] at hspace
    rw [hsame, hnew, hspace, drop_length, append_nil]
    refine drop_left' ?_
    rw [length_take]
    omega

theorem keyRecord_drop (btree : ControlBlock) (key : Key) (data : List UInt8) :
    (keyRecord btree key key.length data).drop (padded (calcKeySize btree key.length)) = data := by
  refine drop_left' ?_
  have hlen := keyRecord_length btree data (Nat.le_refl key.length)
  rw [keyRecord, length_append] at hlen
  omega

theorem storedKeySize_keyRecord (data : List UInt8) (hkey : key.length ≤ 520)
    (hbyte : btree.bigKeys = false → key.length < 2 ^ 8) :
    storedKeySize btree (keyRecord btree key key.length data) = padded (calcKeySize btree key.length) := by
  rw [storedKeySize, storedLength_keyRecord (by omega) hbyte]

theorem Holds.insertKeyRecord_overrun (h : Holds btree node front) (hkey : key.length ≤ 520)
    (hbyte : btree.bigKeys = false → key.length < 2 ^ 8) (hmin : 512 ≤ btree.nodeSize)
    (hrecords : 2 * front.length ≤ front.flatten.length)
    (hroom : Room btree front (keyRecord btree key key.length data).length)
    (hover : ¬ Room btree front
      ((keyRecord btree key key.length data).length + (lengthSize btree - data.length))) :
    NodeBytes.dataAt btree (NodeBytes.insertKeyRecord btree node front.length key key.length data).2 front.length ≠
      some data := by
  have hsize := h.size
  have hfits : descriptorSize + front.flatten.length + (keyRecord btree key key.length data).length +
      2 * (front.length + 2) ≤ btree.nodeSize := hroom
  have hspill : btree.nodeSize < descriptorSize + front.flatten.length +
      ((keyRecord btree key key.length data).length + (lengthSize btree - data.length)) +
      2 * (front.length + 2) := Nat.lt_of_not_le hover
  have htwo : lengthSize btree ≤ 2 := by
    rw [lengthSize]
    split
    · omega
    · omega
  have hpad := padded_lt btree hkey
  have hlen := keyRecord_length btree data (Nat.le_refl key.length)
  have happend : Holds btree node (front ++ []) := by rwa [append_nil]
  obtain ⟨hole, hholeEq⟩ : ∃ hole, hole = NodeBytes.makeHole btree node front.length
      (keyRecord btree key key.length data).length := ⟨_, rfl⟩
  have hhole : Hole btree hole front [] (keyRecord btree key key.length data).length := by
    rw [hholeEq]
    exact happend.makeHole (by rwa [append_nil])
  obtain ⟨bytes, hbytes⟩ : ∃ bytes, bytes = copyRecord btree hole.bytes
      (descriptorSize + front.flatten.length) key key.length data := ⟨_, rfl⟩
  have hinsert : (NodeBytes.insertKeyRecord btree node front.length key key.length data).2 =
      { hole with bytes := bytes } := by
    rw [NodeBytes.insertKeyRecord, keySize_eq hpad, ← hlen, if_neg (not_not.mpr hroom ∘ h.free_lt_iff.mp),
      happend.offset_front, ← hholeEq, hbytes, copyRecord]
  have hat : bytes.At (descriptorSize + front.flatten.length) (keyRecord btree key key.length data) :=
    hbytes ▸ copyRecord_at (Nat.le_refl _) hpad
  have hbehind := copyRecord_behind hole.bytes (descriptorSize + front.flatten.length) btree.nodeSize
    data (Nat.le_refl key.length) hpad
  rw [← hbytes, ← hlen] at hbehind
  have hindex : getRecordOffset btree bytes front.length = descriptorSize + front.flatten.length := by
    have hagree : Memory.Agree bytes hole.bytes (descriptorSize + front.flatten.length +
        (keyRecord btree key key.length data).length + (lengthSize btree - data.length)) btree.nodeSize :=
      (hbehind.mono (Nat.le_add_right _ _) (Nat.le_refl _)).trans
        (Memory.agree_clear (.inr (by omega)))
    rw [getRecordOffset_congr hagree (by omega), hhole.offsets _ (by omega), if_pos (Nat.le_refl _),
      start_front (Nat.le_refl _), start_length]
  -- the high byte of the offset behind the record is cleared
  have hzero : bytes (getOffsetAddress btree (front.length + 1)) = 0 := by
    rw [getOffsetAddress, hbehind _ (by omega) (by omega), Memory.clear, if_pos (by omega)]
  have hnext : getRecordOffset btree bytes (front.length + 1) < 256 := by
    rw [getRecordOffset, Memory.word, hzero]
    have := UInt8.toNat_lt (bytes (getOffsetAddress btree (front.length + 1) + 1))
    simpa using this
  have hlength : keyLengthAt btree bytes (descriptorSize + front.flatten.length) = key.length := by
    rw [keyLengthAt_eq hat (by have := two_le_padded btree key.length; omega),
      storedLength_keyRecord (by omega) hbyte]
  have hcount : hole.numRecords = front.length + 1 := hhole.count
  rw [hinsert, NodeBytes.dataAt, getRecordByIndex, if_neg (by dsimp only; omega), Option.map_some]
  dsimp only
  rw [hindex, hlength, keySize_eq hpad, word16_eq (by omega)]
  intro heq
  have hlengths := congrArg List.length (Option.some.inj heq)
  rw [Memory.read_length, word16Sub] at hlengths
  have hdescriptor : descriptorSize = 14 := rfl
  omega

theorem two_mul_length_le (h : ∀ r ∈ front, 2 ≤ r.length) : 2 * front.length ≤ front.flatten.length := by
  induction front with
  | nil => exact Nat.le_refl _
  | cons r front ih =>
    have hhead := h r (mem_cons_self ..)
    have htail := ih fun x hx => h x (mem_cons_of_mem _ hx)
    rw [flatten_cons, length_append, length_cons]
    omega

theorem clearHead_eq_iff {k : ℕ} :
    clearHead k old = old ↔ old.take k = List.replicate k 0 := by
  constructor
  · intro h
    rw [← h, clearHead]
    exact take_left' length_replicate
  · intro h
    rw [clearHead, ← h, take_append_drop]

theorem Holds.room_deleted (h : Holds btree node (front ++ old :: back)) {size : ℕ} :
    Room btree (front ++ back) size ↔ size ≤ NodeBytes.getNodeFreeSize btree node + old.length := by
  have hfits := h.fits
  rw [h.getNodeFreeSize, Room]
  simp only [flatten_append, flatten_cons, length_append, length_cons] at hfits ⊢
  omega

theorem replaceAt_reinserted {index : ℕ} (hne : spaceNeeded btree key record ≠ getRecordSize btree node.bytes index)
    (hfits : spaceNeeded btree key record ≤ getNodeFreeSize btree node + getRecordSize btree node.bytes index)
    (inserted : Bool × NodeBuffer)
    (hinserted : insertKeyRecord btree (deleteRecord btree node index) index key key.length record = inserted) :
    replaceAt btree node index key record = ⟨true, inserted.2, none, inserted.1⟩ := by
  rw [replaceAt, if_neg hne, if_pos hfits, hinserted]

theorem stores_reinserted (h : Holds btree node (front ++ old :: back))
    (hwf : ∀ r ∈ front ++ back, WellFormed btree r) (hmin : 512 ≤ btree.nodeSize)
    (hkey : key.length ≤ 520) (hbyte : btree.bigKeys = false → key.length < 2 ^ 8)
    (hne : spaceNeeded btree key record ≠ old.length)
    (hfits : spaceNeeded btree key record ≤ getNodeFreeSize btree node + old.length)
    (hwrap : padded (calcKeySize btree key.length) + padded record.length < 2 ^ 16) :
    Stores btree node front.length record (replaceAt btree node front.length key record) ↔
      match back with
      | [] => padded (calcKeySize btree key.length) + max record.length (lengthSize btree) ≤
          getNodeFreeSize btree node + old.length
      | next :: _ => next.take (lengthSize btree - record.length) =
          List.replicate (lengthSize btree - record.length) 0 := by
  have hsize := h.size
  have hin : front.length < (front ++ old :: back).length := by simp
  have hget : (front ++ old :: back)[front.length] = old := by simp
  have hold : getRecordSize btree node.bytes front.length = old.length := by
    rw [h.getRecordSize (by simp), hget]
  have hpad := padded_lt btree hkey
  have hlen := keyRecord_length btree record (Nat.le_refl key.length)
  have hdeleted := h.deleteRecord
  have hreplace : ∀ inserted, insertKeyRecord btree (deleteRecord btree node front.length) front.length key
      key.length record = inserted →
      replaceAt btree node front.length key record = ⟨true, inserted.2, none, inserted.1⟩ :=
    replaceAt_reinserted (by rwa [hold]) (by rwa [hold])
  have hroom : Room btree (front ++ back) (keyRecord btree key key.length record).length := by
    rw [spaceNeeded_eq btree record hkey, Nat.mod_eq_of_lt hwrap] at hfits
    have hle : record.length ≤ padded record.length := Nat.le_add_right _ _
    rw [h.room_deleted, hlen]
    omega
  have hwell : WellFormed btree (keyRecord btree key key.length record) := by
    rw [WellFormed, storedKeySize_keyRecord record hkey hbyte, hlen]
    exact Nat.le_add_right _ _
  have hdrop : (keyRecord btree key key.length record).drop
      (storedKeySize btree (keyRecord btree key key.length record)) = record := by
    rw [storedKeySize_keyRecord record hkey hbyte, keyRecord_drop]
  have hhole := hdeleted.makeHole hroom
  cases back with
  | nil =>
    have hsplit : padded (calcKeySize btree key.length) + max record.length (lengthSize btree) =
        (keyRecord btree key key.length record).length + (lengthSize btree - record.length) := by omega
    dsimp only
    rw [hsplit, ← h.room_deleted]
    by_cases hover : Room btree (front ++ []) ((keyRecord btree key key.length record).length +
        (lengthSize btree - record.length))
    · obtain ⟨hfit, hholds⟩ := hdeleted.insertKeyRecord_room (Nat.le_refl _) hpad [] hroom hroom
        (hhole.spill_free (append_nil front ▸ hover))
      rw [stores_inserted_iff (hreplace _ rfl) h hholds rfl hwell hfit, and_iff_right hdrop]
      exact iff_of_true rfl hover
    · refine iff_of_false (fun hstores => ?_) hover
      rw [append_nil] at hover hdeleted hroom
      have hrecords : 2 * front.length ≤ front.flatten.length :=
        two_mul_length_le fun r hr => (hwf r (mem_append_left _ hr)).two_le
      exact hdeleted.insertKeyRecord_overrun hkey hbyte hmin hrecords hroom hover
        (Stores.inserted_data (hreplace _ rfl) hstores)
  | cons next rest =>
    have htwo : 2 ≤ next.length := (hwf next (by simp)).two_le
    have hspill : lengthSize btree - record.length ≤ next.length := by
      rw [lengthSize]
      split
      · omega
      · omega
    have hclear := clearHead_length hspill
    obtain ⟨hfit, hholds⟩ := hdeleted.insertKeyRecord_room (Nat.le_refl _) hpad
      (clearHead (lengthSize btree - record.length) next :: rest) hroom
      (by simpa [Room, hclear] using hroom) (hhole.spill hspill hroom)
    rw [stores_inserted_iff (hreplace _ rfl) h hholds (by simp) hwell hfit, and_iff_right hdrop]
    rw [List.cons.injEq, and_iff_left rfl, clearHead_eq_iff]

theorem not_stores_of_wrap (h : Holds btree node (front ++ old :: back)) (hkey : key.length ≤ 520)
    (hfits : spaceNeeded btree key record ≤ getNodeFreeSize btree node + old.length)
    (hwrap : 2 ^ 16 ≤ padded (calcKeySize btree key.length) + padded record.length) :
    ¬ Stores btree node front.length record (replaceAt btree node front.length key record) := by
  have hsize := h.size
  have hin : front.length < (front ++ old :: back).length := by simp
  have hget : (front ++ old :: back)[front.length] = old := by simp
  have hold : getRecordSize btree node.bytes front.length = old.length := by
    rw [h.getRecordSize (by simp), hget]
  have hodd : padded record.length ≤ record.length + 1 := by
    rw [padded]
    omega
  have hpad := padded_lt btree hkey
  have hlen := keyRecord_length btree record (Nat.le_refl key.length)
  intro hstores
  by_cases hsame : spaceNeeded btree key record = old.length
  · have hinside := hstores.inside
    rw [replaceAt, hold, if_pos hsame, h.offset_front, keySize_eq hpad] at hinside
    have := hinside _ _ rfl
    omega
  · have hfit := hstores.fit
    have hroom : ¬ Room btree (front ++ back) (keyRecord btree key key.length record).length := by
      rw [Room]
      omega
    rw [replaceAt, hold, if_neg hsame, if_pos hfits,
      h.deleteRecord.insertKeyRecord_full (Nat.le_refl _) hpad hroom] at hfit
    cases hfit

theorem replaceAt_iff (h : Holds btree node (front ++ old :: back))
    (hwf : ∀ r ∈ front ++ old :: back, WellFormed btree r) (hmin : 512 ≤ btree.nodeSize)
    (hkey : key.length ≤ 520) (hbyte : btree.bigKeys = false → key.length < 2 ^ 8)
    (hfits : spaceNeeded btree key record ≤ getNodeFreeSize btree node + old.length) :
    Stores btree node front.length record (replaceAt btree node front.length key record) ↔
      Replaceable btree node front.length key record := by
  have hin : front.length < (front ++ old :: back).length := by simp
  have hget : (front ++ old :: back)[front.length] = old := by simp
  have hold : getRecordSize btree node.bytes front.length = old.length := by
    rw [h.getRecordSize (by simp), hget]
  have hrecord : recordAt btree node front.length = old := by
    rw [h.recordAt (by simp), hget]
  by_cases hwrap : padded (calcKeySize btree key.length) + padded record.length < 2 ^ 16
  · have hneeded := spaceNeeded_eq btree record hkey
    rw [Nat.mod_eq_of_lt hwrap] at hneeded
    rw [Replaceable, and_iff_right hwrap, hold, hrecord, ← hneeded]
    by_cases hsame : spaceNeeded btree key record = old.length
    · rw [if_pos hsame]
      exact stores_same h (hwf old (by simp)) hkey (hneeded.symm.trans hsame)
    · have hothers : ∀ r ∈ front ++ back, WellFormed btree r := by
        intro r hr
        rcases mem_append.mp hr with hr | hr
        · exact hwf r (by simp [hr])
        · exact hwf r (by simp [hr])
      rw [if_neg hsame, stores_reinserted h hothers hmin hkey hbyte hsame hfits hwrap]
      cases back with
      | nil => rw [if_neg (by rw [h.count]; simp)]
      | cons next rest =>
        have hnext : recordAt btree node (front.length + 1) = next := by
          rw [h.recordAt (by simp)]
          simp [getElem_append_right]
        rw [if_pos (by rw [h.count]; simp), hnext]
  · refine iff_of_false (not_stores_of_wrap h hkey hfits (Nat.le_of_not_lt hwrap)) ?_
    rintro ⟨hlt, -⟩
    exact hwrap hlt

end replace

theorem searchNode_lt {btree : ControlBlock} {compareProc : Key → Key → Ordering} {node : NodeBuffer}
    {key : Key} {index : ℕ} (h : searchNode btree compareProc node key = (true, index)) :
    index < node.numRecords := by
  have hfound : (bisect (compareProc key) (trialKeys btree node) node.numRecords 0
      (node.numRecords - 1)).1 = true := congrArg Prod.fst h
  obtain ⟨trialKey, hget, -⟩ := bisect_found hfound
  have hindex : (bisect (compareProc key) (trialKeys btree node) node.numRecords 0
      (node.numRecords - 1)).2 = index := congrArg Prod.snd h
  rw [hindex] at hget
  obtain ⟨hlt, -⟩ := List.getElem?_eq_some_iff.mp hget
  simpa [trialKeys] using hlt

theorem replaceAt_inserted_iff {btree : ControlBlock} {node : NodeBuffer} {index : ℕ} {key : Key}
    {record : List UInt8} : (replaceAt btree node index key record).recordInserted = true ↔
      spaceNeeded btree key record ≤
        getNodeFreeSize btree node + getRecordSize btree node.bytes index := by
  by_cases hsame : spaceNeeded btree key record = getRecordSize btree node.bytes index
  · rw [replaceAt, if_pos hsame]
    exact iff_of_true rfl (by omega)
  · by_cases hfits : spaceNeeded btree key record ≤
        getNodeFreeSize btree node + getRecordSize btree node.bytes index
    · rw [replaceAt_reinserted hsame hfits _ rfl]
      exact iff_of_true rfl hfits
    · rw [replaceAt, if_neg hsame, if_neg hfits]
      exact iff_of_false Bool.false_ne_true hfits

/-- `TrySimpleReplace` stores the new record, in every well-formed leaf and for every key and
record, when the record found is replaceable. -/
theorem trySimpleReplace_iff (btree : ControlBlock) (compareProc : Key → Key → Ordering)
    (node : NodeBuffer) (records : List (List UInt8)) (key : Key) (record : List UInt8)
    (hleaf : node.type = .leaf) (h : Holds btree node records)
    (hwf : ∀ r ∈ records, WellFormed btree r) (hmin : 512 ≤ btree.nodeSize) (hkey : key.length ≤ 520)
    (hbyte : btree.bigKeys = false → key.length < 2 ^ 8) :
    ((trySimpleReplace btree compareProc node key record).recordInserted = true →
        ∃ index, searchNode btree compareProc node key = (true, index) ∧
          Stores btree node index record (trySimpleReplace btree compareProc node key record)) ↔
      ∀ index, searchNode btree compareProc node key = (true, index) →
        spaceNeeded btree key record ≤
          getNodeFreeSize btree node + getRecordSize btree node.bytes index →
        Replaceable btree node index key record := by
  obtain ⟨foundIt, index, hsearch⟩ : ∃ foundIt index,
      searchNode btree compareProc node key = (foundIt, index) := ⟨_, _, rfl⟩
  cases foundIt with
  | false =>
    have hresult : trySimpleReplace btree compareProc node key record = ⟨false, node, none, true⟩ := by
      rw [trySimpleReplace, if_neg (not_not.mpr hleaf), hsearch]
      rfl
    rw [hresult, hsearch]
    exact iff_of_true (fun h => absurd h Bool.false_ne_true)
      (fun index h => absurd (congrArg Prod.fst h) Bool.false_ne_true)
  | true =>
    have hresult : trySimpleReplace btree compareProc node key record =
        replaceAt btree node index key record := by
      rw [trySimpleReplace, if_neg (not_not.mpr hleaf), hsearch]
      rfl
    have hindex : index < records.length := h.count ▸ searchNode_lt hsearch
    have hat : (spaceNeeded btree key record ≤
          getNodeFreeSize btree node + getRecordSize btree node.bytes index) →
        (Stores btree node index record (replaceAt btree node index key record) ↔
          Replaceable btree node index key record) := by
      intro hfits
      have hlength : (records.take index).length = index := by
        rw [length_take]
        omega
      have hsplit : records = records.take index ++ records[index] :: records.drop (index + 1) := by
        rw [getElem_cons_drop, take_append_drop]
      rw [h.getRecordSize hindex] at hfits
      have hiff : Stores btree node (records.take index).length record
          (replaceAt btree node (records.take index).length key record) ↔
          Replaceable btree node (records.take index).length key record :=
        replaceAt_iff (hsplit ▸ h) (hsplit ▸ hwf) hmin hkey hbyte hfits
      rwa [hlength] at hiff
    rw [hresult, replaceAt_inserted_iff, hsearch]
    constructor
    · intro hstores index' heq hfits
      cases heq
      obtain ⟨index', heq, hstored⟩ := hstores hfits
      cases heq
      exact (hat hfits).mp hstored
    · intro hreplaceable hfits
      exact ⟨index, rfl, (hat hfits).mpr (hreplaceable index rfl hfits)⟩

/-! ## A leaf with one record -/

/-- Keys are compared by their first byte. -/
def compareFirst : Key → Key → Ordering := compareOn (fun key => (key.headD 0).toNat)

def smallTree : ControlBlock := ⟨512, false, false, 8⟩

/-- Six bytes under a key of length one. -/
def oneRecordLeaf : NodeBuffer :=
  (insertKeyRecord smallTree (newNode smallTree .leaf 0 0) 0 [1] 1 [1, 2, 3, 4, 5, 6]).2

theorem oneRecordLeaf_holds : Holds smallTree oneRecordLeaf [[1, 1, 1, 2, 3, 4, 5, 6]] :=
  (@Holds.insertKeyRecord smallTree _ [] [] [1, 2, 3, 4, 5, 6] [1] 1
    (newNode_holds .leaf 0 0 (by decide) (by decide)) (by decide) (by decide) (by decide)).2

theorem oneRecordLeaf_wellFormed : ∀ r ∈ [[1, 1, 1, 2, 3, 4, 5, 6]], WellFormed smallTree r := by
  intro r hr
  obtain rfl := mem_singleton.mp hr
  rw [WellFormed]
  decide

/-- A second record behind it, of two bytes under the key `[2]`. -/
def twoRecordLeaf : NodeBuffer :=
  (insertKeyRecord smallTree oneRecordLeaf 1 [2] 1 [7, 7]).2

theorem twoRecordLeaf_holds :
    Holds smallTree twoRecordLeaf [[1, 1, 1, 2, 3, 4, 5, 6], [1, 2, 7, 7]] :=
  (@Holds.insertKeyRecord smallTree _ [[1, 1, 1, 2, 3, 4, 5, 6]] [] [7, 7] [2] 1
    oneRecordLeaf_holds (by decide) (by decide) (by decide)).2

theorem twoRecordLeaf_wellFormed :
    ∀ r ∈ [[1, 1, 1, 2, 3, 4, 5, 6], [1, 2, 7, 7]], WellFormed smallTree r := by
  intro r hr
  rcases mem_pair.mp hr with rfl | rfl
  · exact oneRecordLeaf_wellFormed _ mem_cons_self
  · rw [WellFormed]
    decide

/-- The first of two records is deleted and inserted again, shorter by two bytes. -/
theorem trySimpleReplace_iff_twoRecords :
    (trySimpleReplace smallTree compareFirst twoRecordLeaf [1] [9, 8, 7, 6]).recordInserted = true ∧
      ∃ index, searchNode smallTree compareFirst twoRecordLeaf [1] = (true, index) ∧
        Stores smallTree twoRecordLeaf index [9, 8, 7, 6]
          (trySimpleReplace smallTree compareFirst twoRecordLeaf [1] [9, 8, 7, 6]) := by
  have hinserted : (trySimpleReplace smallTree compareFirst twoRecordLeaf [1] [9, 8, 7, 6]).recordInserted = true := by
    decide +kernel
  refine ⟨hinserted, (trySimpleReplace_iff smallTree compareFirst twoRecordLeaf
    [[1, 1, 1, 2, 3, 4, 5, 6], [1, 2, 7, 7]] [1] [9, 8, 7, 6] rfl twoRecordLeaf_holds
    twoRecordLeaf_wellFormed (by decide) (by decide) (by decide)).mpr ?_ hinserted⟩
  intro index hsearch _
  obtain rfl : 0 = index := by
    have hfirst : searchNode smallTree compareFirst twoRecordLeaf [1] = (true, 0) := by decide +kernel
    exact congrArg Prod.snd (hfirst.symm.trans hsearch)
  rw [Replaceable]
  decide +kernel

/-- A key of the same space but of another size: four bytes are stored behind the longer key, and
six bytes are read behind the shorter one. -/
theorem longer_key_misplaces : Std.TransCmp compareFirst ∧
    Holds smallTree oneRecordLeaf [[1, 1, 1, 2, 3, 4, 5, 6]] ∧
    (∀ r ∈ [[1, 1, 1, 2, 3, 4, 5, 6]], WellFormed smallTree r) ∧
    searchNode smallTree compareFirst oneRecordLeaf [1, 0, 0] = (true, 0) ∧
    (trySimpleReplace smallTree compareFirst oneRecordLeaf [1, 0, 0] [9, 8, 7, 6]).recordInserted = true ∧
    dataAt smallTree (trySimpleReplace smallTree compareFirst oneRecordLeaf [1, 0, 0] [9, 8, 7, 6]).node 0 =
      some [1, 2, 9, 8, 7, 6] := by
  refine ⟨?_, oneRecordLeaf_holds, oneRecordLeaf_wellFormed, by decide +kernel, by decide +kernel,
    by decide +kernel⟩
  rw [compareFirst]
  infer_instance

end Darwin.Hfs.NodeBytes
