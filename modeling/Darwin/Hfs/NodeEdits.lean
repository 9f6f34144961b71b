import Darwin.Hfs.NodeBytes

/-! # Edits of a node are exact

`InsertKeyRecord`, `InsertRecord` and `DeleteRecord` of `BTreeNodeOps.c` on a node whose records are
of even sizes. What `InsertKeyRecord` clears behind the key is as long as the length field and the
pad bytes; with a record part that is empty it reaches behind the new record.
-/
namespace Darwin.Hfs.NodeBytes
open Darwin.Lib List

/-- The offsets of the records are even and strictly increasing. -/
structure Proper (btree : ControlBlock) (node : NodeBuffer) (records : List (List UInt8)) : Prop where
  holds : Holds btree node records
  even : ∀ record ∈ records, record ≠ [] ∧ record.length % 2 = 0

/-- The record is inserted just where the free space is enough for it and its offset, nothing else
changes, and deleting the record brings the records back. -/
structure Exact (btree : ControlBlock) (node : NodeBuffer) (front back : List (List UInt8))
    (record : List UInt8) (result : Bool × NodeBuffer) : Prop where
  succeeds : result.1 = true ↔ record.length + 2 ≤ getNodeFreeSize btree node
  inserted : result.1 = true → Proper btree result.2 (front ++ record :: back)
  refused : result.1 = false → result.2 = node
  restored : result.1 = true → Proper btree (deleteRecord btree result.2 front.length) (front ++ back)

/-- All edits at one place of the node, and the deletion of any of its records. -/
structure EditsExact (btree : ControlBlock) (node : NodeBuffer) (front back : List (List UInt8))
    (key : Key) (keyLength : ℕ) (data record : List UInt8) : Prop where
  insertKeyRecord : Exact btree node front back (keyRecord btree key keyLength data)
    (insertKeyRecord btree node front.length key keyLength data)
  insertRecord : Exact btree node front back record (insertRecord btree node front.length record)
  deleteRecord : ∀ front' deleted back', front ++ back = front' ++ deleted :: back' →
    Proper btree (deleteRecord btree node front'.length) (front' ++ back')

/-- The size of a new record behind `front` and the bytes of the length field reach up to the
offset of the free space, whose upper byte is zero. -/
def ClearsZero (btree : ControlBlock) (front : List (List UInt8)) (size : ℕ) : Prop :=
  descriptorSize + front.flatten.length + size + lengthSize btree + 2 * (front.length + 2) =
      btree.nodeSize + 1 ∧
    descriptorSize + front.flatten.length + size < 2 ^ 8

/-- The bytes that are cleared behind a new record with an empty record part are zero already, or
belong to the free space. -/
def SpillHarmless (btree : ControlBlock) (front back : List (List UInt8)) (size : ℕ) : Prop :=
  match back with
  | next :: _ => next.take (lengthSize btree) = List.replicate (lengthSize btree) 0
  | [] => Room btree front (size + lengthSize btree) ∨ ClearsZero btree front size

/-- Where a record has room, its record part must not be empty, or the bytes behind it must bear to
be cleared; where it has none, the size of the key must not wrap around to one that has. -/
def KeyRecordSafe (btree : ControlBlock) (front back : List (List UInt8)) (keyLength : ℕ)
    (data : List UInt8) : Prop :=
  if Room btree (front ++ back) (padded (calcKeySize btree keyLength) + data.length) then
    data ≠ [] ∨ SpillHarmless btree front back (padded (calcKeySize btree keyLength))
  else ¬ Room btree (front ++ back) (word16 (padded (word16 (calcKeySize btree keyLength))) + data.length)

section edits
variable {btree : ControlBlock} {node : NodeBuffer} {records front back : List (List UInt8)}
  {record next next' data : List UInt8} {key : Key} {keyLength size : ℕ}

theorem Holds.size_le_free (h : Holds btree node records) :
    size + 2 ≤ NodeBytes.getNodeFreeSize btree node ↔ Room btree records size := by
  rw [← not_lt, h.free_lt_iff, not_not]

theorem lengthSize_le (btree : ControlBlock) : 1 ≤ lengthSize btree ∧ lengthSize btree ≤ 2 := by
  rw [lengthSize]
  cases btree.bigKeys with
  | false => exact ⟨by decide, by decide⟩
  | true => exact ⟨by decide, by decide⟩

theorem Holds.next_eq (h : Holds btree node (front ++ record :: next :: back))
    (h' : Holds btree node (front ++ record :: next' :: back)) (hlen : next.length = next'.length) :
    next = next' := by
  have hat := h.contents
  have hat' := h'.contents
  simp only [flatten_append, flatten_cons, Memory.at_append] at hat hat'
  exact hat.2.2.1.unique hat'.2.2.1 hlen

theorem Proper.delete (h : Proper btree node (front ++ record :: back)) :
    Proper btree (deleteRecord btree node front.length) (front ++ back) := by
  refine ⟨h.holds.deleteRecord, fun r hr => h.even r ?_⟩
  rcases mem_append.mp hr with hr | hr
  · exact mem_append_left _ hr
  · exact mem_append_right _ (mem_cons_of_mem _ hr)

theorem Exact.of_holds {result : NodeBuffer} (h : Proper btree node (front ++ back))
    (hroom : Room btree (front ++ back) record.length) (hrecord : record ≠ [] ∧ record.length % 2 = 0)
    (hresult : Holds btree result (front ++ record :: back)) :
    Exact btree node front back record (true, result) := by
  have hproper : Proper btree result (front ++ record :: back) := by
    refine ⟨hresult, fun r hr => ?_⟩
    rcases mem_append.mp hr with hr | hr
    · exact h.even r (mem_append_left _ hr)
    · rcases mem_cons.mp hr with rfl | hr
      · exact hrecord
      · exact h.even r (mem_append_right _ hr)
  exact ⟨iff_of_true rfl (h.holds.size_le_free.mpr hroom), fun _ => hproper,
    fun hnot => Bool.noConfusion hnot, fun _ => hproper.delete⟩

theorem Exact.of_refused (h : Proper btree node (front ++ back))
    (hroom : ¬ Room btree (front ++ back) record.length) :
    Exact btree node front back record (false, node) :=
  ⟨iff_of_false Bool.false_ne_true (hroom ∘ h.holds.size_le_free.mp),
    fun hdone => absurd hdone Bool.false_ne_true, fun _ => rfl,
    fun hdone => absurd hdone Bool.false_ne_true⟩

theorem eq_mk_of_fst {α β : Type} {p : α × β} {a : α} (h : p.1 = a) : p = (a, p.2) := by
  rw [← h]

theorem insertRecord_exact_iff (h : Proper btree node (front ++ back)) (heven : record.length % 2 = 0) :
    Exact btree node front back record (insertRecord btree node front.length record) ↔
      record ≠ [] ∨ ¬ Room btree (front ++ back) 0 := by
  obtain ⟨hdone, hholds⟩ := h.holds.insertRecord record
  by_cases hroom : Room btree (front ++ back) record.length
  · rw [decide_eq_true hroom] at hdone
    rw [if_pos hroom] at hholds
    constructor
    · intro hexact
      left
      exact ((hexact.inserted hdone).even record (by simp)).1
    · rintro (hne | hempty)
      · have hpair : NodeBytes.insertRecord btree node front.length record =
            (true, (NodeBytes.insertRecord btree node front.length record).2) := eq_mk_of_fst hdone
        rw [hpair]
        exact Exact.of_holds h hroom ⟨hne, heven⟩ hholds
      · rw [Room] at hroom hempty
        omega
  · have hrefused : NodeBytes.insertRecord btree node front.length record = (false, node) := by
      rw [NodeBytes.insertRecord, if_pos (h.holds.free_lt_iff.mpr hroom)]
    rw [hrefused]
    refine iff_of_true (Exact.of_refused h hroom) ?_
    by_cases hne : record = []
    · rw [hne] at hroom
      exact .inr hroom
    · exact .inl hne

theorem insertKeyRecord_succeeds (index : ℕ) (key : Key) :
    (NodeBytes.insertKeyRecord btree node index key keyLength data).1 = true ↔
      word16 (padded (word16 (calcKeySize btree keyLength))) + data.length + 2 ≤
        getNodeFreeSize btree node := by
  rw [NodeBytes.insertKeyRecord]
  dsimp only
  by_cases hfull : getNodeFreeSize btree node <
      word16 (padded (word16 (calcKeySize btree keyLength))) + data.length + 2
  · rw [if_pos hfull]
    exact iff_of_false Bool.false_ne_true (Nat.not_le.mpr hfull)
  · rw [if_neg hfull]
    exact iff_of_true rfl (Nat.le_of_not_lt hfull)

theorem Holds.insertKeyRecord_eq (h : Holds btree node (front ++ back)) (hkey : key.length ≤ keyLength)
    (hsize : padded (calcKeySize btree keyLength) < 2 ^ 16)
    (hroom : Room btree (front ++ back) (keyRecord btree key keyLength data).length) :
    NodeBytes.insertKeyRecord btree node front.length key keyLength data =
      (true, { NodeBytes.makeHole btree node front.length (keyRecord btree key keyLength data).length with
        bytes := copyRecord btree (NodeBytes.makeHole btree node front.length
            (keyRecord btree key keyLength data).length).bytes
          (descriptorSize + front.flatten.length) key keyLength data }) := by
  rw [NodeBytes.insertKeyRecord, keySize_eq hsize, ← keyRecord_length btree data hkey,
    if_neg (not_not.mpr hroom ∘ h.free_lt_iff.mp), h.offset_front]
  rfl

theorem Hole.free {hole : NodeBuffer} (h : Hole btree hole front [] size) :
    getRecordOffset btree hole.bytes (front.length + 1) =
      descriptorSize + front.flatten.length + size := by
  rw [h.offsets _ (by simp), if_neg (by omega), append_nil, Nat.add_sub_cancel, start_length]

theorem Hole.spill_zero {hole : NodeBuffer} (h : Hole btree hole front [] size)
    (hzero : ClearsZero btree front size) :
    Hole btree { hole with
        bytes := hole.bytes.clear (descriptorSize + front.flatten.length + size) (lengthSize btree) }
      front [] size := by
  obtain ⟨hreach, hsmall⟩ := hzero
  have hlength := lengthSize_le btree
  have hfree := h.free
  refine ⟨h.count, fun i hi => ?_, ?_, Memory.at_nil⟩
  · rw [← h.offsets i hi]
    rw [length_nil] at hi
    by_cases hlast : i = front.length + 1
    · rw [hlast, hfree]
      rw [getRecordOffset, getOffsetAddress] at hfree ⊢
      rw [Memory.word_clear_upper (by omega) (by omega), hfree]
      omega
    · exact getRecordOffset_congr
        (b := descriptorSize + front.flatten.length + size + lengthSize btree)
        (Memory.agree_clear (.inr (Nat.le_refl _))) (by omega)
  · exact h.before.congr (Memory.agree_clear (.inl (Nat.le_add_right _ _)))

theorem Hole.spill_breaks {hole : NodeBuffer} (h : Hole btree hole front [] size)
    (hroom : Room btree front size) (hmore : ¬ Room btree front (size + lengthSize btree))
    (hzero : ¬ ClearsZero btree front size) :
    getRecordOffset btree
        (hole.bytes.clear (descriptorSize + front.flatten.length + size) (lengthSize btree))
        (front.length + 1) ≠ descriptorSize + front.flatten.length + size := by
  have hfree := h.free
  have hlength := lengthSize_le btree
  rw [Room] at hroom hmore
  rw [getRecordOffset, getOffsetAddress] at hfree ⊢
  by_cases hone : descriptorSize + front.flatten.length + size + lengthSize btree +
      2 * (front.length + 2) = btree.nodeSize + 1
  · rw [Memory.word_clear_upper (by omega) (by omega), hfree]
    intro hmod
    exact hzero ⟨hone, by omega⟩
  · rw [Memory.word_clear_both (by omega) (by omega)]
    rw [descriptorSize]
    omega

/-- With an empty record part: the record behind the new one begins with the bytes that are
cleared, or the offset of the free space does. -/
theorem insertKeyRecord_empty_iff (h : Proper btree node (front ++ back)) (hkey : key.length ≤ keyLength)
    (hsize : padded (calcKeySize btree keyLength) < 2 ^ 16)
    (hroom : Room btree (front ++ back) (keyRecord btree key keyLength []).length) :
    Exact btree node front back (keyRecord btree key keyLength [])
        (insertKeyRecord btree node front.length key keyLength []) ↔
      SpillHarmless btree front back (padded (calcKeySize btree keyLength)) := by
  have hlen : (keyRecord btree key keyLength []).length = padded (calcKeySize btree keyLength) :=
    keyRecord_length btree [] hkey
  have hrecord : keyRecord btree key keyLength [] ≠ [] ∧ (keyRecord btree key keyLength []).length % 2 = 0 := by
    have htwo := two_le_padded btree keyLength
    refine ⟨ne_nil_of_length_pos (by omega), ?_⟩
    rw [hlen, padded]
    omega
  have hlength := lengthSize_le btree
  have hhole := h.holds.makeHole hroom
  have hclear : ∀ hole offset, clearSpill btree [] hole offset =
      { hole with bytes := hole.bytes.clear offset (lengthSize btree) } := fun _ _ => rfl
  cases back with
  | cons next back =>
    have hnext := h.even next (by simp)
    have htwo : lengthSize btree ≤ next.length := by
      have hpos := length_pos_iff.mpr hnext.1
      omega
    obtain ⟨hdone, hholds⟩ := h.holds.insertKeyRecord_room hkey hsize
      (clearHead (lengthSize btree) next :: back) hroom
      (by
        have hflat := clearHead_length htwo
        rw [Room] at hroom ⊢
        simp only [flatten_append, flatten_cons, length_append, length_cons] at hroom ⊢
        omega)
      (by
        rw [hclear]
        exact hhole.spill htwo hroom)
    constructor
    · intro hexact
      have heq := (hexact.inserted hdone).holds.next_eq hholds (clearHead_length htwo).symm
      rw [clearHead] at heq
      show next.take (lengthSize btree) = List.replicate (lengthSize btree) 0
      rw [heq, take_left' length_replicate]
    · intro hzero
      have heq : clearHead (lengthSize btree) next = next := by
        rw [clearHead, ← show next.take (lengthSize btree) = List.replicate (lengthSize btree) 0 from hzero,
          take_append_drop]
      rw [heq] at hholds
      have hpair : NodeBytes.insertKeyRecord btree node front.length key keyLength [] =
          (true, (NodeBytes.insertKeyRecord btree node front.length key keyLength []).2) :=
        eq_mk_of_fst hdone
      rw [hpair]
      exact Exact.of_holds h hroom hrecord hholds
  | nil =>
    rw [SpillHarmless, ← hlen]
    have hharmless : Hole btree (clearSpill btree [] (NodeBytes.makeHole btree node front.length
          (keyRecord btree key keyLength []).length)
        (descriptorSize + front.flatten.length + (keyRecord btree key keyLength []).length)) front []
          (keyRecord btree key keyLength []).length →
        Exact btree node front [] (keyRecord btree key keyLength [])
          (insertKeyRecord btree node front.length key keyLength []) := by
      intro hspilled
      obtain ⟨hdone, hholds⟩ := h.holds.insertKeyRecord_room hkey hsize [] hroom hroom hspilled
      have hpair : NodeBytes.insertKeyRecord btree node front.length key keyLength [] =
          (true, (NodeBytes.insertKeyRecord btree node front.length key keyLength []).2) :=
        eq_mk_of_fst hdone
      rw [hpair]
      exact Exact.of_holds h hroom hrecord hholds
    constructor
    · intro hexact
      by_contra hharm
      rw [not_or] at hharm
      have hroom' : Room btree front (keyRecord btree key keyLength []).length := by
        rwa [append_nil] at hroom
      have hbreaks := hhole.spill_breaks hroom' hharm.1 hharm.2
      have heq := h.holds.insertKeyRecord_eq hkey hsize hroom
      have hoffset := (hexact.inserted (by rw [heq])).holds.offsets (front.length + 1) (by simp)
      apply hbreaks
      rw [heq] at hoffset
      have hstart : start (front ++ [keyRecord btree key keyLength []]) (front.length + 1) =
          descriptorSize + front.flatten.length + (keyRecord btree key keyLength []).length := by
        rw [start_behind (i := front.length + 1) (Nat.lt_succ_self _), append_nil,
          Nat.add_sub_cancel, start_length]
      refine Eq.trans ?_ (hoffset.trans hstart)
      rw [Room] at hroom'
      refine (getRecordOffset_congr (b := descriptorSize + front.flatten.length +
        (keyRecord btree key keyLength []).length) ?_ (by omega)).symm
      have hbehind := @copyRecord_behind btree key keyLength (NodeBytes.makeHole btree node front.length
        (keyRecord btree key keyLength []).length).bytes (descriptorSize + front.flatten.length)
        btree.nodeSize [] hkey hsize
      rw [← keyRecord_length btree [] hkey] at hbehind
      exact hbehind
    · rintro (hmore | hzero)
      · exact hharmless (hhole.spill_free hmore)
      · exact hharmless (hhole.spill_zero hzero)

theorem insertKeyRecord_exact_iff (h : Proper btree node (front ++ back)) (hkey : key.length ≤ keyLength)
    (hdata : data.length % 2 = 0) :
    Exact btree node front back (keyRecord btree key keyLength data)
        (insertKeyRecord btree node front.length key keyLength data) ↔
      KeyRecordSafe btree front back keyLength data := by
  have hlen := keyRecord_length btree data hkey
  have htwo := two_le_padded btree keyLength
  rw [KeyRecordSafe, ← hlen]
  by_cases hroom : Room btree (front ++ back) (keyRecord btree key keyLength data).length
  · rw [if_pos hroom]
    have hsize : padded (calcKeySize btree keyLength) < 2 ^ 16 := by
      have hnode := h.holds.size
      rw [Room] at hroom
      omega
    by_cases hempty : data = []
    · subst hempty
      rw [insertKeyRecord_empty_iff h hkey hsize hroom]
      simp
    · refine iff_of_true ?_ (.inl hempty)
      have hlength := lengthSize_le btree
      have hpos := length_pos_iff.mpr hempty
      obtain ⟨hdone, hholds⟩ := h.holds.insertKeyRecord hkey hsize (show lengthSize btree ≤ data.length by omega)
      rw [decide_eq_true hroom] at hdone
      rw [if_pos hroom] at hholds
      have hpair : NodeBytes.insertKeyRecord btree node front.length key keyLength data =
          (true, (NodeBytes.insertKeyRecord btree node front.length key keyLength data).2) :=
        eq_mk_of_fst hdone
      rw [hpair]
      refine Exact.of_holds h hroom ⟨ne_nil_of_length_pos (by omega), ?_⟩ hholds
      rw [hlen, padded]
      omega
  · rw [if_neg hroom, ← h.holds.size_le_free, ← insertKeyRecord_succeeds front.length
      key]
    constructor
    · intro hexact hdone
      exact hroom (h.holds.size_le_free.mp (hexact.succeeds.mp hdone))
    · intro hnot
      have hrefused : NodeBytes.insertKeyRecord btree node front.length key keyLength data =
          (false, node) := by
        rw [insertKeyRecord_succeeds, not_le] at hnot
        rw [NodeBytes.insertKeyRecord, if_pos hnot]
      rw [hrefused]
      exact Exact.of_refused h hroom

/-- The edits of a well-formed node are exact just where the inserted key is safe and the whole
record is not empty, or has no room. -/
theorem edits_exact_iff (h : Proper btree node (front ++ back)) (hkey : key.length ≤ keyLength)
    (hdata : data.length % 2 = 0) (hrecord : record.length % 2 = 0) :
    EditsExact btree node front back key keyLength data record ↔
      KeyRecordSafe btree front back keyLength data ∧
        (record ≠ [] ∨ ¬ Room btree (front ++ back) 0) := by
  constructor
  · intro hexact
    exact ⟨(insertKeyRecord_exact_iff h hkey hdata).mp hexact.insertKeyRecord,
      (insertRecord_exact_iff h hrecord).mp hexact.insertRecord⟩
  · rintro ⟨hsafe, hwhole⟩
    refine ⟨(insertKeyRecord_exact_iff h hkey hdata).mpr hsafe,
      (insertRecord_exact_iff h hrecord).mpr hwhole, fun front' deleted back' heq => ?_⟩
    rw [heq] at h
    exact h.delete

end edits

theorem oneKey_proper : Proper ⟨512, false, false, 8⟩
    (insertRecord ⟨512, false, false, 8⟩ (newNode ⟨512, false, false, 8⟩ .leaf 0 0) 0 [1, 1, 5, 6]).2
    [[1, 1, 5, 6]] := by
  refine ⟨(@Holds.insertRecord ⟨512, false, false, 8⟩ _ [] []
    (newNode_holds .leaf 0 0 (by decide) (by decide)) [1, 1, 5, 6]).2, fun r hr => ?_⟩
  obtain rfl := mem_singleton.mp hr
  exact ⟨by decide, by decide⟩

/-- A record of two bytes in front of the one that is there. -/
theorem edits_exact_one : EditsExact ⟨512, false, false, 8⟩
    (insertRecord ⟨512, false, false, 8⟩ (newNode ⟨512, false, false, 8⟩ .leaf 0 0) 0 [1, 1, 5, 6]).2
    [] [[1, 1, 5, 6]] [0] 1 [7, 8] [1, 0, 7, 8] :=
  (@edits_exact_iff _ _ [] [[1, 1, 5, 6]] [1, 0, 7, 8] [7, 8] [0] 1 oneKey_proper (by decide) (by decide) (by decide)).mpr
    ⟨by rw [KeyRecordSafe]; exact .inl (by decide), .inl (by decide)⟩

/-- An empty record part in front of that record: the first byte behind it, the length of the next
key, is cleared. -/
theorem edits_not_exact : ¬ EditsExact ⟨512, false, false, 8⟩
    (insertRecord ⟨512, false, false, 8⟩ (newNode ⟨512, false, false, 8⟩ .leaf 0 0) 0 [1, 1, 5, 6]).2
    [] [[1, 1, 5, 6]] [0] 1 [] [1, 0] := by
  intro hexact
  have hsafe := (insertKeyRecord_exact_iff oneKey_proper (by decide) (by decide)).mp
    hexact.insertKeyRecord
  rw [KeyRecordSafe, if_pos (by decide)] at hsafe
  rcases hsafe with hne | hzero
  · exact hne rfl
  · exact absurd hzero (by rw [SpillHarmless]; decide)

end Darwin.Hfs.NodeBytes
