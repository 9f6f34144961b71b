import Darwin.Hfs.SimpleReplace

/-! # The size limit of new records

`CheckInsertParams` of `BTreeMiscOps.c`. The size of the key, with its length field, and the size of
the record are rounded up to words and added in 16 bits, and the sum is compared with half a node.
-/
namespace Darwin.Hfs.NodeBytes

/-- The errors of `CheckInsertParams`. -/
inductive InsertParamsError where
  | paramErr
  | fsBTInvalidFileErr
  | fsBTRecordTooLargeErr
  deriving DecidableEq, Repr

/-- Of the iterator it is the length of its key that counts. A pointer that is nil is `none`. -/
def checkInsertParams (filePtr : Option (Option ControlBlock)) (iterator : Option ℕ)
    (record : Option (List UInt8)) (recordLen : ℕ) : Except InsertParamsError Unit :=
  match filePtr with
  | none => .error .paramErr
  | some none => .error .fsBTInvalidFileErr
  | some (some btree) =>
    match iterator, record with
    | some keyLength, some _ =>
      if btree.nodeSize / 2 < calcKeyRecordSize (word16 (calcKeySize btree keyLength)) recordLen then
        .error .fsBTRecordTooLargeErr
      else .ok ()
    | _, _ => .error .paramErr

/-- The size that a new record takes in a node. -/
def trueSize (btree : ControlBlock) (keyLength recordLen : ℕ) : ℕ :=
  padded (calcKeySize btree keyLength) + padded recordLen

/-- The size is at most half a node, and it is what `CalcKeyRecordSize` says. -/
def Admitted (btree : ControlBlock) (keyLength recordLen : ℕ) : Prop :=
  trueSize btree keyLength recordLen ≤ btree.nodeSize / 2 ∧
    calcKeyRecordSize (word16 (calcKeySize btree keyLength)) recordLen = trueSize btree keyLength recordLen

theorem calcKeyRecordSize_mod (btree : ControlBlock) (keyLength recordLen : ℕ) :
    calcKeyRecordSize (word16 (calcKeySize btree keyLength)) recordLen =
      trueSize btree keyLength recordLen % 2 ^ 16 := by
  have hkey : word16 (padded (word16 (calcKeySize btree keyLength))) =
      padded (calcKeySize btree keyLength) % 2 ^ 16 := by
    rw [word16, word16, padded, padded]
    omega
  rw [calcKeyRecordSize, hkey, word16, word16, trueSize, ← Nat.add_mod]

theorem checkInsertParams_ok {btree : ControlBlock} {keyLength recordLen : ℕ} {record : List UInt8} :
    checkInsertParams (some (some btree)) (some keyLength) (some record) recordLen = .ok () ↔
      trueSize btree keyLength recordLen % 2 ^ 16 ≤ btree.nodeSize / 2 := by
  rw [checkInsertParams, calcKeyRecordSize_mod]
  by_cases hlarge : btree.nodeSize / 2 < trueSize btree keyLength recordLen % 2 ^ 16
  · rw [if_pos hlarge]
    exact iff_of_false nofun (Nat.not_le.mpr hlarge)
  · rw [if_neg hlarge]
    exact iff_of_true rfl (Nat.le_of_not_lt hlarge)

/-- What is let through has a true size of at most half a node just where the sum does not wrap
around, or is too large even so. -/
theorem insertParams_admit_iff (btree : ControlBlock) (keyLength recordLen : ℕ) (record : List UInt8)
    (hnode : btree.nodeSize < 2 ^ 16) :
    (checkInsertParams (some (some btree)) (some keyLength) (some record) recordLen = .ok () →
        Admitted btree keyLength recordLen) ↔
      trueSize btree keyLength recordLen < 2 ^ 16 ∨
        btree.nodeSize / 2 < trueSize btree keyLength recordLen % 2 ^ 16 := by
  rw [checkInsertParams_ok, Admitted, calcKeyRecordSize_mod]
  constructor
  · intro hadmits
    by_cases hfits : trueSize btree keyLength recordLen % 2 ^ 16 ≤ btree.nodeSize / 2
    · have hle := (hadmits hfits).1
      exact .inl (by omega)
    · exact .inr (Nat.lt_of_not_le hfits)
  · rintro (hlt | hlarge) hfits
    · rw [Nat.mod_eq_of_lt hlt] at hfits ⊢
      exact ⟨hfits, rfl⟩
    · exact absurd hfits (Nat.not_le.mpr hlarge)

/-- A key of ten bytes and a record of 100. -/
theorem insertParams_admit_ten : Admitted smallTree 10 100 :=
  (insertParams_admit_iff smallTree 10 100 [] (by decide)).mpr (.inl (by decide)) (by decide)

/-- A record of 65535 bytes is rounded up to none, and is let through with a key of ten bytes. -/
theorem insertParams_wrap :
    checkInsertParams (some (some smallTree)) (some 10) (some []) 65535 = .ok () ∧
      trueSize smallTree 10 65535 = 65548 ∧
      ¬ (checkInsertParams (some (some smallTree)) (some 10) (some []) 65535 = .ok () →
        Admitted smallTree 10 65535) := by
  refine ⟨by decide, by decide, fun h => ?_⟩
  have hadmitted := h (by decide)
  rw [Admitted] at hadmitted
  exact absurd hadmitted.1 (by decide)

end Darwin.Hfs.NodeBytes
