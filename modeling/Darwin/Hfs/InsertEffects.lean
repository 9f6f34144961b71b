import Darwin.Hfs.Balance
import Darwin.Hfs.BTreeSetRecord
import Darwin.Lib.Outcome

/-! # What the parts of InsertTree change

Insertions, rotations, splits and new roots, as changes of single nodes: which nodes they touch, which
records these have afterwards, and how many nodes they take from the node map.
-/
namespace Darwin.Hfs.BTreeRecords
open Darwin.Lib List
open Darwin.Hfs.BTreeAllocate (NodeType NodeMapOk MapShape MapMarked)

variable {κ : Type}

/-- The error does not come from the node map. -/
def NotMap (err : OSStatus) : Prop := ∀ e, err ≠ .nodeMap e

/-! ## Sizes -/

/-- What a record takes from the free space of its node. -/
def BTree.weight (t : BTree κ) (record : Record κ) : ℕ := t.getRecordSize record + 2

/-- The bytes of a node with these records that are not free. -/
def BTree.used (t : BTree κ) (records : List (Record κ)) : ℕ := 16 + (records.map t.weight).sum

section sizes
variable {t t' : BTree κ} {records front back : List (Record κ)} {record : Record κ} {node : Node κ}

theorem used_mid : t.used (front ++ record :: back) = t.used (front ++ back) + t.weight record := by
  simp only [BTree.used, map_append, map_cons, sum_append, sum_cons]
  omega

theorem used_eraseIdx (records : List (Record κ)) {index : ℕ} (h : records[index]? = some record) :
    t.used records = t.used (records.eraseIdx index) + t.weight record := by
  obtain ⟨hlt, rfl⟩ := List.getElem?_eq_some_iff.mp h
  rw [eraseIdx_eq_take_drop_succ, ← used_mid, getElem_cons_drop, take_append_drop]

theorem insertIdx_length (front back : List (Record κ)) (record : Record κ) :
    (front ++ back).insertIdx front.length record = front ++ record :: back := by
  induction front with
  | nil => rfl
  | cons x front ih => rw [cons_append, length_cons, insertIdx_succ_cons, ih, cons_append]

theorem used_insertIdx_le (records : List (Record κ)) (index : ℕ) :
    t.used (records.insertIdx index record) ≤ t.used records + t.weight record := by
  by_cases h : index ≤ records.length
  · have hself : (records.insertIdx index record)[index]? = some record := by
      rw [List.getElem?_insertIdx_self, if_pos h]
    rw [used_eraseIdx _ hself, eraseIdx_insertIdx_self]
  · rw [insertIdx_of_length_lt (Nat.lt_of_not_le h)]
    exact Nat.le_add_right _ _

theorem used_eq (records : List (Record κ)) :
    t.used records = 16 + (records.map t.getRecordSize).sum + 2 * records.length := by
  rw [BTree.used]
  induction records with
  | nil => rfl
  | cons x records ih =>
    rw [map_cons, map_cons, sum_cons, sum_cons, length_cons, BTree.weight]
    omega

theorem fits_iff : t.getRecordSize record + 2 ≤ t.getNodeFreeSize node ↔
    t.used node.records + t.weight record ≤ t.map.nodeSize := by
  rw [BTree.getNodeFreeSize, BTree.freeOffset, used_eq, BTree.weight, Node.numRecords]
  omega

end sizes

/-! ## Changes of records -/

/-- The fields of a node descriptor, without the number of records. -/
def Node.descriptor (node : Node κ) : NodeType × ℕ × ℕ × ℕ :=
  (node.type, node.height, node.fLink, node.bLink)

/-- Only the records of these nodes are other ones. -/
structure Refilled (nodes : List ℕ) (t t' : BTree κ) : Prop where
  map : t'.map = t.map
  bigKeys : t'.bigKeys = t.bigKeys
  variableIndexKeys : t'.variableIndexKeys = t.variableIndexKeys
  maxKeyLength : t'.maxKeyLength = t.maxKeyLength
  treeDepth : t'.treeDepth = t.treeDepth
  rootNode : t'.rootNode = t.rootNode
  node : ∀ m ∉ nodes, t'.nodeAt m = t.nodeAt m
  descriptor : ∀ m, (t'.nodeAt m).descriptor = (t.nodeAt m).descriptor

/-- The node is not one of the node map. -/
def BTree.Real (t : BTree κ) (n : ℕ) : Prop :=
  (t.map.node n).type ≠ .header ∧ (t.map.node n).type ≠ .map

section refill
variable {t t' t'' : BTree κ} {nodes nodes' : List ℕ} {n m : ℕ} {x : Node κ} {records : List (Record κ)}
  {record : Record κ}

theorem nodeAt_of_type {type : NodeType} (h : (t.nodeAt n).type = type) (hleaf : type = .leaf ∨ type = .index) :
    t.Real n := by
  constructor
  · intro ht
    simp only [BTree.nodeAt, ht] at h
    rcases hleaf with rfl | rfl <;> cases h
  · intro ht
    simp only [BTree.nodeAt, ht] at h
    rcases hleaf with rfl | rfl <;> cases h

theorem BTree.Real.nodeAt (h : t.Real n) : t.nodeAt n = t.node n := by
  rw [BTree.nodeAt]
  cases ht : (t.map.node n).type with
  | leaf => rfl
  | index => rfl
  | header => exact absurd ht h.1
  | map => exact absurd ht h.2

theorem nodeAt_setNode_ne (h : m ≠ n) : (t.setNode n x).nodeAt m = t.nodeAt m := by
  simp only [BTree.nodeAt, BTree.setNode, Function.update_of_ne h]

theorem nodeAt_setNode_self (h : t.Real n) : (t.setNode n x).nodeAt n = x := by
  have hreal : (t.setNode n x).Real n := h
  rw [hreal.nodeAt]
  exact Function.update_self ..

theorem nodeAt_setNode_map (h : ¬ t.Real n) : (t.setNode n x).nodeAt m = t.nodeAt m := by
  by_cases hm : m = n
  · subst hm
    rw [BTree.Real, not_and_or, not_not, not_not] at h
    rcases h with ht | ht
    · simp [BTree.nodeAt, BTree.setNode, ht]
    · simp [BTree.nodeAt, BTree.setNode, ht]
  · exact nodeAt_setNode_ne hm

theorem Refilled.refl (nodes : List ℕ) (t : BTree κ) : Refilled nodes t t :=
  ⟨rfl, rfl, rfl, rfl, rfl, rfl, fun _ _ => rfl, fun _ => rfl⟩

theorem Refilled.trans (h : Refilled nodes t t') (h' : Refilled nodes t' t'') : Refilled nodes t t'' where
  map := h'.map.trans h.map
  bigKeys := h'.bigKeys.trans h.bigKeys
  variableIndexKeys := h'.variableIndexKeys.trans h.variableIndexKeys
  maxKeyLength := h'.maxKeyLength.trans h.maxKeyLength
  treeDepth := h'.treeDepth.trans h.treeDepth
  rootNode := h'.rootNode.trans h.rootNode
  node := fun m hm => (h'.node m hm).trans (h.node m hm)
  descriptor := fun m => (h'.descriptor m).trans (h.descriptor m)

theorem Refilled.mono (h : Refilled nodes t t') (hsub : nodes ⊆ nodes') : Refilled nodes' t t' :=
  { h with node := fun m hm => h.node m (fun hmem => hm (hsub hmem)) }

theorem refilled_setRecords (t : BTree κ) (n : ℕ) (records : List (Record κ)) :
    Refilled [n] t (t.setRecords n records) := by
  refine ⟨rfl, rfl, rfl, rfl, rfl, rfl, fun m hm => ?_, fun m => ?_⟩
  · exact nodeAt_setNode_ne (fun h => hm (h ▸ mem_singleton_self _))
  · by_cases hreal : t.Real n
    · by_cases hm : m = n
      · subst hm
        rw [BTree.setRecords, nodeAt_setNode_self hreal]
        rfl
      · rw [BTree.setRecords, nodeAt_setNode_ne hm]
    · rw [BTree.setRecords, nodeAt_setNode_map hreal]

theorem records_setRecords (h : t.Real n) :
    ((t.setRecords n records).nodeAt n).records = records := by
  rw [BTree.setRecords, nodeAt_setNode_self h]

theorem Refilled.weight (h : Refilled nodes t t') : t'.weight = t.weight := by
  funext r
  simp only [BTree.weight, BTree.getRecordSize, BTree.calcKeySize, h.bigKeys]

theorem Refilled.used (h : Refilled nodes t t') : t'.used = t.used := by
  funext l
  rw [BTree.used, BTree.used, h.weight]

theorem Refilled.real (h : Refilled nodes t t') : t'.Real n ↔ t.Real n := by
  rw [BTree.Real, BTree.Real, h.map]

end refill

/-! ## Rotations -/

section rotate
variable {t : BTree κ} {n l r index ins count keyLength : ℕ} {key : InsertKey κ} {place : Option (ℕ × ℕ)}
  {front back L : List (Record κ)}

theorem insertKeyRecord_ends (t : BTree κ) (n index : ℕ) (k : κ) (keyLength : ℕ) (data : List UInt8) :
    Ends NotMap (insertKeyRecord n index k keyLength data) t (fun fit t' =>
      if t.used (t.nodeAt n).records + t.weight ⟨k, keyLength, data⟩ ≤ t.map.nodeSize then
        fit = true ∧ t' = t.setRecords n ((t.nodeAt n).records.insertIdx index ⟨k, keyLength, data⟩)
      else fit = false ∧ t' = t) := by
  by_cases hfits : t.used (t.nodeAt n).records + t.weight ⟨k, keyLength, data⟩ ≤ t.map.nodeSize
  · refine Ends.of_ok (insertKeyRecord_fits (fits_iff.mpr hfits)) ?_
    rw [if_pos hfits]
    exact ⟨rfl, rfl⟩
  · refine Ends.of_ok (insertKeyRecord_full (fun h => hfits (fits_iff.mp h))) ?_
    rw [if_neg hfits]
    exact ⟨rfl, rfl⟩

theorem rotateRecordLeft_ends (hne : l ≠ r) (hl : t.Real l) (hr : t.Real r) :
    Ends NotMap (rotateRecordLeft l r) t (fun moved t' => moved = true →
      ∃ x rest, (t.nodeAt r).records = x :: rest ∧ Refilled [l, r] t t' ∧
        (t'.nodeAt l).records = (t.nodeAt l).records ++ [x] ∧ (t'.nodeAt r).records = rest) := by
  refine Ends.get_bind ?_
  cases hrecords : (t.nodeAt r).records with
  | nil => exact Ends.pure (fun h => absurd h Bool.false_ne_true)
  | cons x rest =>
    refine (insertKeyRecord_ends t l (t.nodeAt l).numRecords x.key x.keyLength x.data).bind ?_
    intro fit t' hfit
    split at hfit
    · obtain ⟨rfl, rfl⟩ := hfit
      have hrefill := refilled_setRecords t l ((t.nodeAt l).records.insertIdx (t.nodeAt l).numRecords x)
      have hright : ((t.setRecords l ((t.nodeAt l).records.insertIdx (t.nodeAt l).numRecords x)).nodeAt
          r).records = x :: rest := by
        rw [hrefill.node r (by simpa using hne.symm), hrecords]
      refine Ends.modify_bind (Ends.pure fun _ => ⟨x, rest, rfl, ?_, ?_, ?_⟩)
      · exact (hrefill.mono (by simp)).trans ((refilled_setRecords _ r _).mono (by simp))
      · rw [(refilled_setRecords _ r _).node l (by simpa using hne), records_setRecords hl, Node.numRecords,
          insertIdx_length_self]
      · rw [records_setRecords (hrefill.real.mpr hr), hright]
        rfl
    · obtain ⟨rfl, rfl⟩ := hfit
      exact Ends.pure (fun h => absurd h Bool.false_ne_true)

theorem notMap_badRotate : NotMap .fsBTBadRotateErr := fun _ h => OSStatus.noConfusion h

theorem rotateRecords_behind_ends (hne : l ≠ r) (hl : t.Real l) (hr : t.Real r) (hindex : ins < index)
    (hleft : (t.nodeAt l).records = L) (hright : (t.nodeAt r).records = back) :
    Ends NotMap (rotateRecords l r ins key keyLength count index place) t (fun place' t' =>
      place' = place ∧ Refilled [l, r] t t' ∧ (t'.nodeAt l).records = L ++ back.take count ∧
        (t'.nodeAt r).records = back.drop count) := by
  induction count generalizing t index L back with
  | zero =>
    refine Ends.pure ⟨rfl, Refilled.refl _ t, ?_, hright⟩
    rw [take_zero, append_nil, hleft]
  | succ count ih =>
    refine Ends.get_bind ?_
    rw [if_neg (Nat.ne_of_gt hindex)]
    refine (rotateRecordLeft_ends hne hl hr).bind fun moved t' hmoved => ?_
    cases moved with
    | false => exact Ends.throw notMap_badRotate
    | true =>
      obtain ⟨x, rest, hx, hrefill, hl', hr'⟩ := hmoved rfl
      obtain rfl : back = x :: rest := hright.symm.trans hx
      refine (ih (hrefill.real.mpr hl) (hrefill.real.mpr hr) (Nat.lt_succ_of_lt hindex) hl' hr').mono ?_
      rintro place' t'' ⟨hplace, hrefill', hleft', hright'⟩
      refine ⟨hplace, hrefill.trans hrefill', ?_, hright'⟩
      rw [hleft', hleft, take_succ_cons, append_assoc, singleton_append]

theorem rotateRecords_ends (hne : l ≠ r) (hl : t.Real l) (hr : t.Real r)
    (hindex : index + front.length = ins) (hleft : (t.nodeAt l).records = L)
    (hright : (t.nodeAt r).records = front ++ back) :
    Ends NotMap (rotateRecords l r ins key keyLength count index none) t (fun place t' =>
      Refilled [l, r] t t' ∧
      (t'.nodeAt l).records = L ++ (front ++ ⟨key.key, keyLength, key.data⟩ :: back).take count ∧
      if count ≤ front.length then place = none ∧ (t'.nodeAt r).records = front.drop count ++ back
      else (∃ i, place = some (i, (t.nodeAt r).bLink)) ∧
        (t'.nodeAt r).records = back.drop (count - front.length - 1)) := by
  induction count generalizing t index L front with
  | zero =>
    refine Ends.pure ⟨Refilled.refl _ t, ?_, ?_⟩
    · rw [take_zero, append_nil, hleft]
    · rw [if_pos (Nat.zero_le _)]
      exact ⟨rfl, hright⟩
  | succ count ih =>
    refine Ends.get_bind ?_
    cases front with
    | nil =>
      rw [length_nil, Nat.add_zero] at hindex
      rw [if_pos hindex]
      refine (insertKeyRecord_ends t l (t.nodeAt l).numRecords key.key keyLength key.data).bind ?_
      intro fit t' hfit
      split at hfit
      · obtain ⟨rfl, rfl⟩ := hfit
        have hrefill := refilled_setRecords t l
          ((t.nodeAt l).records.insertIdx (t.nodeAt l).numRecords ⟨key.key, keyLength, key.data⟩)
        have hnew : ((t.setRecords l ((t.nodeAt l).records.insertIdx (t.nodeAt l).numRecords
            ⟨key.key, keyLength, key.data⟩)).nodeAt l).records = L ++ [⟨key.key, keyLength, key.data⟩] := by
          rw [records_setRecords hl, Node.numRecords, insertIdx_length_self, hleft]
        have hrest := hrefill.node r (by simpa using hne.symm)
        refine (rotateRecords_behind_ends hne (hrefill.real.mpr hl) (hrefill.real.mpr hr)
          (Nat.lt_succ_of_le hindex.ge) hnew ((congrArg Node.records hrest).trans hright)).mono ?_
        rintro place t'' ⟨hplace, hrefill', hleft', hright'⟩
        refine ⟨(hrefill.mono (by simp)).trans hrefill', ?_, ?_⟩
        · rw [hleft', nil_append, nil_append, take_succ_cons, append_assoc,
            singleton_append]
        · rw [length_nil, if_neg (by omega)]
          exact ⟨⟨_, hplace⟩, hright'⟩
      · obtain ⟨rfl, rfl⟩ := hfit
        exact Ends.throw notMap_badRotate
    | cons x front =>
      rw [length_cons] at hindex
      rw [if_neg (by omega)]
      refine (rotateRecordLeft_ends hne hl hr).bind fun moved t' hmoved => ?_
      cases moved with
      | false => exact Ends.throw notMap_badRotate
      | true =>
        obtain ⟨y, rest, hy, hrefill, hl', hr'⟩ := hmoved rfl
        rw [hright, cons_append, List.cons.injEq] at hy
        obtain ⟨rfl, rfl⟩ := hy
        have hlink : (t'.nodeAt r).bLink = (t.nodeAt r).bLink :=
          congrArg (fun d => d.2.2.2) (hrefill.descriptor r)
        refine (ih (hrefill.real.mpr hl) (hrefill.real.mpr hr)
          (show index + 1 + front.length = ins by omega) hl' hr').mono ?_
        rintro place t'' ⟨hrefill', hleft', hright'⟩
        refine ⟨hrefill.trans hrefill', ?_, ?_⟩
        · rw [hleft', hleft, cons_append, take_succ_cons, append_assoc,
            singleton_append]
        · rw [length_cons, drop_succ_cons, Nat.add_sub_add_right, ← hlink]
          simpa only [Nat.add_le_add_iff_right] using hright'

/-- The balance point of `RotateLeft`. -/
def BTree.balancePoint (t : BTree κ) (leftNode rightNode : Node κ) (ins keyLength : ℕ)
    (data : List UInt8) : Balance :=
  let insertSize := padded (t.calcKeySize keyLength + data.length + 2)
  undoLastMove t.map.nodeSize
    (balance (moveSize t rightNode ins insertSize) (rightNode.numRecords + 1)
      ⟨(t.map.nodeSize : ℤ) - t.getNodeFreeSize leftNode,
        (t.map.nodeSize : ℤ) - t.getNodeFreeSize rightNode + insertSize, 0, 0⟩)

/-- The part of `RotateLeft` behind the balance point. -/
def rotateFrom (left right ins : ℕ) (key : InsertKey κ) (keyLength : ℕ) (nodeSize : ℤ) (b : Balance) :
    TreeM κ (Option Rotated) :=
  if nodeSize < b.rightSize then pure none
  else do
    let place ← rotateRecords left right ins key keyLength b.moveIndex 0 none
    match place with
    | some (insertIndex, insertNodeNum) => pure (some ⟨insertIndex, insertNodeNum, b.moveIndex⟩)
    | none => do
      let insertIndex := ins - b.moveIndex
      let btree ← get
      if ← insertKeyRecord right insertIndex key.key keyLength key.data then
        pure (some ⟨insertIndex, (btree.nodeAt left).fLink, b.moveIndex⟩)
      else throw .fsBTBadRotateErr

theorem rotateLeft_eq (t : BTree κ) (left right ins : ℕ) (key : InsertKey κ) :
    rotateLeft left right ins key t = rotateFrom left right ins key
      (getKeyLength t key.storedLength (decide ((t.nodeAt right).type = .leaf))) t.map.nodeSize
      (t.balancePoint (t.nodeAt left) (t.nodeAt right) ins
        (getKeyLength t key.storedLength (decide ((t.nodeAt right).type = .leaf))) key.data) t := rfl

/-- What `RotateLeft` does when it returns: the record does not fit into the two nodes, or they hold
their records with the new one, cut at the balance point. -/
theorem rotateLeft_ends (hne : l ≠ r) (hl : t.Real l) (hr : t.Real r)
    (hleft : (t.nodeAt l).records = L) (hright : (t.nodeAt r).records = front ++ back)
    (hlength : getKeyLength t key.storedLength (decide ((t.nodeAt r).type = .leaf)) = keyLength)
    {b : Balance} (hb : t.balancePoint (t.nodeAt l) (t.nodeAt r) front.length keyLength key.data = b) :
    Ends NotMap (rotateLeft l r front.length key) t (fun rotated t' =>
      match rotated with
      | none => (t.map.nodeSize : ℤ) < b.rightSize ∧ t' = t
      | some rotated => Refilled [l, r] t t' ∧
        (rotated.insertNodeNum = (t.nodeAt r).bLink ∨ rotated.insertNodeNum = (t.nodeAt l).fLink) ∧
        (t'.nodeAt l).records = L ++ (front ++ ⟨key.key, keyLength, key.data⟩ :: back).take b.moveIndex ∧
        (t'.nodeAt r).records = (front ++ ⟨key.key, keyLength, key.data⟩ :: back).drop b.moveIndex) := by
  rw [Ends, rotateLeft_eq, hlength, hb, ← Ends]
  rw [rotateFrom]
  split
  · next hover => exact Ends.pure ⟨hover, rfl⟩
  · refine (rotateRecords_ends hne hl hr (Nat.zero_add _) hleft hright).bind ?_
    rintro place t' ⟨hrefill, hleft', hright'⟩
    split at hright'
    · next hle =>
      obtain ⟨rfl, hright'⟩ := hright'
      refine Ends.get_bind ?_
      refine (insertKeyRecord_ends t' r (front.length - b.moveIndex) key.key keyLength key.data).bind ?_
      intro fit t'' hfit
      split at hfit
      · obtain ⟨rfl, rfl⟩ := hfit
        have hrefill' := refilled_setRecords t' r ((t'.nodeAt r).records.insertIdx
          (front.length - b.moveIndex) ⟨key.key, keyLength, key.data⟩)
        refine Ends.pure ⟨hrefill.trans (hrefill'.mono (by simp)), .inr ?_, ?_, ?_⟩
        · exact congrArg (fun d => d.2.2.1) (hrefill.descriptor l)
        · rw [hrefill'.node l (by simpa using hne), hleft']
        · have hfront : (front.drop b.moveIndex).length = front.length - b.moveIndex := length_drop
          rw [records_setRecords (hrefill.real.mpr hr), hright', ← hfront, insertIdx_length,
            drop_append_of_le_length hle]
      · obtain ⟨rfl, rfl⟩ := hfit
        exact Ends.throw notMap_badRotate
    · next hgt =>
      obtain ⟨⟨i, rfl⟩, hright'⟩ := hright'
      refine Ends.pure ⟨hrefill, .inl rfl, hleft', ?_⟩
      obtain ⟨k, hk⟩ : ∃ k, b.moveIndex = front.length + (k + 1) := ⟨b.moveIndex - front.length - 1, by omega⟩
      rw [hright', hk, drop_length_add_append, drop_succ_cons, Nat.add_sub_cancel_left,
        Nat.add_sub_cancel]

end rotate

/-! ## The sizes after a split -/

section halves
variable {t : BTree κ} {node leftNode rightNode : Node κ} {k : κ} {data : List UInt8}
  {keyLength w : ℕ} {front back : List (Record κ)}

theorem size_sub_free (h : t.used node.records ≤ t.map.nodeSize) :
    (t.map.nodeSize : ℤ) - t.getNodeFreeSize node = t.used node.records := by
  rw [used_eq] at h ⊢
  rw [BTree.getNodeFreeSize, BTree.freeOffset, Node.numRecords]
  omega

theorem moveSize_eq (heven : data.length % 2 = 0) (hright : rightNode.records = front ++ back) (i : ℕ)
    (hi : i < ((front ++ ⟨k, keyLength, data⟩ :: back).map t.weight).length) :
    moveSize t rightNode front.length (padded (t.calcKeySize keyLength + data.length + 2)) i =
      ((front ++ ⟨k, keyLength, data⟩ :: back).map t.weight)[i] := by
  have hget : ∀ j (hj : j < (front ++ back).length),
      (((rightNode.records.map t.getRecordSize).getD j 0 + 2 : ℕ) : ℤ) = t.weight (front ++ back)[j] := by
    intro j hj
    rw [hright, getD_eq_getElem _ _ (by rwa [length_map]), getElem_map, BTree.weight]
  rw [length_map, length_append, length_cons] at hi
  rw [getElem_map, moveSize]
  dsimp only
  by_cases hlt : i < front.length
  · rw [if_pos hlt, hget i (by rw [length_append]; omega), getElem_append_left hlt,
      getElem_append_left hlt]
  · rw [if_neg hlt]
    by_cases heq : i = front.length
    · subst heq
      rw [if_pos rfl]
      simp only [getElem_append_right (Nat.le_refl _), Nat.sub_self, getElem_cons_zero, BTree.weight,
        BTree.getRecordSize, padded]
      omega
    · obtain ⟨j, rfl⟩ : ∃ j, i = front.length + (j + 1) := ⟨i - front.length - 1, by omega⟩
      have hbefore : front.length + (j + 1) - 1 < (front ++ back).length := by
        rw [length_append]
        omega
      have hbehind : front.length + (j + 1) < (front ++ ⟨k, keyLength, data⟩ :: back).length := by
        rw [length_append, length_cons]
        omega
      have hleft : (front ++ back)[front.length + (j + 1) - 1] = back[j] := by
        simp [← Nat.add_assoc]
      have hshift : (front ++ ⟨k, keyLength, data⟩ :: back)[front.length + (j + 1)] = back[j] := by
        rw [getElem_append_right (Nat.le_add_right _ _)]
        simp
      rw [if_neg heq, hget _ (by rw [length_append]; omega), hleft, hshift]

theorem balancePoint_halves (heven : data.length % 2 = 0) (hleft : leftNode.records = [])
    (hright : rightNode.records = front ++ back) (hused : t.used (front ++ back) ≤ t.map.nodeSize)
    (hsmall : ∀ x ∈ front ++ ⟨k, keyLength, data⟩ :: back, t.weight x ≤ w)
    (hwide : 16 + 5 * w ≤ t.map.nodeSize) {b : Balance}
    (hb : t.balancePoint leftNode rightNode front.length keyLength data = b) :
    b.rightSize ≤ t.map.nodeSize ∧
      t.used ((front ++ ⟨k, keyLength, data⟩ :: back).take b.moveIndex) + w ≤ t.map.nodeSize ∧
      t.used ((front ++ ⟨k, keyLength, data⟩ :: back).drop b.moveIndex) + w ≤ t.map.nodeSize := by
  have htotal : t.used (front ++ ⟨k, keyLength, data⟩ :: back) =
      t.used (front ++ back) + t.weight ⟨k, keyLength, data⟩ := used_mid
  have hnew : t.weight ⟨k, keyLength, data⟩ ≤ w := hsmall _ (by simp)
  have hstart : Balanced 16 16 ((front ++ ⟨k, keyLength, data⟩ :: back).map t.weight)
      ⟨(t.map.nodeSize : ℤ) - t.getNodeFreeSize leftNode,
        (t.map.nodeSize : ℤ) - t.getNodeFreeSize rightNode +
          padded (t.calcKeySize keyLength + data.length + 2), 0, 0⟩ := by
    have hfreeLeft : (t.map.nodeSize : ℤ) - t.getNodeFreeSize leftNode = (16 : ℕ) := by
      rw [size_sub_free (by rw [hleft, BTree.used]; simp; omega), hleft]
      rfl
    have hfreeRight : (t.map.nodeSize : ℤ) - t.getNodeFreeSize rightNode +
        padded (t.calcKeySize keyLength + data.length + 2) =
        (16 : ℕ) + (((front ++ ⟨k, keyLength, data⟩ :: back).map t.weight).sum : ℕ) := by
      rw [size_sub_free (by rwa [hright]), hright]
      simp only [BTree.used, BTree.weight, BTree.getRecordSize, padded] at htotal ⊢
      omega
    rw [hfreeLeft, hfreeRight]
    exact Balanced.start 16 16 _
  have hlength : ((front ++ ⟨k, keyLength, data⟩ :: back).map t.weight).length ≤
      0 + (rightNode.numRecords + 1) := by
    rw [Node.numRecords, hright, length_map, length_append, length_append, length_cons]
    omega
  obtain ⟨hrun, hge⟩ := hstart.run (Nat.le_refl 16) (moveSize_eq heven hright) hlength
  have hhalves := hrun.halves hge (fun x hx => by
    obtain ⟨record, hmem, rfl⟩ := mem_map.mp hx
    exact hsmall record hmem)
  have hleftSize := hrun.leftSize
  have hrightSize := hrun.rightSize
  rw [BTree.balancePoint] at hb
  rw [undoLastMove, if_neg (by rw [BTree.used] at htotal; omega)] at hb
  rw [hb] at hleftSize hrightSize hhalves
  rw [← map_take] at hleftSize
  rw [← map_drop] at hrightSize
  rw [BTree.used] at htotal
  refine ⟨by omega, ?_, ?_⟩
  · rw [BTree.used]
    omega
  · rw [BTree.used]
    omega

end halves

end Darwin.Hfs.BTreeRecords
