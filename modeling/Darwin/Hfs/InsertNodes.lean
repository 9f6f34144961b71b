import Darwin.Hfs.InsertEffects

/-! # The nodes that an insertion takes

A split takes a node from the node map, and a new root another one. They were free before, so the nodes
of the tree that the routine does not work on stay as they are.
-/
namespace Darwin.Hfs.BTreeRecords
open Darwin.Lib Function List
open Darwin.Hfs.BTreeAllocate (NodeType NodeMapOk MapMarked)

variable {κ α : Type}

/-- The nodes that are in use stay in use, and only the listed ones of them have changed. -/
structure Kept (chain nodes : List ℕ) (t t' : BTree κ) : Prop where
  mapOk : NodeMapOk t'.map chain
  nodeSize : t'.map.nodeSize = t.map.nodeSize
  bigKeys : t'.bigKeys = t.bigKeys
  variableIndexKeys : t'.variableIndexKeys = t.variableIndexKeys
  maxKeyLength : t'.maxKeyLength = t.maxKeyLength
  bit : ∀ m, t.map.bit chain m = true → t'.map.bit chain m = true
  real : ∀ m, t.map.bit chain m = true → t.Real m → t'.Real m
  node : ∀ m, t.map.bit chain m = true → m ∉ nodes → t'.nodeAt m = t.nodeAt m

section kept
variable {t t' t'' : BTree κ} {chain nodes nodes' : List ℕ} {n m : ℕ} {record : Record κ}

theorem Refilled.kept (h : Refilled nodes t t') (hm : NodeMapOk t.map chain) : Kept chain nodes t t' where
  mapOk := h.map ▸ hm
  nodeSize := congrArg _ h.map
  bigKeys := h.bigKeys
  variableIndexKeys := h.variableIndexKeys
  maxKeyLength := h.maxKeyLength
  bit := fun _ hbit => h.map ▸ hbit
  real := fun _ _ hreal => h.real.mpr hreal
  node := fun m _ hmem => h.node m hmem

theorem Kept.trans (h : Kept chain nodes t t') (h' : Kept chain nodes' t' t'')
    (hsub : ∀ m ∈ nodes', t.map.bit chain m = true → m ∈ nodes) : Kept chain nodes t t'' where
  mapOk := h'.mapOk
  nodeSize := h'.nodeSize.trans h.nodeSize
  bigKeys := h'.bigKeys.trans h.bigKeys
  variableIndexKeys := h'.variableIndexKeys.trans h.variableIndexKeys
  maxKeyLength := h'.maxKeyLength.trans h.maxKeyLength
  bit := fun m hbit => h'.bit m (h.bit m hbit)
  real := fun m hbit hreal => h'.real m (h.bit m hbit) (h.real m hbit hreal)
  node := fun m hbit hmem =>
    (h'.node m (h.bit m hbit) (fun hm => hmem (hsub m hm hbit))).trans (h.node m hbit hmem)

theorem Kept.mono (h : Kept chain nodes t t') (hsub : nodes ⊆ nodes') : Kept chain nodes' t t' :=
  { h with node := fun m hbit hmem => h.node m hbit (fun hm => hmem (hsub hm)) }

theorem Kept.weight (h : Kept chain nodes t t') : t'.weight = t.weight := by
  funext r
  simp only [BTree.weight, BTree.getRecordSize, BTree.calcKeySize, h.bigKeys]

theorem Kept.used (h : Kept chain nodes t t') : t'.used = t.used := by
  funext l
  rw [BTree.used, BTree.used, h.weight]

theorem kept_setNode (hm : NodeMapOk t.map chain) (n : ℕ) (x : Node κ) : Kept chain [n] t (t.setNode n x) :=
  ⟨hm, rfl, rfl, rfl, rfl, fun _ h => h, fun _ _ h => h, fun _ _ hmem =>
    nodeAt_setNode_ne (fun he => hmem (mem_singleton.mpr he))⟩

end kept

/-! ## Allocation -/

section allocate
variable {t : BTree κ} {chain : List ℕ} {n m : ℕ}

theorem allocateNode_ends (h : NodeMapOk t.map chain) (hfree : 0 < t.map.freeNodes) :
    Ends NotMap (liftMap BTreeAllocate.allocateNode) t (fun n t' => t.map.bit chain n = false ∧
      t'.map.bit chain n = true ∧ (∃ map, t' = { t with map := map }) ∧ Kept chain [] t t' ∧
      (∀ m, t'.nodeAt m = t.nodeAt m) ∧ t'.map.freeNodes + 1 = t.map.freeNodes) := by
  rcases BTreeAllocate.allocateNode_spec (s := ⟨fun _ => true, 0, t.map⟩) h.toMapShape (fun _ => rfl) with
    ⟨n, s', hok, hn, hclear, -, hmarked, hcount⟩ | ⟨hfull, -⟩
  · have hrun : liftMap BTreeAllocate.allocateNode t = .ok n { t with map := s'.st } := by
      rw [liftMap, hok]
    have hlt := h.freeNodes_lt
    change s'.st.freeNodes = u32Sub t.map.freeNodes 1 at hcount
    have hmapOk : NodeMapOk s'.st chain := h.allocate hmarked hn hclear hcount
    have hnode : ∀ m, ({ t with map := s'.st } : BTree κ).nodeAt m = t.nodeAt m := by
      intro m
      have htype := hmarked.shape.type m
      have hlink := hmarked.shape.fLink m
      simp only [BTree.nodeAt, htype, hlink]
    refine Ends.of_ok hrun ⟨hclear, ?_, ⟨_, rfl⟩, ?_, hnode, ?_⟩
    · change bitAt (s'.st.word chain) n = true
      rw [hmarked.marked n, if_pos ⟨Nat.le_refl n, Nat.lt_succ_self n⟩]
    · refine ⟨hmapOk, hmarked.shape.nodeSize, rfl, rfl, rfl, fun m hbit => ?_, fun m _ hreal => ?_,
        fun m _ _ => hnode m⟩
      · change bitAt (s'.st.word chain) m = true
        rw [hmarked.marked m]
        split
        · rfl
        · exact hbit
      · change (s'.st.node m).type ≠ .header ∧ (s'.st.node m).type ≠ .map
        rw [hmarked.shape.type m]
        exact hreal
    · change s'.st.freeNodes + 1 = t.map.freeNodes
      rw [hcount, u32Sub_eq (by omega) (by omega)]
      omega
  · obtain ⟨k, hk, hclear⟩ := h.exists_clear hfree
    exact absurd (hclear.symm.trans (hfull k hk)) Bool.false_ne_true

/-- The tree after `GetNewNode`. -/
def BTree.withNew (t : BTree κ) (n : ℕ) : BTree κ :=
  { t.setNode n { (Node.clear : Node κ) with formatted := true } with
    map := t.map.setNode n ⟨.index, 0, []⟩ }

theorem real_withNew (t : BTree κ) (n : ℕ) : (t.withNew n).Real n := by
  rw [BTree.Real]
  simp only [BTree.withNew, BTreeAllocate.BTree.setNode, update_self]
  exact ⟨fun h => NodeType.noConfusion h, fun h => NodeType.noConfusion h⟩

theorem nodeAt_withNew_self (t : BTree κ) (n : ℕ) :
    (t.withNew n).nodeAt n = ⟨.index, 0, 0, 0, true, []⟩ := by
  rw [(real_withNew t n).nodeAt]
  exact update_self ..

theorem nodeAt_withNew_ne (h : m ≠ n) : (t.withNew n).nodeAt m = t.nodeAt m := by
  simp only [BTree.nodeAt, BTree.withNew, BTree.setNode, BTreeAllocate.BTree.setNode,
    update_of_ne h]

theorem kept_withNew (h : NodeMapOk t.map chain) (hn : n ∉ chain) : Kept chain [n] t (t.withNew n) := by
  obtain ⟨hmapOk, hword⟩ := h.setNode hn ⟨.index, 0, []⟩
  refine ⟨hmapOk, rfl, rfl, rfl, rfl, fun m hbit => ?_, fun m _ hreal => ?_, fun m _ hmem => ?_⟩
  · change bitAt ((t.map.setNode n ⟨.index, 0, []⟩).word chain) m = true
    rwa [hword]
  · by_cases hne : m = n
    · subst hne
      exact real_withNew t m
    · rw [BTree.Real]
      simp only [BTree.withNew, BTreeAllocate.BTree.setNode, update_of_ne hne]
      exact hreal
  · exact nodeAt_withNew_ne (fun he => hmem (mem_singleton.mpr he))

end allocate

/-! ## Splits -/

/-- The left sibling points to a new node. -/
def BTree.linkFrom (t : BTree κ) (left : Option ℕ) (n : ℕ) : BTree κ :=
  match left with
  | some left => t.setNode left { t.nodeAt left with fLink := n }
  | none => t

/-- The tree with the new left node of a split, before records move. -/
def BTree.withLeft (t : BTree κ) (left : Option ℕ) (right n : ℕ) : BTree κ :=
  let t := (t.linkFrom left n).withNew n
  let rightNode := t.nodeAt right
  let t := (t.setNode n { t.nodeAt n with
    fLink := right, bLink := rightNode.bLink, type := rightNode.type,
    height := rightNode.height }).setNode right { rightNode with bLink := n }
  let newNode := t.nodeAt n
  if newNode.type = .leaf ∧ newNode.bLink = 0 then { t with firstLeafNode := n } else t

section split
variable {t t' : BTree κ} {chain : List ℕ} {left : Option ℕ} {n l r ins keyLength w : ℕ} {key : InsertKey κ}
  {front back : List (Record κ)}

/-- What a split has made before records move. -/
structure LeftMade (chain : List ℕ) (left : Option ℕ) (r n : ℕ) (t t' : BTree κ) : Prop where
  kept : Kept chain (n :: r :: left.toList) t t'
  freeNodes : t'.map.freeNodes = t.map.freeNodes
  treeDepth : t'.treeDepth = t.treeDepth
  rootNode : t'.rootNode = t.rootNode
  real : t'.Real n
  new : t'.nodeAt n = ⟨(t.nodeAt r).type, (t.nodeAt r).height, r, (t.nodeAt r).bLink, true, []⟩
  right : t'.nodeAt r = { t.nodeAt r with bLink := n }

theorem LeftMade.firstLeafNode (h : LeftMade chain left r n t t') (leaf : ℕ) :
    LeftMade chain left r n t { t' with firstLeafNode := leaf } :=
  ⟨⟨h.kept.mapOk, h.kept.nodeSize, h.kept.bigKeys, h.kept.variableIndexKeys, h.kept.maxKeyLength,
    h.kept.bit, h.kept.real, h.kept.node⟩, h.freeNodes, h.treeDepth, h.rootNode, h.real, h.new, h.right⟩

theorem kept_linkFrom (h : NodeMapOk t.map chain) (left : Option ℕ) (n : ℕ) :
    Kept chain left.toList t (t.linkFrom left n) := by
  cases left with
  | none => exact (Refilled.refl [] t).kept h
  | some left => exact kept_setNode h left _

theorem nodeAt_linkFrom (h : r ∉ left) : (t.linkFrom left n).nodeAt r = t.nodeAt r := by
  cases left with
  | none => rfl
  | some left =>
    refine nodeAt_setNode_ne ?_
    rintro rfl
    exact h rfl

@[simp] theorem linkFrom_map : (t.linkFrom left n).map = t.map := by
  cases left <;> rfl

@[simp] theorem linkFrom_treeDepth : (t.linkFrom left n).treeDepth = t.treeDepth := by
  cases left <;> rfl

@[simp] theorem linkFrom_rootNode : (t.linkFrom left n).rootNode = t.rootNode := by
  cases left <;> rfl

theorem withLeft_made (h : NodeMapOk t.map chain) (hn : n ∉ chain) (hr : t.Real r) (hnr : n ≠ r)
    (hleft : r ∉ left) : LeftMade chain left r n t (t.withLeft left r n) := by
  have hlink := kept_linkFrom h left n
  have hnew := kept_withNew hlink.mapOk hn
  have hright : ((t.linkFrom left n).withNew n).nodeAt r = t.nodeAt r :=
    (nodeAt_withNew_ne hnr.symm).trans (nodeAt_linkFrom hleft)
  have hreal : ((t.linkFrom left n).withNew n).Real r := by
    rw [BTree.Real, BTree.withNew, BTreeAllocate.BTree.setNode]
    simp only [update_of_ne hnr.symm, linkFrom_map]
    exact hr
  have hself : ((t.linkFrom left n).withNew n).nodeAt n = ⟨.index, 0, 0, 0, true, []⟩ := nodeAt_withNew_self ..
  have hmade : LeftMade chain left r n t ((((t.linkFrom left n).withNew n).setNode n
      ⟨(t.nodeAt r).type, (t.nodeAt r).height, r, (t.nodeAt r).bLink, true, []⟩).setNode r
        { t.nodeAt r with bLink := n }) := by
    refine ⟨?_, ?_, ?_, ?_, real_withNew (t.linkFrom left n) n, ?_, nodeAt_setNode_self hreal⟩
    · have hset := kept_setNode hnew.mapOk n
        (⟨(t.nodeAt r).type, (t.nodeAt r).height, r, (t.nodeAt r).bLink, true, []⟩ : Node κ)
      have hlast := kept_setNode hset.mapOk r ({ t.nodeAt r with bLink := n } : Node κ)
      have hfrom : Kept chain (n :: r :: left.toList) t (t.linkFrom left n) :=
        hlink.mono (subset_cons_of_subset n (subset_cons_self r _))
      refine ((hfrom.trans hnew ?_).trans hset ?_).trans hlast ?_
      · exact fun m hm _ => mem_singleton.mp hm ▸ mem_cons_self
      · exact fun m hm _ => mem_singleton.mp hm ▸ mem_cons_self
      · exact fun m hm _ => mem_singleton.mp hm ▸ mem_cons_of_mem n mem_cons_self
    · change (t.linkFrom left n).map.freeNodes = t.map.freeNodes
      rw [linkFrom_map]
    · exact linkFrom_treeDepth
    · exact linkFrom_rootNode
    · rw [nodeAt_setNode_ne hnr]
      exact nodeAt_setNode_self (real_withNew _ n)
  rw [BTree.withLeft]
  simp only [hright, hself]
  split
  · exact hmade.firstLeafNode n
  · exact hmade

/-- The record that an insertion stores. -/
def InsertKey.record (key : InsertKey κ) : Record κ := ⟨key.key, key.keyLength, key.data⟩

/-- The key is stored with the length that `RotateLeft` computes for it. -/
def InsertKey.Stored (key : InsertKey κ) (t : BTree κ) (type : NodeType) : Prop :=
  getKeyLength t key.storedLength (decide (type = .leaf)) = key.keyLength

/-- A node `n` was split from the left of `r`, with a record that was to be inserted into `records`. -/
structure WasSplit (chain : List ℕ) (left : Option ℕ) (r n : ℕ) (records : List (Record κ))
    (t t' : BTree κ) : Prop where
  kept : Kept chain (r :: left.toList) t t'
  fresh : t.map.bit chain n = false
  inUse : t'.map.bit chain n = true
  freeNodes : t'.map.freeNodes + 1 = t.map.freeNodes
  treeDepth : t'.treeDepth = t.treeDepth
  rootNode : t'.rootNode = t.rootNode
  real : t'.Real n
  bLink : (t'.nodeAt r).bLink = n
  height : (t'.nodeAt r).height = (t.nodeAt r).height
  leftRecords : ∀ x ∈ (t'.nodeAt n).records, x ∈ records
  rightRecords : ∀ x ∈ (t'.nodeAt r).records, x ∈ records

/-- Both nodes have room for one more record of this size. -/
structure Roomy (n r w : ℕ) (t : BTree κ) : Prop where
  left : t.used (t.nodeAt n).records + w ≤ t.map.nodeSize
  right : t.used (t.nodeAt r).records + w ≤ t.map.nodeSize

/-- Five records of this size fit into a node, and so do these records without the new one. -/
structure Wide (t : BTree κ) (front back : List (Record κ)) (key : InsertKey κ) (w : ℕ) : Prop where
  fits : t.used (front ++ back) ≤ t.map.nodeSize
  even : key.data.length % 2 = 0
  small : ∀ x ∈ front ++ key.record :: back, t.weight x ≤ w
  five : 16 + 5 * w ≤ t.map.nodeSize

theorem Kept.wide {nodes : List ℕ} (h : Kept chain nodes t t') (hw : Wide t front back key w) :
    Wide t' front back key w := by
  obtain ⟨hfits, heven, hsmall, hfive⟩ := hw
  refine ⟨?_, heven, ?_, ?_⟩
  · rwa [h.used, h.nodeSize]
  · rwa [h.weight]
  · rwa [h.nodeSize]

theorem Kept.stored {nodes : List ℕ} {type : NodeType} (h : Kept chain nodes t t')
    (hkey : key.Stored t type) : key.Stored t' type := by
  rw [InsertKey.Stored, getKeyLength] at hkey ⊢
  rwa [h.variableIndexKeys, h.maxKeyLength]

theorem LeftMade.rotateLeft_ends (h : LeftMade chain left r n t t') (hnr : n ≠ r)
    (hr : t'.Real r) (hright : (t.nodeAt r).records = front ++ back)
    (hkey : key.Stored t' (t.nodeAt r).type) :
    Ends NotMap (rotateLeft n r front.length key) t' (fun _ t'' => Refilled [n, r] t' t'' ∧
      (∀ x ∈ (t''.nodeAt n).records, x ∈ front ++ key.record :: back) ∧
      (∀ x ∈ (t''.nodeAt r).records, x ∈ front ++ key.record :: back) ∧
      ∀ w, Wide t' front back key w → Roomy n r w t'') := by
  have hempty : (t'.nodeAt n).records = [] := by rw [h.new]
  have hrecords : (t'.nodeAt r).records = front ++ back := by rw [h.right, hright]
  have hkey' : getKeyLength t' key.storedLength (decide ((t'.nodeAt r).type = .leaf)) = key.keyLength := by
    rw [h.right]
    exact hkey
  refine (Darwin.Hfs.BTreeRecords.rotateLeft_ends hnr h.real hr hempty hrecords hkey' rfl).mono ?_
  intro rotated t'' hrotated
  cases rotated with
  | none =>
    obtain ⟨hover, rfl⟩ := hrotated
    refine ⟨Refilled.refl _ _, ?_, ?_, ?_⟩
    · rw [hempty]
      exact fun x hx => absurd hx not_mem_nil
    · rw [hrecords]
      intro x hx
      rcases mem_append.mp hx with hx | hx
      · exact mem_append_left _ hx
      · exact mem_append_right _ (mem_cons_of_mem _ hx)
    · intro w hw
      have hle := (balancePoint_halves hw.even hempty hrecords hw.fits hw.small hw.five rfl).1
      exact absurd hover (Int.not_lt.mpr hle)
  | some rotated =>
    obtain ⟨hrefill, -, hl, hr'⟩ := hrotated
    rw [nil_append] at hl
    refine ⟨hrefill, ?_, ?_, ?_⟩
    · rw [hl]
      exact fun x hx => mem_of_mem_take hx
    · rw [hr']
      exact fun x hx => mem_of_mem_drop hx
    · intro w hw
      have hhalves := balancePoint_halves hw.even hempty hrecords hw.fits hw.small hw.five rfl
      refine ⟨?_, ?_⟩
      · rw [hrefill.used, hrefill.map, hl]
        exact hhalves.2.1
      · rw [hrefill.used, hrefill.map, hr']
        exact hhalves.2.2

theorem splitLeft_ends (h : NodeMapOk t.map chain) (hfree : 0 < t.map.freeNodes) (hr : t.Real r)
    (hbit : t.map.bit chain r = true) (hleft : r ∉ left) (hright : (t.nodeAt r).records = front ++ back)
    (hkey : key.Stored t (t.nodeAt r).type) :
    Ends NotMap (splitLeft left r r front.length key) t (fun made t' =>
      WasSplit chain left r made.1 (front ++ key.record :: back) t t' ∧
      ∀ w, Wide t front back key w → Roomy made.1 r w t') := by
  rw [splitLeft]
  refine Ends.get_bind ?_
  split
  · exact Ends.throw (fun _ he => OSStatus.noConfusion he)
  refine (allocateNode_ends h hfree).bind ?_
  rintro n t₁ ⟨hclear, hset, ⟨map, rfl⟩, hkept, hnode, hcount⟩
  have hn : n ∉ chain := fun hmem => Bool.false_ne_true (hclear.symm.trans (h.used n hmem))
  have hnr : n ≠ r := by
    rintro rfl
    exact Bool.false_ne_true (hclear.symm.trans hbit)
  have hmade := withLeft_made hkept.mapOk hn (hkept.real r hbit hr) hnr hleft
  have hnode' := hnode r
  have hkept' : Kept chain (r :: left.toList) t (({ t with map := map } : BTree κ).withLeft left r n) := by
    refine (hkept.mono (nil_subset _)).trans hmade.kept fun m hm hm' => ?_
    rcases mem_cons.mp hm with rfl | hm
    · exact absurd (hclear.symm.trans hm') Bool.false_ne_true
    · exact hm
  have hrun : Ends NotMap (do
      let rotated ← rotateLeft n r front.length key
      pure (n, rotated.getD ⟨0, 0, 0⟩)) (({ t with map := map } : BTree κ).withLeft left r n)
      (fun made t' => WasSplit chain left r made.1 (front ++ key.record :: back) t t' ∧
        ∀ w, Wide t front back key w → Roomy made.1 r w t') := by
    refine (hmade.rotateLeft_ends hnr (hkept'.real r hbit hr) (by rw [hnode', hright])
      (by rw [hnode']; exact hkept'.stored hkey)).bind ?_
    rintro rotated t₂ ⟨hrefill, hl, hr', hwide⟩
    refine Ends.pure ⟨?_, fun w hw => hwide w (hkept'.wide hw)⟩
    have hdescriptor := hrefill.descriptor r
    rw [hmade.right, hnode'] at hdescriptor
    refine ⟨?_, hclear, ?_, ?_, ?_, ?_, ?_, ?_, ?_, hl, hr'⟩
    · refine hkept'.trans (hrefill.kept hmade.kept.mapOk) fun m hm hm' => ?_
      rcases mem_cons.mp hm with rfl | hm
      · exact absurd (hclear.symm.trans hm') Bool.false_ne_true
      · rw [mem_singleton.mp hm]
        exact mem_cons_self
    · rw [hrefill.map]
      exact hmade.kept.bit n hset
    · rw [hrefill.map, hmade.freeNodes]
      exact hcount
    · exact hrefill.treeDepth.trans hmade.treeDepth
    · exact hrefill.rootNode.trans hmade.rootNode
    · exact hrefill.real.mpr hmade.real
    · exact congrArg (fun d => d.2.2.2) hdescriptor
    · exact congrArg (fun d => d.2.1) hdescriptor
  cases left with
  | none => exact Ends.modify_bind (Ends.modify_bind (Ends.modify_bind hrun))
  | some left => exact Ends.modify_bind (Ends.modify_bind (Ends.modify_bind (Ends.modify_bind hrun)))

end split

/-! ## New roots -/

section root
variable {t : BTree κ} {chain : List ℕ} {n l r w : ℕ}

theorem firstRecord_ends (t : BTree κ) (n : ℕ) : Ends NotMap (firstRecord n) t
    (fun x t' => t' = t ∧ x ∈ (t.nodeAt n).records) := by
  refine Ends.get_bind ?_
  cases hrecords : (t.nodeAt n).records with
  | nil => exact Ends.throw (fun _ he => OSStatus.noConfusion he)
  | cons x rest => exact Ends.pure ⟨rfl, mem_cons_self⟩

theorem insertKeyRecord_le (hreal : t.Real n) (index : ℕ) (x : Record κ) :
    Ends NotMap (insertKeyRecord n index x.key x.keyLength x.data) t (fun _ t' => Refilled [n] t t' ∧
      t.used (t'.nodeAt n).records ≤ t.used (t.nodeAt n).records + t.weight x) := by
  refine (insertKeyRecord_ends t n index x.key x.keyLength x.data).mono fun fit t' hfit => ?_
  split at hfit
  · obtain ⟨-, rfl⟩ := hfit
    refine ⟨refilled_setRecords t n _, ?_⟩
    rw [records_setRecords hreal]
    exact used_insertIdx_le _ index
  · obtain ⟨-, rfl⟩ := hfit
    exact ⟨Refilled.refl _ _, Nat.le_add_right _ _⟩

/-- A new root. -/
structure Rooted (chain : List ℕ) (w : ℕ) (t t' : BTree κ) : Prop where
  kept : Kept chain [] t t'
  freeNodes : t'.map.freeNodes + 1 = t.map.freeNodes
  treeDepth : t'.treeDepth = t.treeDepth + 1
  real : t'.Real t'.rootNode
  ne_zero : t'.rootNode ≠ 0
  fresh : t.map.bit chain t'.rootNode = false
  bLink : (t'.nodeAt t'.rootNode).bLink = 0
  used : t'.used (t'.nodeAt t'.rootNode).records ≤ 16 + 2 * w

/-- The tree with a new root that has no records. -/
def BTree.withRoot (t : BTree κ) (n : ℕ) : BTree κ :=
  { (t.withNew n).setNode n { (t.withNew n).nodeAt n with type := .index, height := t.treeDepth + 1 } with
    treeDepth := t.treeDepth + 1 }

theorem addNewRootNode_ends (h : NodeMapOk t.map chain) (hfree : 0 < t.map.freeNodes)
    (hl : t.map.bit chain l = true) (hr : t.map.bit chain r = true)
    (hsmall : ∀ x, x ∈ (t.nodeAt l).records ∨ x ∈ (t.nodeAt r).records → ∀ m,
      t.weight ⟨x.key, getKeyLength t x.keyLength false, nodeNumData m⟩ ≤ w) :
    Ends NotMap (addNewRootNode l r) t (fun _ t' => Rooted chain w t t') := by
  refine (allocateNode_ends h hfree).bind ?_
  rintro n t₁ ⟨hclear, hset, ⟨map, rfl⟩, hkept, hnode, hcount⟩
  generalize ht₁ : ({ t with map := map } : BTree κ) = t₁ at *
  have hn : n ∉ chain := fun hmem => Bool.false_ne_true (hclear.symm.trans (h.used n hmem))
  have hroot : Kept chain [] t (t₁.withRoot n) := by
    have hnew := kept_withNew hkept.mapOk hn
    have hset := kept_setNode hnew.mapOk n
      ({ (t₁.withNew n).nodeAt n with type := .index, height := t₁.treeDepth + 1 } : Node κ)
    have hboth := (hnew.trans hset fun m hm _ => hm)
    have hlast : Kept chain [n] t₁ (t₁.withRoot n) := ⟨hboth.mapOk, hboth.nodeSize, hboth.bigKeys,
      hboth.variableIndexKeys, hboth.maxKeyLength, hboth.bit, hboth.real, hboth.node⟩
    refine hkept.trans hlast fun m hm hm' => ?_
    rw [mem_singleton.mp hm] at hm'
    exact absurd (hclear.symm.trans hm') Bool.false_ne_true
  have hreal : (t₁.withRoot n).Real n := real_withNew t₁ n
  change Ends NotMap (do
    let leftRecord ← firstRecord l
    let _ ← insertKeyRecord n 0 leftRecord.key
      (getKeyLength (t₁.withRoot n) leftRecord.keyLength false) (nodeNumData ((t₁.withRoot n).nodeAt r).bLink)
    let rightRecord ← firstRecord r
    let _ ← insertKeyRecord n 1 rightRecord.key
      (getKeyLength (t₁.withRoot n) rightRecord.keyLength false) (nodeNumData ((t₁.withRoot n).nodeAt l).fLink)
    modify fun btree => { btree with rootNode := n }) (t₁.withRoot n) (fun _ t' => Rooted chain w t t')
  have hself : (t₁.withRoot n).nodeAt n = ⟨.index, t₁.treeDepth + 1, 0, 0, true, []⟩ := by
    have hset : (t₁.withRoot n).nodeAt n = ({ (t₁.withNew n).nodeAt n with
        type := .index, height := t₁.treeDepth + 1 } : Node κ) := nodeAt_setNode_self (real_withNew t₁ n)
    rw [hset, nodeAt_withNew_self]
  have hlength : ∀ k, getKeyLength (t₁.withRoot n) k false = getKeyLength t k false := by
    intro k
    rw [getKeyLength, getKeyLength, hroot.variableIndexKeys, hroot.maxKeyLength]
  have hweight : ∀ x m, x ∈ (t.nodeAt l).records ∨ x ∈ (t.nodeAt r).records → (t₁.withRoot n).weight
      ⟨x.key, getKeyLength (t₁.withRoot n) x.keyLength false, nodeNumData m⟩ ≤ w := by
    intro x m hx
    rw [hroot.weight, hlength]
    exact hsmall x hx m
  have hne : r ≠ n := by
    rintro rfl
    exact Bool.false_ne_true (hclear.symm.trans hr)
  refine (firstRecord_ends (t₁.withRoot n) l).bind ?_
  rintro leftRecord t₂ ⟨rfl, hleft⟩
  rw [hroot.node l hl not_mem_nil] at hleft
  refine (insertKeyRecord_le hreal 0 ⟨leftRecord.key, getKeyLength (t₁.withRoot n) leftRecord.keyLength false,
    nodeNumData ((t₁.withRoot n).nodeAt r).bLink⟩).bind ?_
  rintro - t₃ ⟨hfirst, hused⟩
  refine (firstRecord_ends t₃ r).bind ?_
  rintro rightRecord t₄ ⟨rfl, hright⟩
  rw [hfirst.node r (fun hm => hne (mem_singleton.mp hm)), hroot.node r hr not_mem_nil] at hright
  refine (insertKeyRecord_le (hfirst.real.mpr hreal) 1 ⟨rightRecord.key,
    getKeyLength (t₁.withRoot n) rightRecord.keyLength false, nodeNumData ((t₁.withRoot n).nodeAt l).fLink⟩).bind ?_
  rintro - t₅ ⟨hsecond, hused'⟩
  have hboth := hfirst.trans hsecond
  have hdescriptor := hboth.descriptor n
  rw [hself] at hdescriptor
  have hrootUsed : t₅.used (t₅.nodeAt n).records ≤ 16 + 2 * w := by
    have hempty : (t₁.withRoot n).used ((t₁.withRoot n).nodeAt n).records = 16 := by
      rw [hself]
      rfl
    have hleftWeight := hweight leftRecord ((t₁.withRoot n).nodeAt r).bLink (.inl hleft)
    have hrightWeight := hweight rightRecord ((t₁.withRoot n).nodeAt l).fLink (.inr hright)
    rw [hfirst.used, hfirst.weight] at hused'
    rw [hboth.used]
    omega
  have hkept' : Kept chain [] t t₅ := by
    refine hroot.trans (hboth.kept hroot.mapOk) fun m hm hm' => ?_
    rw [mem_singleton.mp hm] at hm'
    exact absurd (hclear.symm.trans hm') Bool.false_ne_true
  refine Ends.of_modify ⟨⟨hkept'.mapOk, hkept'.nodeSize, hkept'.bigKeys, hkept'.variableIndexKeys,
    hkept'.maxKeyLength, hkept'.bit, hkept'.real, hkept'.node⟩, ?_, ?_, hboth.real.mpr hreal, ?_, hclear,
    congrArg (fun d => d.2.2.2) hdescriptor, hrootUsed⟩
  · change t₅.map.freeNodes + 1 = t.map.freeNodes
    rw [hboth.map]
    exact hcount
  · change t₅.treeDepth = t.treeDepth + 1
    rw [hboth.treeDepth, ← ht₁]
    rfl
  · rintro rfl
    exact hn (mem_of_mem_head? h.header.1)

end root

end Darwin.Hfs.BTreeRecords
