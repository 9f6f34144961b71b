import Darwin.Hfs.InsertNodes

/-! # The insertions at one level

`InsertNode` and the two insertions that `InsertLevel` makes into one node. The first takes a node from
the node map when it splits, and a second one for a new root; where five of the largest index records
fit into a node, a second insertion behind a split finds room.
-/
namespace Darwin.Hfs.BTreeRecords
open Darwin.Lib List
open Darwin.Hfs.BTreeAllocate (NodeType NodeMapOk)

variable {κ : Type}

/-! ## Records of the tree -/

/-- What an index record takes when its key has the largest length. -/
def BTree.indexWeight (t : BTree κ) : ℕ := padded (t.calcKeySize t.maxKeyLength) + 4 + 2

/-- The length of the key is allowed, and an index record holds a node number. Where the keys of index
records have a fixed length, it is the largest one. -/
structure BTree.Proper (t : BTree κ) (height : ℕ) (x : Record κ) : Prop where
  keyLength : x.keyLength ≤ t.maxKeyLength
  data : height ≠ 1 → x.data.length = 4
  fixed : height ≠ 1 → t.variableIndexKeys = false → x.keyLength = t.maxKeyLength

section proper
variable {t t' : BTree κ} {chain nodes : List ℕ} {h n : ℕ} {x : Record κ}

theorem BTree.Proper.weight_le (hx : t.Proper h x) (hh : h ≠ 1) : t.weight x ≤ t.indexWeight := by
  have hlength := hx.keyLength
  rw [BTree.weight, BTree.getRecordSize, hx.data hh, BTree.indexWeight]
  simp only [padded, BTree.calcKeySize]
  split <;> omega

theorem BTree.Proper.weight_eq (hx : t.Proper h x) (hh : h ≠ 1) (hfixed : t.variableIndexKeys = false) :
    t.weight x = t.indexWeight := by
  rw [BTree.weight, BTree.getRecordSize, hx.data hh, hx.fixed hh hfixed, BTree.indexWeight]

theorem Kept.proper (hk : Kept chain nodes t t') : t'.Proper h x ↔ t.Proper h x := by
  constructor
  · rintro ⟨hlength, hdata, hfixed⟩
    rw [hk.maxKeyLength] at hlength
    rw [hk.maxKeyLength, hk.variableIndexKeys] at hfixed
    exact ⟨hlength, hdata, hfixed⟩
  · rintro ⟨hlength, hdata, hfixed⟩
    rw [← hk.maxKeyLength] at hlength
    rw [← hk.maxKeyLength, ← hk.variableIndexKeys] at hfixed
    exact ⟨hlength, hdata, hfixed⟩

theorem Kept.indexWeight (hk : Kept chain nodes t t') : t'.indexWeight = t.indexWeight := by
  rw [BTree.indexWeight, BTree.indexWeight, BTree.calcKeySize, BTree.calcKeySize, hk.maxKeyLength,
    hk.bigKeys]

theorem BTree.Proper.index (hx : t.Proper h x) (m k : ℕ) :
    t.Proper k ⟨x.key, getKeyLength t x.keyLength false, nodeNumData m⟩ := by
  have hlength := hx.keyLength
  refine ⟨?_, fun _ => rfl, fun _ hfixed => ?_⟩
  · rw [getKeyLength]
    split
    · exact hlength
    · exact Nat.le_refl _
  · rw [getKeyLength, hfixed]
    rfl

end proper

/-! ## InsertNode -/

section node
variable {t t' : BTree κ} {disk : ℕ → Bool} {chain : List ℕ} {n r h index target : ℕ} {key : InsertKey κ}
  {left : Option ℕ} {up ip : Bool}

/-- What `InsertNode` returns when the record fits into its node. -/
def placed (node index : ℕ) (left : Option ℕ) (up ip first : Bool) : Inserted :=
  ⟨node, index, left, up || first, ip, false⟩

theorem insertNode_fits (htarget : (if n = (t.nodeAt r).bLink then left else some r) = some target)
    (hfits : t.used (t.nodeAt target).records + t.weight key.record ≤ t.map.nodeSize) :
    insertNode disk key r n index left up ip t = .ok (placed n index left up ip
      (decide (index = 0) && decide ((t.nodeAt target).height ≠ t.treeDepth)))
      (t.setRecords target ((t.nodeAt target).records.insertIdx index key.record)) := by
  rw [insertNode, get_bind]
  simp only [htarget]
  rw [bind_of_ok (insertKeyRecord_fits (fits_iff.mpr hfits))]
  rfl

/-- The part of `InsertNode` behind the rotation. -/
def splitOr (key : InsertKey κ) (n index : ℕ) (up ip : Bool) (left : Option ℕ)
    (rotated : Option Rotated) : TreeM κ Inserted :=
  match rotated with
  | some r =>
    let changed := key.replacingKey || decide (1 < r.recsRotated) || decide (0 < index)
    pure ⟨r.insertNodeNum, r.insertIndex, left, up || changed, ip, false⟩
  | none => do
    let (left, r) ← splitLeft left n n index key
    let btree ← get
    if (btree.nodeAt n).height = btree.treeDepth then do
      addNewRootNode left n
      pure ⟨r.insertNodeNum, r.insertIndex, some left, up, ip, true⟩
    else
      let changed := key.replacingKey || decide (1 < r.recsRotated) || decide (0 < index)
      pure ⟨r.insertNodeNum, r.insertIndex, some left, up || changed, true, false⟩

/-- The part of `InsertNode` behind the attempt to insert. -/
def rotateOr (disk : ℕ → Bool) (key : InsertKey κ) (n index leftNodeNum : ℕ) (up ip : Bool) :
    TreeM κ Inserted :=
  if 0 < leftNodeNum then do
    let _ ← fetchNode disk leftNodeNum
    let rotated ← if key.skipRotate = false then rotateLeft leftNodeNum n index key else pure none
    splitOr key n index up ip (some leftNodeNum) rotated
  else splitOr key n index up ip none none

theorem insertNode_full (hne : n ≠ (t.nodeAt n).bLink)
    (hfull : ¬ t.used (t.nodeAt n).records + t.weight key.record ≤ t.map.nodeSize) :
    insertNode disk key n n index none up ip t = rotateOr disk key n index (t.nodeAt n).bLink up ip t := by
  rw [insertNode, get_bind]
  simp only [if_neg hne]
  rw [bind_of_ok (insertKeyRecord_full (fun hfits => hfull (fits_iff.mp hfits)))]
  rw [rotateOr]
  by_cases hpos : 0 < (t.nodeAt n).bLink
  · simp only [hpos, true_and, if_true]
    by_cases hskip : key.skipRotate = false
    · simp only [hskip, if_true]
      rfl
    · simp only [hskip]
      rfl
  · simp only [hpos, false_and, if_false]
    rfl

/-- A node of height `h` before an insertion at an index. -/
structure Ready (chain : List ℕ) (h n index : ℕ) (t : BTree κ) : Prop where
  mapOk : NodeMapOk t.map chain
  bit : t.map.bit chain n = true
  real : t.Real n
  height : (t.nodeAt n).height = h
  type : (t.nodeAt n).type = .leaf ↔ h = 1
  used : t.used (t.nodeAt n).records ≤ t.map.nodeSize
  index_le : index ≤ (t.nodeAt n).records.length
  proper : ∀ x ∈ (t.nodeAt n).records, t.Proper h x
  realLeft : (t.nodeAt n).bLink ≠ 0 → t.Real (t.nodeAt n).bLink
  properLeft : (t.nodeAt n).bLink ≠ 0 → ∀ x ∈ (t.nodeAt (t.nodeAt n).bLink).records, t.Proper h x
  root : h = t.treeDepth → (t.nodeAt n).bLink = 0

/-- A key that goes into a node of height `h`. -/
structure InsertKey.Fit (key : InsertKey κ) (h : ℕ) (t : BTree κ) : Prop where
  stored : getKeyLength t key.storedLength (decide (h = 1)) = key.keyLength
  proper : t.Proper h key.record

/-- An insertion that leaves the root where it is. It changes a node, its left sibling and at most one
free node. -/
structure Settled (chain : List ℕ) (h n : ℕ) (up ip : Bool) (t : BTree κ) (r : Inserted) (t' : BTree κ) :
    Prop where
  kept : Kept chain [n, (t.nodeAt n).bLink] t t'
  treeDepth : t'.treeDepth = t.treeDepth
  rootNode : t'.rootNode = t.rootNode
  freeNodes : t.map.freeNodes ≤ t'.map.freeNodes + 1
  atRoot : h = t.treeDepth → r.updateParent = up ∧ r.insertParent = ip
  leftNode : ∀ m, r.leftNode = some m → m = (t.nodeAt n).bLink ∨ t.map.bit chain m = false
  proper : ∀ m, m = n ∨ r.leftNode = some m → ∀ x ∈ (t'.nodeAt m).records, t.Proper h x

/-- An insertion that puts a new root on top of the tree. -/
structure Grown (chain : List ℕ) (h n : ℕ) (up ip : Bool) (t : BTree κ) (r : Inserted) (t' : BTree κ) :
    Prop where
  atRoot : h = t.treeDepth
  kept : Kept chain [n, (t.nodeAt n).bLink] t t'
  treeDepth : t'.treeDepth = t.treeDepth + 1
  updateParent : r.updateParent = up
  insertParent : r.insertParent = ip
  proper : ∀ m, m = n ∨ r.leftNode = some m → ∀ x ∈ (t'.nodeAt m).records, t.Proper h x
  height : (t'.nodeAt n).height = h
  ne : ∀ m, m = n ∨ r.leftNode = some m → m ≠ t'.rootNode
  realRoot : t'.Real t'.rootNode
  root_ne_zero : t'.rootNode ≠ 0
  rootLink : (t'.nodeAt t'.rootNode).bLink = 0
  rootUsed : t'.used (t'.nodeAt t'.rootNode).records ≤ 16 + 2 * t.indexWeight

/-- The two nodes of a split. -/
structure Halved (chain : List ℕ) (h n left : ℕ) (t t' : BTree κ) : Prop where
  fresh : t.map.bit chain left = false
  real : t'.Real left
  realRight : t'.Real n
  bLink : (t'.nodeAt n).bLink = left
  roomy : h ≠ 1 → 16 + 5 * t.indexWeight ≤ t.map.nodeSize → Roomy left n t.indexWeight t'

/-- What becomes of a record that does not fit into its node. -/
def Overflowed (chain : List ℕ) (key : InsertKey κ) (h n : ℕ) (up ip : Bool) (t : BTree κ) (r : Inserted)
    (t' : BTree κ) : Prop :=
  (r.rootSplit = false ∧ Settled chain h n up ip t r t' ∧ (key.skipRotate = true → h ≠ t.treeDepth ∧
    ∃ left, r.leftNode = some left ∧ Halved chain h n left t t')) ∨
  (r.rootSplit = true ∧ Grown chain h n up ip t r t' ∧
    ∃ left, r.leftNode = some left ∧ Halved chain h n left t t')

theorem Ready.stored (hready : Ready chain h n index t) (hkey : key.Fit h t) :
    key.Stored t (t.nodeAt n).type := by
  have htype : decide ((t.nodeAt n).type = .leaf) = decide (h = 1) := by simp only [hready.type]
  rw [InsertKey.Stored, htype]
  exact hkey.stored

theorem Ready.around (hready : Ready chain h n index t) (hkey : key.Fit h t) : ∃ front back,
    (t.nodeAt n).records = front ++ back ∧ front.length = index ∧
      ∀ x ∈ front ++ key.record :: back, t.Proper h x := by
  have hrecords : (t.nodeAt n).records = (t.nodeAt n).records.take index ++ (t.nodeAt n).records.drop index :=
    (take_append_drop ..).symm
  refine ⟨_, _, hrecords, length_take_of_le hready.index_le, fun x hx => ?_⟩
  rcases mem_append.mp hx with hx | hx
  · exact hready.proper x (mem_of_mem_take hx)
  · rcases mem_cons.mp hx with rfl | hx
    · exact hkey.proper
    · exact hready.proper x (mem_of_mem_drop hx)

theorem splitOr_ends (hready : Ready chain h n index t) (hkey : key.Fit h t) (hh : h ≤ t.treeDepth)
    (hfree : t.treeDepth + 2 ≤ t.map.freeNodes + h)
    (hleft : ∀ l, l ∈ left → l = (t.nodeAt n).bLink ∧ l ≠ n) :
    Ends NotMap (splitOr key n index up ip left none) t (fun r t' => Overflowed chain key h n up ip t r t') := by
  obtain ⟨front, back, hrecords, rfl, hproper⟩ := hready.around hkey
  refine (splitLeft_ends hready.mapOk (by omega) hready.real hready.bit (fun hmem => (hleft n hmem).2 rfl)
    hrecords (hready.stored hkey)).bind ?_
  rintro ⟨new, r⟩ t₁ ⟨hsplit, hroomy⟩
  have hkept : Kept chain [n, (t.nodeAt n).bLink] t t₁ := by
    refine hsplit.kept.mono fun m hm => ?_
    rcases mem_cons.mp hm with rfl | hm
    · exact mem_cons_self
    · rw [(hleft m (Option.mem_toList.mp hm)).1]
      exact mem_cons_of_mem n mem_cons_self
  have hbit := hkept.bit n hready.bit
  have hroom : h ≠ 1 → 16 + 5 * t.indexWeight ≤ t.map.nodeSize → Roomy new n t.indexWeight t₁ := by
    intro hne hwide
    refine hroomy t.indexWeight ⟨hrecords ▸ hready.used, ?_, fun x hx => (hproper x hx).weight_le hne, hwide⟩
    have hdata : key.data.length = 4 := hkey.proper.data hne
    omega
  have hmade : Halved chain h n new t t₁ :=
    ⟨hsplit.fresh, hsplit.real, hkept.real n hready.bit hready.real, hsplit.bLink, hroom⟩
  have hrecords₁ : ∀ m, m = n ∨ m = new → ∀ x ∈ (t₁.nodeAt m).records, t.Proper h x := by
    rintro m (rfl | rfl) x hx
    · exact hproper x (hsplit.rightRecords x hx)
    · exact hproper x (hsplit.leftRecords x hx)
  refine Ends.get_bind ?_
  by_cases hroot : (t₁.nodeAt n).height = t₁.treeDepth
  · rw [if_pos hroot]
    rw [hsplit.height, hready.height, hsplit.treeDepth] at hroot
    have hcount := hsplit.freeNodes
    have hsmall : ∀ x, x ∈ (t₁.nodeAt new).records ∨ x ∈ (t₁.nodeAt n).records → ∀ m,
        t₁.weight ⟨x.key, getKeyLength t₁ x.keyLength false, nodeNumData m⟩ ≤ t.indexWeight := by
      intro x hx m
      have hx' : t.Proper h x := hx.elim (hrecords₁ new (.inr rfl) x) (hrecords₁ n (.inl rfl) x)
      have hindex := (hkept.proper.mpr hx').index m 2
      rw [← hkept.indexWeight]
      exact hindex.weight_le (by decide)
    refine (addNewRootNode_ends hkept.mapOk (by omega) hsplit.inUse hbit hsmall).bind ?_
    rintro - t₂ hrooted
    have hkept₂ : Kept chain [n, (t.nodeAt n).bLink] t t₂ :=
      hkept.trans hrooted.kept fun m hm => absurd hm not_mem_nil
    have hnode := hrooted.kept.node n hbit not_mem_nil
    have hnew := hrooted.kept.node new hsplit.inUse not_mem_nil
    refine Ends.pure (.inr ⟨rfl, ⟨hroot, hkept₂, ?_, rfl, rfl, ?_, ?_, ?_, hrooted.real, hrooted.ne_zero,
      hrooted.bLink, hrooted.used⟩, new, rfl, hsplit.fresh, hrooted.kept.real new hsplit.inUse hsplit.real,
      hkept₂.real n hready.bit hready.real, ?_, fun hne hwide => ?_⟩)
    · rw [hrooted.treeDepth, hsplit.treeDepth]
    · rintro m (rfl | hm)
      · rw [hnode]
        exact hrecords₁ m (.inl rfl)
      · obtain rfl := Option.some.inj hm
        rw [hnew]
        exact hrecords₁ new (.inr rfl)
    · rw [hnode, hsplit.height, hready.height]
    · intro m hm he
      have hfresh := hrooted.fresh
      rw [← he] at hfresh
      rcases hm with rfl | hm
      · exact Bool.false_ne_true (hfresh.symm.trans hbit)
      · obtain rfl := Option.some.inj hm
        exact Bool.false_ne_true (hfresh.symm.trans hsplit.inUse)
    · rw [hnode, hsplit.bLink]
    · obtain ⟨hl, hr⟩ := hroom hne hwide
      refine ⟨?_, ?_⟩
      · rwa [hrooted.kept.used, hnew, hrooted.kept.nodeSize]
      · rwa [hrooted.kept.used, hnode, hrooted.kept.nodeSize]
  · rw [if_neg hroot]
    rw [hsplit.height, hready.height, hsplit.treeDepth] at hroot
    have hcount := hsplit.freeNodes
    refine Ends.pure (.inl ⟨rfl, ⟨hkept, hsplit.treeDepth, hsplit.rootNode, by omega, fun he => absurd he hroot,
      fun m hm => .inr (Option.some.inj hm ▸ hsplit.fresh), ?_⟩, fun _ => ⟨hroot, new, rfl, hmade⟩⟩)
    rintro m (rfl | hm)
    · exact hrecords₁ m (.inl rfl)
    · exact hrecords₁ m (.inr (Option.some.inj hm).symm)

theorem fetchNode_ends (disk : ℕ → Bool) (n : ℕ) (t : BTree κ) :
    Ends NotMap (fetchNode disk n) t (fun _ t' => t' = t) := by
  refine Ends.of_fun (fun a t' hok => ?_) (fun e t' herror => ?_)
  · rw [fetchNode] at hok
    split at hok
    · cases hok
      rfl
    · cases hok
  · rw [fetchNode] at herror
    split at herror
    · cases herror
    · next err hget =>
      cases herror
      rw [BTree.getNode] at hget
      split at hget
      · cases hget
        exact fun _ he => OSStatus.noConfusion he
      · split at hget
        · cases hget
          exact fun _ he => OSStatus.noConfusion he
        · cases hget

theorem rotateOr_ends (hready : Ready chain h n index t) (hkey : key.Fit h t) (hh : h ≤ t.treeDepth)
    (hfree : t.treeDepth + 2 ≤ t.map.freeNodes + h) (hne : n ≠ (t.nodeAt n).bLink) :
    Ends NotMap (rotateOr disk key n index (t.nodeAt n).bLink up ip) t
      (fun r t' => Overflowed chain key h n up ip t r t') := by
  rw [rotateOr]
  by_cases hpos : 0 < (t.nodeAt n).bLink
  · have hlink : (t.nodeAt n).bLink ≠ 0 := Nat.ne_of_gt hpos
    have hsplit : Ends NotMap (splitOr key n index up ip (some (t.nodeAt n).bLink) none) t
        (fun r t' => Overflowed chain key h n up ip t r t') := by
      refine splitOr_ends hready hkey hh hfree fun l hl => ?_
      obtain rfl := Option.some.inj hl
      exact ⟨rfl, hne.symm⟩
    rw [if_pos hpos]
    refine (fetchNode_ends disk (t.nodeAt n).bLink t).bind ?_
    rintro - t₀ rfl
    by_cases hskip : key.skipRotate = false
    · rw [if_pos hskip]
      obtain ⟨front, back, hrecords, rfl, hproper⟩ := hready.around hkey
      refine (rotateLeft_ends hne.symm (hready.realLeft hlink) hready.real rfl hrecords
        (hready.stored hkey) rfl).bind ?_
      rintro rotated t₁ hrotated
      cases rotated with
      | none =>
        obtain ⟨-, rfl⟩ := hrotated
        exact hsplit
      | some r =>
        obtain ⟨hrefill, -, hl, hr⟩ := hrotated
        refine Ends.pure (.inl ⟨rfl, ⟨?_, hrefill.treeDepth, hrefill.rootNode, ?_, ?_, ?_, ?_⟩, ?_⟩)
        · exact (hrefill.kept hready.mapOk).mono (by simp)
        · rw [hrefill.map]
          exact Nat.le_succ _
        · exact fun he => absurd (hready.root he) hlink
        · exact fun m hm => .inl (Option.some.inj hm).symm
        · rintro m (rfl | hm) x hx
          · rw [hr] at hx
            exact hproper x (mem_of_mem_drop hx)
          · obtain rfl := Option.some.inj hm
            rw [hl] at hx
            rcases mem_append.mp hx with hx | hx
            · exact hready.properLeft hlink x hx
            · exact hproper x (mem_of_mem_take hx)
        · exact fun htrue => absurd (htrue.symm.trans hskip) (by decide)
    · rw [if_neg hskip]
      exact hsplit
  · rw [if_neg hpos]
    exact splitOr_ends hready hkey hh hfree fun l hl => absurd hl (Option.not_mem_none l)

theorem insertNode_ends (hready : Ready chain h n index t) (hkey : key.Fit h t) (hh : h ≤ t.treeDepth)
    (hfree : t.treeDepth + 2 ≤ t.map.freeNodes + h) :
    Ends NotMap (insertNode disk key n n index none up ip) t (fun r t' =>
      if t.used (t.nodeAt n).records + t.weight key.record ≤ t.map.nodeSize then
        r = placed n index none up ip (decide (index = 0) && decide (h ≠ t.treeDepth)) ∧
          t' = t.setRecords n ((t.nodeAt n).records.insertIdx index key.record)
      else Overflowed chain key h n up ip t r t') := by
  by_cases hne : n = (t.nodeAt n).bLink
  · have hthrow : insertNode disk key n n index none up ip t = .error .noResult t := by
      rw [insertNode, get_bind]
      simp only [if_pos hne]
      rfl
    exact Ends.of_error hthrow (fun _ he => OSStatus.noConfusion he)
  · by_cases hfits : t.used (t.nodeAt n).records + t.weight key.record ≤ t.map.nodeSize
    · refine Ends.of_ok (insertNode_fits (if_neg hne) hfits) ?_
      rw [if_pos hfits, hready.height]
      exact ⟨rfl, rfl⟩
    · rw [Ends, insertNode_full hne hfits, ← Ends]
      refine (rotateOr_ends hready hkey hh hfree hne).mono fun r t' hover => ?_
      rwa [if_neg hfits]

end node

/-! ## The two insertions of a level -/

section pair
variable {t t' : BTree κ} {disk : ℕ → Bool} {chain : List ℕ} {n h index left : ℕ} {key second : InsertKey κ}
  {up ip : Bool} {first r : Inserted}

theorem Ready.insert (hready : Ready chain h n index t) (hkey : key.Fit h t)
    (hfits : t.used (t.nodeAt n).records + t.weight key.record ≤ t.map.nodeSize) :
    Ready chain h n index (t.setRecords n ((t.nodeAt n).records.insertIdx index key.record)) := by
  have hrefill := refilled_setRecords t n ((t.nodeAt n).records.insertIdx index key.record)
  have hself : ((t.setRecords n ((t.nodeAt n).records.insertIdx index key.record)).nodeAt n).records =
      (t.nodeAt n).records.insertIdx index key.record := records_setRecords hready.real
  have hkept := hrefill.kept hready.mapOk
  have hdescriptor := hrefill.descriptor n
  have hlink : ((t.setRecords n ((t.nodeAt n).records.insertIdx index key.record)).nodeAt n).bLink =
      (t.nodeAt n).bLink := congrArg (fun d => d.2.2.2) hdescriptor
  have hproper : ∀ x ∈ (t.nodeAt n).records.insertIdx index key.record, t.Proper h x := by
    intro x hx
    rcases eq_or_mem_of_mem_insertIdx hx with rfl | hx
    · exact hkey.proper
    · exact hready.proper x hx
  generalize hinserted : t.setRecords n ((t.nodeAt n).records.insertIdx index key.record) = t' at *
  refine ⟨hkept.mapOk, hkept.bit n hready.bit, hkept.real n hready.bit hready.real, ?_, ?_, ?_, ?_, ?_, ?_, ?_, ?_⟩
  · exact (congrArg (fun d => d.2.1) hdescriptor).trans hready.height
  · have htype : (t'.nodeAt n).type = (t.nodeAt n).type := congrArg (fun d => d.1) hdescriptor
    rw [htype]
    exact hready.type
  · rw [hself, hrefill.used, hrefill.map]
    exact (used_insertIdx_le _ index).trans hfits
  · rw [hself, length_insertIdx_of_le_length hready.index_le]
    exact Nat.le_succ_of_le hready.index_le
  · rw [hself]
    exact fun x hx => hkept.proper.mpr (hproper x hx)
  · rw [hlink]
    exact fun h0 => hrefill.real.mpr (hready.realLeft h0)
  · rw [hlink]
    intro h0 x hx
    refine hkept.proper.mpr ?_
    by_cases hne : (t.nodeAt n).bLink = n
    · rw [hne, hself] at hx
      exact hproper x hx
    · rw [hrefill.node _ (fun hm => hne (mem_singleton.mp hm))] at hx
      exact hready.properLeft h0 x hx
  · rw [hlink, hrefill.treeDepth]
    exact hready.root

theorem settled_placed (hready : Ready chain h n index t) (hkey : key.Fit h t) (hroot : h = t.treeDepth → up = false) :
    Settled chain h n false false t (placed n index none up false (decide (index = 0) && decide (h ≠ t.treeDepth)))
      (t.setRecords n ((t.nodeAt n).records.insertIdx index key.record)) := by
  have hrefill := refilled_setRecords t n ((t.nodeAt n).records.insertIdx index key.record)
  refine ⟨(hrefill.kept hready.mapOk).mono (by simp), rfl, rfl, Nat.le_succ _, fun he => ⟨?_, rfl⟩, fun m hm => ?_, ?_⟩
  · simp [placed, hroot he, he]
  · cases hm
  · rintro m (rfl | hm) x hx
    · rw [records_setRecords hready.real] at hx
      rcases eq_or_mem_of_mem_insertIdx hx with rfl | hx
      · exact hkey.proper
      · exact hready.proper x hx
    · cases hm

/-- What the insertions of a level leave to the level above: nothing, or keys for the parent under the old
root, or, in wide nodes, a key for a new root. -/
def LevelDone (chain : List ℕ) (h n root : ℕ) (t : BTree κ) (first last : Inserted) (t' : BTree κ) : Prop :=
  (last.insertParent = false ∧ last.updateParent = false) ∨
  (first.rootSplit = false ∧ Settled chain h n false false t last t') ∨
  (first.rootSplit = true ∧ root = t'.rootNode ∧ 16 + 5 * t.indexWeight ≤ t.map.nodeSize ∧
    Grown chain h n last.updateParent false t last t')

theorem Overflowed.done (hover : Overflowed chain key h n false false t r t') (root : ℕ) :
    LevelDone chain h n root t r r t' := by
  rcases hover with ⟨hsplit, hsettled, -⟩ | ⟨-, hgrown, -⟩
  · exact .inr (.inl ⟨hsplit, hsettled⟩)
  · exact .inl ⟨hgrown.insertParent, hgrown.updateParent⟩

theorem Kept.fit {nodes : List ℕ} (hk : Kept chain nodes t t') (hkey : key.Fit h t) : key.Fit h t' := by
  have hstored := hkey.stored
  refine ⟨?_, hk.proper.mpr hkey.proper⟩
  rw [getKeyLength] at hstored ⊢
  rwa [hk.variableIndexKeys, hk.maxKeyLength]

theorem Settled.behind {t₁ : BTree κ} (hsettled : Settled chain h n up ip t₁ r t') (hrefill : Refilled [n] t t₁)
    (hm : NodeMapOk t.map chain) (hup : h = t.treeDepth → up = false) (hip : ip = false) :
    Settled chain h n false false t r t' := by
  have hkept := hrefill.kept hm
  have hlink : (t₁.nodeAt n).bLink = (t.nodeAt n).bLink := congrArg (fun d => d.2.2.2) (hrefill.descriptor n)
  refine ⟨?_, hsettled.treeDepth.trans hrefill.treeDepth, hsettled.rootNode.trans hrefill.rootNode, ?_, ?_, ?_, ?_⟩
  · have hsub : [n] ⊆ [n, (t.nodeAt n).bLink] := by simp
    refine (hkept.mono hsub).trans hsettled.kept fun m hmem _ => ?_
    rwa [hlink] at hmem
  · rw [← hrefill.map]
    exact hsettled.freeNodes
  · intro he
    obtain ⟨hflag, hflag'⟩ := hsettled.atRoot (he.trans hrefill.treeDepth.symm)
    exact ⟨hflag.trans (hup he), hflag'.trans hip⟩
  · rw [← hlink, ← hrefill.map]
    exact hsettled.leftNode
  · exact fun m hmem x hx => hkept.proper.mp (hsettled.proper m hmem x hx)

theorem insertNode_behind_fits (hready : Ready chain h n index t) (hkey : key.Fit h t)
    (hsecond : second.Fit h t) (hh : h ≤ t.treeDepth) (hfree : t.treeDepth + 2 ≤ t.map.freeNodes + h)
    (hfits : t.used (t.nodeAt n).records + t.weight key.record ≤ t.map.nodeSize)
    (hup : h = t.treeDepth → up = false) (hfirst : first.rootSplit = false) (root : ℕ) :
    Ends NotMap (insertNode disk second n n index none up false)
      (t.setRecords n ((t.nodeAt n).records.insertIdx index key.record))
      (fun last t' => LevelDone chain h n root t first last t') := by
  have hready' := hready.insert hkey hfits
  have hrefill := refilled_setRecords t n ((t.nodeAt n).records.insertIdx index key.record)
  have hsecond' := (hrefill.kept hready.mapOk).fit hsecond
  refine (insertNode_ends hready' hsecond' hh hfree).mono fun last t' hlast => ?_
  split at hlast
  · obtain ⟨rfl, rfl⟩ := hlast
    exact .inr (.inl ⟨hfirst, (settled_placed hready' hsecond' hup).behind hrefill hready.mapOk
      (fun _ => rfl) rfl⟩)
  · rcases hlast with ⟨-, hsettled, -⟩ | ⟨-, hgrown, -⟩
    · exact .inr (.inl ⟨hfirst, hsettled.behind hrefill hready.mapOk hup rfl⟩)
    · exact .inl ⟨hgrown.insertParent, hgrown.updateParent.trans (hup hgrown.atRoot)⟩

theorem insertNode_behind_split (hready : Ready chain h n index t) (hover : Overflowed chain key h n false false t first t')
    (hskip : key.skipRotate = true) (hsecond : second.Fit h t) (hh : h ≠ 1)
    (hwide : 16 + 5 * t.indexWeight ≤ t.map.nodeSize) :
    Ends NotMap (insertNode disk second n first.newNode first.newIndex first.leftNode first.updateParent
      first.insertParent) t' (fun last t'' => LevelDone chain h n t'.rootNode t first last t'') := by
  obtain ⟨left, hleft, hkept, hhalved⟩ : ∃ left, first.leftNode = some left ∧
      Kept chain [n, (t.nodeAt n).bLink] t t' ∧ Halved chain h n left t t' := by
    rcases hover with ⟨-, hsettled, hmade⟩ | ⟨-, hgrown, left, hleft, hmade⟩
    · obtain ⟨-, left, hleft, hmade⟩ := hmade hskip
      exact ⟨left, hleft, hsettled.kept, hmade⟩
    · exact ⟨left, hleft, hgrown.kept, hmade⟩
  obtain ⟨target, htarget, hmem⟩ : ∃ target, (if first.newNode = (t'.nodeAt n).bLink then first.leftNode
      else some n) = some target ∧ (target = n ∨ target = left) := by
    rw [hleft]
    split
    · exact ⟨left, rfl, .inr rfl⟩
    · exact ⟨n, rfl, .inl rfl⟩
  have hroom := hhalved.roomy hh hwide
  have hweight : t'.weight second.record ≤ t.indexWeight := by
    rw [hkept.weight]
    exact hsecond.proper.weight_le hh
  have hfits : t'.used (t'.nodeAt target).records + t'.weight second.record ≤ t'.map.nodeSize := by
    rcases hmem with rfl | rfl
    · exact (Nat.add_le_add_left hweight _).trans hroom.right
    · exact (Nat.add_le_add_left hweight _).trans hroom.left
  have hreal : t'.Real target := by
    rcases hmem with rfl | rfl
    · exact hhalved.realRight
    · exact hhalved.real
  refine Ends.of_ok (insertNode_fits htarget hfits) ?_
  have hrefill := refilled_setRecords t' target
    ((t'.nodeAt target).records.insertIdx first.newIndex second.record)
  have hself : ((t'.setRecords target ((t'.nodeAt target).records.insertIdx first.newIndex
      second.record)).nodeAt target).records =
      (t'.nodeAt target).records.insertIdx first.newIndex second.record := records_setRecords hreal
  generalize t'.setRecords target ((t'.nodeAt target).records.insertIdx first.newIndex second.record) = t'' at *
  have hkept' : Kept chain [n, (t.nodeAt n).bLink] t t'' := by
    refine hkept.trans (hrefill.kept hkept.mapOk) fun m hm hbit => ?_
    obtain rfl := mem_singleton.mp hm
    rcases hmem with rfl | rfl
    · exact mem_cons_self
    · exact absurd (hhalved.fresh.symm.trans hbit) Bool.false_ne_true
  have hrecords : ∀ m, (∀ x ∈ (t'.nodeAt m).records, t.Proper h x) →
      ∀ x ∈ (t''.nodeAt m).records, t.Proper h x := by
    intro m hproper x hx
    by_cases hm : m = target
    · subst hm
      rw [hself] at hx
      rcases eq_or_mem_of_mem_insertIdx hx with rfl | hx
      · exact hsecond.proper
      · exact hproper x hx
    · rw [hrefill.node m (fun hmem => hm (mem_singleton.mp hmem))] at hx
      exact hproper x hx
  rcases hover with ⟨hsplit, hsettled, hmade⟩ | ⟨hsplit, hgrown, -⟩
  · have hdepth := (hmade hskip).1
    refine .inr (.inl ⟨hsplit, hkept', hrefill.treeDepth.trans hsettled.treeDepth,
      hrefill.rootNode.trans hsettled.rootNode, ?_, fun he => absurd he hdepth, hsettled.leftNode, fun m hm => ?_⟩)
    · rw [hrefill.map]
      exact hsettled.freeNodes
    · exact hrecords m (hsettled.proper m hm)
  · have hroot : t''.nodeAt t'.rootNode = t'.nodeAt t'.rootNode := by
      refine hrefill.node _ fun hmem' => ?_
      obtain he := mem_singleton.mp hmem'
      rcases hmem with rfl | rfl
      · exact hgrown.ne _ (.inl rfl) he.symm
      · exact hgrown.ne _ (.inr hleft) he.symm
    refine .inr (.inr ⟨hsplit, hrefill.rootNode.symm, hwide, hgrown.atRoot, hkept', ?_, rfl, hgrown.insertParent,
      fun m hm => hrecords m (hgrown.proper m hm), ?_, ?_, ?_, ?_, ?_, ?_⟩)
    · exact (hrefill.treeDepth).trans hgrown.treeDepth
    · exact (congrArg (fun d => d.2.1) (hrefill.descriptor n)).trans hgrown.height
    · rw [hrefill.rootNode]
      exact hgrown.ne
    · rw [hrefill.rootNode]
      exact hrefill.real.mpr hgrown.realRoot
    · rw [hrefill.rootNode]
      exact hgrown.root_ne_zero
    · rw [hrefill.rootNode, hroot]
      exact hgrown.rootLink
    · rw [hrefill.rootNode, hroot, hrefill.used]
      exact hgrown.rootUsed

end pair

end Darwin.Hfs.BTreeRecords
