import Darwin.Hfs.BTreeInsert
import Darwin.Hfs.BTreeIterate
import Darwin.Hfs.NodeMapAccounting

/-! # Setting a record

`BTSetRecord` against `BTInsertRecord` and `BTReplaceRecord`. On a key that is present it does
what `BTReplaceRecord` does. On an absent key it lacks the insertion before the file is
extended, and in an empty tree it forgets the first and last leaf node.
-/
namespace Darwin.Hfs.BTreeRecords
open Darwin.Lib List
open Darwin.Hfs.BTreeAllocate (NodeType NodeMapOk MapShape Grows)

variable {κ : Type}

/-! ## Extending the file -/

/-- What a longer file keeps of a node map. -/
structure Extended (map map' : BTreeAllocate.BTree) : Prop where
  nodeSize : map'.nodeSize = map.nodeSize
  totalNodes : map.totalNodes ≤ map'.totalNodes
  fcbEOF : map.fcbEOF ≤ map'.fcbEOF
  type : ∀ n < map.totalNodes, (map'.node n).type = (map.node n).type

theorem Extended.refl (map : BTreeAllocate.BTree) : Extended map map :=
  ⟨rfl, Nat.le_refl _, Nat.le_refl _, fun _ _ => rfl⟩

theorem extended_addMapNodes {s s' : Io BTreeAllocate.BTree} {front : List ℕ} {last new : ℕ}
    (h : NodeMapOk s.st (front ++ [last])) (hnew : new = s.st.fcbEOF / s.st.nodeSize)
    (hok : (BTreeAllocate.addMapNodes s.st.totalNodes new ⟨last, s.st.totalMapBits front,
      s.st.totalMapBits (front ++ [last])⟩).run s = .ok () s') : Extended s.st s'.st := by
  have hmax : new < 2 ^ 23 := hnew ▸ h.div_lt h.fcbEOF
  have hle : s.st.totalNodes ≤ new := hnew ▸ h.totalNodes_le
  by_cases hfit : new ≤ s.st.totalMapBits (front ++ [last])
  · have hst := ((BTreeAllocate.takes_addMapNodes_fits (s.st.totalMapBits front) hfit).of_ok hok).2.2
    rw [hst]
    exact ⟨rfl, hle, Nat.le_refl _, fun _ _ => rfl⟩
  · have hmore := Nat.lt_of_not_le hfit
    obtain ⟨-, hfit' | hstart⟩ := (BTreeAllocate.addMapNodes_returns_iff h.toMapShape hmax).mp ⟨s', hok⟩
    · exact absurd hfit' hfit
    · obtain ⟨t', hmarked, hst⟩ := ((BTreeAllocate.takes_addMapNodes_links h.toMapShape hmore hmax
        hstart).of_ok hok).2.2
      rw [hst]
      refine ⟨hmarked.shape.nodeSize, ?_, Nat.le_of_eq hmarked.shape.fcbEOF.symm, ?_⟩
      · exact hle.trans (Nat.le_of_eq hmarked.shape.totalNodes.symm)
      · intro n hn
        change (t'.node n).type = _
        rw [hmarked.shape.type, BTreeAllocate.grown_node_old hn]
        split_ifs with hlast
        · rw [hlast]
        · rfl

theorem extended_extendBTree {s s' : Io BTreeAllocate.BTree} {chain : List ℕ}
    (h : NodeMapOk s.st chain) {setEndOfForkProc : ℕ → ℕ → ℕ × Bool} {newTotalNodes : ℕ}
    (hgrows : Grows setEndOfForkProc)
    (hok : (BTreeAllocate.extendBTree setEndOfForkProc newTotalNodes).run s = .ok () s') :
    Extended s.st s'.st := by
  rcases h.extend_cases hgrows hok with hst | ⟨front, last, eof, s₁, rfl, hge, hst, h₁, hadd⟩
  · rw [hst]
    exact Extended.refl _
  · have hext := extended_addMapNodes h₁ rfl hadd
    rw [hst] at hext
    exact ⟨hext.nodeSize, hext.totalNodes, hge.trans hext.fcbEOF, hext.type⟩

/-! ## Agreement -/

section Agreement
variable [Ord κ]

/-- The tree that a call leaves. -/
def treeOf : EStateM.Result OSStatus (BTree κ) ℕ → BTree κ
  | .ok _ btree => btree
  | .error _ btree => btree

/-- The error of a call, and none for `noErr`. -/
def statusOf : EStateM.Result OSStatus (BTree κ) ℕ → Option OSStatus
  | .ok _ _ => none
  | .error err _ => some err

/-- The same root, depth, first and last leaf, count of records and leaf contents. -/
structure SameTree (btree btree' : BTree κ) : Prop where
  rootNode : btree'.rootNode = btree.rootNode
  treeDepth : btree'.treeDepth = btree.treeDepth
  firstLeafNode : btree'.firstLeafNode = btree.firstLeafNode
  lastLeafNode : btree'.lastLeafNode = btree.lastLeafNode
  leafRecords : btree'.leafRecords = btree.leafRecords
  leaves : ∀ n < btree.map.totalNodes, (btree.nodeAt n).type = .leaf ∨
    (btree'.nodeAt n).type = .leaf → btree'.nodeAt n = btree.nodeAt n

/-- Two calls have the same status and leave the same tree with the same first and last
record. -/
structure Agree (r r' : EStateM.Result OSStatus (BTree κ) ℕ) : Prop where
  status : statusOf r' = statusOf r
  tree : SameTree (treeOf r) (treeOf r')
  iterate : ∀ operation, operation = .first ∨ operation = .last → ∀ disk iterator recordSize,
    btIterateRecord (treeOf r') disk operation iterator recordSize =
      btIterateRecord (treeOf r) disk operation iterator recordSize

theorem Agree.refl (r : EStateM.Result OSStatus (BTree κ) ℕ) : Agree r r :=
  ⟨rfl, ⟨rfl, rfl, rfl, rfl, rfl, fun _ _ _ => rfl⟩, fun _ _ _ _ _ => rfl⟩

/-- A record of the tree has the key. -/
def Present (btree : BTree κ) (leaves : List ℕ) (key : κ) : Prop :=
  ∃ record ∈ btree.contents leaves, probe key record = .eq

/-- `BTSetRecord` does what `BTReplaceRecord` does on a present key, and what `BTInsertRecord`
does on an absent one. -/
def Agrees (agent : Agent) (iterator : Iterator κ) (record : List UInt8) (btree : BTree κ)
    (leaves : List ℕ) : Prop :=
  (Present btree leaves iterator.key →
    Agree (btReplaceRecord agent iterator record btree) (btSetRecord agent iterator record btree)) ∧
  (¬ Present btree leaves iterator.key →
    Agree (btInsertRecord agent iterator record btree) (btSetRecord agent iterator record btree))

/-- The record fits into the leaf of its key, and not in front of it. -/
def FitsLeaf (btree : BTree κ) (disk : ℕ → Bool) (iterator : Iterator κ) (record : List UInt8) :
    Prop :=
  ∃ found, searchTree btree disk iterator.key = .ok found ∧ 0 < found.index ∧
    btree.getRecordSize ⟨iterator.key, iterator.keyLength, record⟩ + 2 ≤
      btree.getNodeFreeSize found.node

/-- An absent key can be set like it is inserted: no node can be had for the first leaf of an
empty tree, or in another tree the file can be extended before a record goes into its leaf. -/
def SetsAbsent (agent : Agent) (iterator : Iterator κ) (record : List UInt8) (btree : BTree κ) :
    Prop :=
  if btree.treeDepth = 0 then ∀ n btree', allocateFirst agent btree ≠ .ok n btree'
  else FitsLeaf btree agent.disk iterator record → ∀ nodes, nodesNeeded btree = some nodes →
    ∃ btree', liftMap (BTreeAllocate.extendBTree agent.setEndOfForkProc nodes) btree =
      .ok () btree'

end Agreement

/-! ## Running the routines -/

section Running
variable {α β : Type}

theorem get_bind (f : BTree κ → TreeM κ α) (btree : BTree κ) : (get >>= f) btree = f btree btree :=
  rfl

theorem bind_of_ok {m : TreeM κ α} {f : α → TreeM κ β} {btree btree' : BTree κ} {a : α}
    (h : m btree = .ok a btree') : (m >>= f) btree = f a btree' := by
  change EStateM.bind m f btree = _
  rw [EStateM.bind, h]

theorem bind_of_error {m : TreeM κ α} {f : α → TreeM κ β} {btree btree' : BTree κ} {err : OSStatus}
    (h : m btree = .error err btree') : (m >>= f) btree = .error err btree' := by
  change EStateM.bind m f btree = _
  rw [EStateM.bind, h]

theorem insertKeyRecord_fits {btree : BTree κ} {n index keyLength : ℕ} {key : κ}
    {data : List UInt8}
    (h : btree.getRecordSize ⟨key, keyLength, data⟩ + 2 ≤ btree.getNodeFreeSize (btree.nodeAt n)) :
    insertKeyRecord n index key keyLength data btree = .ok true (btree.setRecords n
      ((btree.nodeAt n).records.insertIdx index ⟨key, keyLength, data⟩)) := by
  rw [insertKeyRecord, insertRecord, get_bind, if_neg (Nat.not_lt.mpr h)]
  rfl

theorem insertKeyRecord_full {btree : BTree κ} {n index keyLength : ℕ} {key : κ}
    {data : List UInt8}
    (h : ¬ btree.getRecordSize ⟨key, keyLength, data⟩ + 2 ≤ btree.getNodeFreeSize (btree.nodeAt n)) :
    insertKeyRecord n index key keyLength data btree = .ok false btree := by
  rw [insertKeyRecord, insertRecord, get_bind, if_pos (Nat.lt_of_not_le h)]
  rfl

theorem insertTree_fits {btree : BTree κ} {disk : ℕ → Bool} {path : TreePathTable}
    {n index keyLength : ℕ} {key : κ} {data : List UInt8} (hpath : (path 1).1 = n)
    (hlink : n ≠ (btree.nodeAt n).bLink) (hindex : 0 < index)
    (h : btree.getRecordSize ⟨key, keyLength, data⟩ + 2 ≤ btree.getNodeFreeSize (btree.nodeAt n)) :
    insertTree disk path key keyLength data index 1 false btree = .ok n (btree.setRecords n
      ((btree.nodeAt n).records.insertIdx index ⟨key, keyLength, data⟩)) := by
  have hkey : getKeyLength btree keyLength (decide (1 = 1)) = keyLength := by
    simp [getKeyLength]
  have hfirst : ∀ k : InsertKey κ, k.key = key → k.keyLength = keyLength → k.data = data →
      insertNode disk k n n index none false false btree = .ok ⟨n, index, none, false, false, false⟩
        (btree.setRecords n ((btree.nodeAt n).records.insertIdx index ⟨key, keyLength, data⟩)) := by
    rintro k rfl rfl rfl
    rw [insertNode, get_bind]
    simp only [hlink, if_false]
    rw [bind_of_ok (insertKeyRecord_fits h)]
    simp only [if_true, Nat.ne_of_gt hindex, decide_false, Bool.false_and, Bool.or_self]
    rfl
  rw [insertTree, get_bind, insertLevel, hkey, hpath, bind_of_ok (hfirst _ rfl rfl rfl), get_bind]
  rfl

end Running

/-! ## Keys of a valid tree -/

section Valid
variable [Ord κ] {btree : BTree κ} {leaves chain : List ℕ} {agent : Agent}
  {iterator : Iterator κ} {record : List UInt8}

theorem not_present_of_empty (h : btree.Valid leaves) (hd : btree.treeDepth = 0) (key : κ) :
    ¬ Present btree leaves key := by
  rintro ⟨r, hr, -⟩
  rw [h.contents_empty hd] at hr
  cases hr

theorem searchNode_nil {node : Node κ} (hnil : node.records = []) (key : κ) :
    searchNode key node = (false, 0) := by
  simp [searchNode, Node.numRecords, hnil, bisect]

theorem trySimpleReplace_absent {n : ℕ} (h : (btree.nodeAt n).type = .leaf →
    (searchNode iterator.key (btree.nodeAt n)).1 = false) :
    trySimpleReplace n iterator record btree = .ok false btree := by
  rw [trySimpleReplace, get_bind]
  by_cases hleaf : (btree.nodeAt n).type = .leaf
  · simp only [hleaf, ne_eq, not_true_eq_false, if_false]
    rw [← Prod.mk.eta (p := searchNode iterator.key (btree.nodeAt n)), h hleaf]
    rfl
  · simp only [ne_eq, hleaf, not_false_eq_true, if_true]
    rfl

variable [Std.TransOrd κ]

theorem BTree.Valid.searchTree (h : btree.Valid leaves) (hd : btree.treeDepth ≠ 0)
    (disk : ℕ → Bool) (key : κ) : ∃ found, searchTree btree disk key = .ok found ∧
      found.treePathTable 1 = (found.nodeNum, found.index) ∧
      found.node = btree.nodeAt found.nodeNum ∧ found.nodeNum ∈ leaves ∧
      (found.keyFound = true ↔ Present btree leaves key) := by
  obtain ⟨path, pre, m, post, found, index, hsearch, hpath, hleaves, hin⟩ :=
    (h.spans hd).search (Nat.le_add_right btree.treeDepth btree.map.totalNodes)
  refine ⟨⟨path, m, btree.nodeAt m, index, found⟩, ?_, hpath, rfl, by simp [hleaves], ?_⟩
  · rw [BTreeRecords.searchTree, if_neg hd, hsearch]
  · have hcut := hin.cut.append hin.before hin.behind
    rw [← contents_cons, ← contents_append, ← hleaves] at hcut
    exact hcut.found_iff

theorem BTree.Valid.ne_bLink (h : btree.Valid leaves) {n : ℕ} (hn : n ∈ leaves) :
    n ≠ (btree.nodeAt n).bLink := by
  obtain ⟨pre, post, rfl⟩ := append_of_mem hn
  have hleaf := (h.leaf n hn).1
  intro heq
  obtain ⟨front, l, rfl, hl⟩ := h.left (heq ▸ hleaf.pos)
  rw [← heq] at hl
  subst hl
  obtain ⟨x, hx⟩ := exists_mem_of_ne_nil _ hleaf.nonempty
  have hsorted := h.sorted
  rw [contents_append, contents_cons, pairwise_append] at hsorted
  have hbefore := hsorted.2.2 x (mem_contents.mpr ⟨n, by simp, hx⟩) x (mem_append_left _ hx)
  rw [Record.Before, Std.ReflOrd.compare_self] at hbefore
  cases hbefore

theorem BTree.Valid.replaceAtHint (h : btree.Valid leaves)
    (habsent : ¬ Present btree leaves iterator.key) :
    replaceAtHint agent iterator record btree = .ok false btree := by
  rw [BTreeRecords.replaceAtHint, get_bind]
  split_ifs with h0
  · rfl
  · cases hget : btree.getNode agent.disk iterator.nodeNum with
    | error err => rfl
    | ok node =>
      apply trySimpleReplace_absent
      intro hleaf
      have hnode : node = btree.nodeAt iterator.nodeNum := by
        rw [BTree.getNode] at hget
        split_ifs at hget
        exact (Except.ok.inj hget).symm
      by_cases hnil : (btree.nodeAt iterator.nodeNum).records = []
      · rw [searchNode_nil hnil]
      · have hrec : node.hasRecords = true := by
          have := length_pos_iff.mpr hnil
          simp [Node.hasRecords, Node.numRecords, hnode, hleaf, this]
        have hmem := (h.mem_leaves hget hrec).1
        have hcut := searchNode_cut (h.leaf _ hmem).1.sorted iterator.key
        rw [Bool.eq_false_iff]
        intro hfound
        apply habsent
        obtain ⟨r, hr, heq⟩ := hcut.found_iff.mp hfound
        exact ⟨r, mem_contents.mpr ⟨_, hmem, hr⟩, heq⟩

end Valid

/-! ## The routines on a present and on an absent key -/

/-- `CheckInsertParams` lets the record through. -/
def Admissible (btree : BTree κ) (iterator : Iterator κ) (record : List UInt8) : Prop :=
  padded (btree.calcKeySize iterator.keyLength) + padded record.length ≤ btree.map.nodeSize / 2

instance (btree : BTree κ) (iterator : Iterator κ) (record : List UInt8) :
    Decidable (Admissible btree iterator record) := inferInstanceAs (Decidable (_ ≤ _))

section Routines
variable {btree : BTree κ} {leaves chain : List ℕ} {agent : Agent} {iterator : Iterator κ}
  {record : List UInt8} {found : Found κ}

theorem Admissible.check (h : Admissible btree iterator record) (hm : NodeMapOk btree.map chain) :
    checkInsertParams btree iterator record = true := by
  have hsize := hm.nodeSize.2.1
  rw [Admissible] at h
  rw [checkInsertParams, calcKeyRecordSize, Nat.mod_eq_of_lt (by omega)]
  exact decide_eq_true h

/-- The insertion behind the search. -/
def insertFound (agent : Agent) (iterator : Iterator κ) (record : List UInt8) (found : Found κ) :
    TreeM κ ℕ := do
  makeRoom agent
  let insertNodeNum ← insertTree agent.disk found.treePathTable iterator.key
    iterator.keyLength record found.index 1 false
  countRecord
  pure insertNodeNum

variable [Ord κ]

theorem set_eq_replace (hsearch : searchTree btree agent.disk iterator.key = .ok found)
    (hfound : found.keyFound = true) :
    btSetRecord agent iterator record btree = btReplaceRecord agent iterator record btree := by
  rw [btSetRecord, btReplaceRecord, get_bind, get_bind]
  simp only [hsearch, hfound, if_true]

theorem insert_absent_full (hcheck : checkInsertParams btree iterator record = true)
    (hsearch : searchTree btree agent.disk iterator.key = .ok found)
    (hnode : found.node = btree.nodeAt found.nodeNum) (hfound : found.keyFound = false)
    (hfull : ¬ FitsLeaf btree agent.disk iterator record) :
    btInsertRecord agent iterator record btree = insertFound agent iterator record found btree := by
  rw [btInsertRecord, get_bind]
  simp only [hcheck, Bool.true_eq_false, if_false, hsearch, hfound, Bool.false_eq_true]
  split_ifs with hindex
  · have hfit : ¬ btree.getRecordSize ⟨iterator.key, iterator.keyLength, record⟩ + 2 ≤
        btree.getNodeFreeSize (btree.nodeAt found.nodeNum) := by
      rw [← hnode]
      exact fun hle => hfull ⟨found, hsearch, hindex, hle⟩
    rw [bind_of_ok (insertKeyRecord_full hfit)]
    rfl
  · rfl

theorem insert_absent_fits (hcheck : checkInsertParams btree iterator record = true)
    (hsearch : searchTree btree agent.disk iterator.key = .ok found)
    (hfound : found.keyFound = false) (hindex : 0 < found.index)
    (hfit : btree.getRecordSize ⟨iterator.key, iterator.keyLength, record⟩ + 2 ≤
      btree.getNodeFreeSize (btree.nodeAt found.nodeNum)) :
    btInsertRecord agent iterator record btree = (do
      countRecord
      pure found.nodeNum : TreeM κ ℕ) (btree.setRecords found.nodeNum
        ((btree.nodeAt found.nodeNum).records.insertIdx found.index
          ⟨iterator.key, iterator.keyLength, record⟩)) := by
  rw [btInsertRecord, get_bind]
  simp only [hcheck, Bool.true_eq_false, if_false, hsearch, hfound, Bool.false_eq_true, hindex,
    if_true]
  rw [bind_of_ok (insertKeyRecord_fits hfit)]
  rfl

variable [Std.TransOrd κ]

theorem set_absent (h : btree.Valid leaves) (habsent : ¬ Present btree leaves iterator.key)
    (hcheck : checkInsertParams btree iterator record = true)
    (hsearch : searchTree btree agent.disk iterator.key = .ok found)
    (hfound : found.keyFound = false) :
    btSetRecord agent iterator record btree = insertFound agent iterator record found btree := by
  rw [btSetRecord, get_bind]
  simp only [hcheck, Bool.true_eq_false, if_false]
  rw [bind_of_ok (h.replaceAtHint habsent)]
  simp only [hsearch, hfound, Bool.false_eq_true, if_false]
  rfl

end Routines

/-! ## A tree in a longer file -/

section Longer
variable {btree : BTree κ} {map : BTreeAllocate.BTree} {n : ℕ}

theorem Extended.nodeAt_leaf (h : Extended btree.map map) (hn : n < btree.map.totalNodes)
    (hleaf : (btree.nodeAt n).type = .leaf ∨ ({ btree with map := map }.nodeAt n).type = .leaf) :
    { btree with map := map }.nodeAt n = btree.nodeAt n := by
  have htype := h.type n hn
  simp only [BTree.nodeAt] at hleaf ⊢
  rw [htype] at hleaf ⊢
  cases ht : (btree.map.node n).type with
  | leaf => rfl
  | index => rfl
  | header =>
    rw [ht] at hleaf
    exact absurd hleaf (by simp)
  | map =>
    rw [ht] at hleaf
    exact absurd hleaf (by simp)

/-- A leaf whose links lie in the file. -/
structure LinkedLeaf (btree : BTree κ) (n : ℕ) : Prop where
  lt : n < btree.map.totalNodes
  type : (btree.nodeAt n).type = .leaf
  fLink : (btree.nodeAt n).fLink ≤ btree.map.fcbEOF / btree.map.nodeSize - 1
  bLink : (btree.nodeAt n).bLink ≤ btree.map.fcbEOF / btree.map.nodeSize - 1

theorem Extended.getNode (h : Extended btree.map map) (hn : LinkedLeaf btree n) (disk : ℕ → Bool) :
    { btree with map := map }.getNode disk n = btree.getNode disk n := by
  have hnode := h.nodeAt_leaf hn.lt (.inl hn.type)
  have hmax : btree.map.fcbEOF / btree.map.nodeSize - 1 ≤ map.fcbEOF / btree.map.nodeSize - 1 :=
    Nat.sub_le_sub_right (Nat.div_le_div_right h.fcbEOF) 1
  have hoffsets : ({ btree with map := map } : BTree κ).checkOffsets (btree.nodeAt n) =
      btree.checkOffsets (btree.nodeAt n) := by
    simp only [BTree.checkOffsets, h.nodeSize]
    rfl
  have hcheck : ({ btree with map := map } : BTree κ).checkNode (btree.nodeAt n) =
      btree.checkNode (btree.nodeAt n) := by
    simp only [BTree.checkNode, h.nodeSize, hn.fLink, hn.bLink, hn.fLink.trans hmax,
      hn.bLink.trans hmax, decide_true, Bool.true_and, hoffsets]
  rw [BTree.getNode, BTree.getNode, hnode, hcheck,
    if_neg (Nat.not_le.mpr (Nat.lt_of_lt_of_le hn.lt h.totalNodes)), if_neg (Nat.not_le.mpr hn.lt)]

variable [Ord κ]

theorem Extended.agree (h : Extended btree.map map)
    (hfirst : btree.firstLeafNode ≠ 0 → LinkedLeaf btree btree.firstLeafNode)
    (hlast : btree.lastLeafNode ≠ 0 → LinkedLeaf btree btree.lastLeafNode) (n : ℕ) :
    Agree (.ok n btree) (.ok n { btree with map := map }) := by
  refine ⟨rfl, ⟨rfl, rfl, rfl, rfl, rfl, fun m hm => h.nodeAt_leaf hm⟩, ?_⟩
  have hgo : ∀ disk operation, firstOrLast { btree with map := map } disk operation =
      firstOrLast btree disk operation := by
    intro disk operation
    rw [firstOrLast, firstOrLast]
    change (if (if operation = .first then btree.firstLeafNode else btree.lastLeafNode) = 0 then _
      else _) = _
    by_cases hop : operation = .first
    · simp only [hop, if_true]
      split_ifs with h0
      · rfl
      · rw [h.getNode (hfirst h0)]
    · simp only [hop, if_false]
      split_ifs with h0
      · rfl
      · rw [h.getNode (hlast h0)]
  rintro operation (rfl | rfl) disk iterator recordSize
  · exact congrArg (fun target => (target >>= copyData recordSize).mapError exitError)
      (hgo disk .first)
  · exact congrArg (fun target => (target >>= copyData recordSize).mapError exitError)
      (hgo disk .last)

end Longer

/-! ## A record that fits into its leaf -/

section Fits
variable {btree : BTree κ} {leaves chain : List ℕ} {agent : Agent} {iterator : Iterator κ}
  {record : List UInt8} {found : Found κ}

theorem liftMap_ok {α : Type} {m : BTreeAllocate.BTreeM α} {btree' : BTree κ} {a : α}
    (h : liftMap m btree = .ok a btree') : ∃ s', m.run ⟨fun _ => true, 0, btree.map⟩ = .ok a s' ∧
      btree' = { btree with map := s'.st } := by
  rw [liftMap] at h
  split at h
  · next a' s' hrun =>
    cases h
    exact ⟨s', hrun, rfl⟩
  · cases h

theorem makeRoom_none (h : nodesNeeded btree = none) : makeRoom agent btree = .ok () btree := by
  rw [makeRoom, get_bind, h]
  rfl

theorem makeRoom_some {nodes : ℕ} (h : nodesNeeded btree = some nodes) : makeRoom agent btree =
    liftMap (BTreeAllocate.extendBTree agent.setEndOfForkProc nodes) btree := by
  rw [makeRoom, get_bind, h]

theorem nodeAt_setRecords {n : ℕ} (hleaf : (btree.nodeAt n).type = .leaf)
    (records : List (Record κ)) (k : ℕ) : (btree.setRecords n records).nodeAt k =
      if k = n then { btree.nodeAt n with records := records } else btree.nodeAt k := by
  have htype : (btree.map.node n).type ≠ .header ∧ (btree.map.node n).type ≠ .map := by
    constructor
    · intro ht
      simp [BTree.nodeAt, ht] at hleaf
    · intro ht
      simp [BTree.nodeAt, ht] at hleaf
  split_ifs with hk
  · subst hk
    have hnode : (btree.setRecords k records).node k =
        { btree.nodeAt k with records := records } := Function.update_self ..
    have hmap : (btree.setRecords k records).map = btree.map := rfl
    rw [BTree.nodeAt, hnode, hmap]
    cases ht : (btree.map.node k).type with
    | leaf => rfl
    | index => rfl
    | header => exact absurd ht htype.1
    | map => exact absurd ht htype.2
  · have hnode : (btree.setRecords n records).node k = btree.node k := Function.update_of_ne hk ..
    rw [BTree.nodeAt, BTree.nodeAt, hnode]
    rfl

variable [Ord κ]

theorem BTree.Valid.first_mem (h : btree.Valid leaves) (h0 : btree.firstLeafNode ≠ 0) :
    btree.firstLeafNode ∈ leaves := by
  have hfirst := h.first
  cases leaves with
  | nil => exact absurd hfirst h0
  | cons n rest =>
    rw [hfirst]
    exact mem_cons_self

theorem BTree.Valid.last_mem (h : btree.Valid leaves) (h0 : btree.lastLeafNode ≠ 0) :
    btree.lastLeafNode ∈ leaves := by
  have hlast := h.last
  cases leaves using List.reverseRecOn with
  | nil => exact absurd hlast h0
  | append_singleton front n =>
    rw [hlast, List.getLast?_concat]
    exact mem_append_right _ mem_cons_self

theorem BTree.Valid.linkedLeaf (h : btree.Valid leaves) {k n : ℕ} (hk : k ∈ leaves) (hn : n ∈ leaves)
    (records : List (Record κ)) (count : ℕ) :
    LinkedLeaf { btree.setRecords n records with leafRecords := count } k := by
  obtain ⟨hsound, hleaf⟩ := h.leaf k hk
  have hchecked := hsound.checked
  simp only [BTree.checkNode, Bool.and_eq_true, decide_eq_true_eq] at hchecked
  have hnode : ({ btree.setRecords n records with leafRecords := count } : BTree κ).nodeAt k =
      if k = n then { btree.nodeAt n with records := records } else btree.nodeAt k :=
    nodeAt_setRecords (h.leaf n hn).2 records k
  have hsame : ∀ node : Node κ, node = (if k = n then { btree.nodeAt n with records := records }
      else btree.nodeAt k) → node.type = (btree.nodeAt k).type ∧
      node.fLink = (btree.nodeAt k).fLink ∧ node.bLink = (btree.nodeAt k).bLink := by
    rintro node rfl
    split_ifs with hkn
    · rw [hkn]
      exact ⟨rfl, rfl, rfl⟩
    · exact ⟨rfl, rfl, rfl⟩
  obtain ⟨htype, hfl, hbl⟩ := hsame _ hnode
  refine ⟨hsound.lt, htype.trans hleaf, ?_, ?_⟩
  · rw [hfl]
    exact hchecked.1.1.1.1
  · rw [hbl]
    exact hchecked.1.1.1.2

variable [Std.TransOrd κ]

theorem agree_fits (h : btree.Valid leaves) (hm : NodeMapOk btree.map chain)
    (hgrows : Grows agent.setEndOfForkProc) (hcheck : checkInsertParams btree iterator record = true)
    (habsent : ¬ Present btree leaves iterator.key)
    (hsearch : searchTree btree agent.disk iterator.key = .ok found)
    (hpath : found.treePathTable 1 = (found.nodeNum, found.index)) (hmem : found.nodeNum ∈ leaves)
    (hfound : found.keyFound = false) (hindex : 0 < found.index)
    (hfit : btree.getRecordSize ⟨iterator.key, iterator.keyLength, record⟩ + 2 ≤
      btree.getNodeFreeSize (btree.nodeAt found.nodeNum)) :
    Agree (btInsertRecord agent iterator record btree) (btSetRecord agent iterator record btree) ↔
      ∀ nodes, nodesNeeded btree = some nodes →
        ∃ btree', liftMap (BTreeAllocate.extendBTree agent.setEndOfForkProc nodes) btree =
          .ok () btree' := by
  have hleaf := (h.leaf _ hmem).2
  have hlt := (h.leaf _ hmem).1.lt
  have hpath1 : (found.treePathTable 1).1 = found.nodeNum := congrArg Prod.fst hpath
  rw [insert_absent_fits hcheck hsearch hfound hindex hfit,
    set_absent h habsent hcheck hsearch hfound, insertFound]
  cases hneed : nodesNeeded btree with
  | none =>
    rw [bind_of_ok (makeRoom_none hneed),
      bind_of_ok (insertTree_fits hpath1 (h.ne_bLink hmem) hindex hfit)]
    exact iff_of_true (Agree.refl _) (fun _ hn => (by cases hn))
  | some nodes =>
    match hext : liftMap (BTreeAllocate.extendBTree agent.setEndOfForkProc nodes) btree with
    | .error err btree' =>
      rw [bind_of_error ((makeRoom_some hneed).trans hext)]
      refine iff_of_false (fun hagree => ?_) (fun hall => ?_)
      · cases hagree.status
      · obtain ⟨_, hok⟩ := hall nodes rfl
        rw [hext] at hok
        cases hok
    | .ok _ btree' =>
      obtain ⟨s', hrun, rfl⟩ := liftMap_ok hext
      have hlonger : Extended btree.map s'.st := extended_extendBTree hm hgrows hrun
      have hnode := hlonger.nodeAt_leaf hlt (.inl hleaf)
      have hfit' : ({ btree with map := s'.st } : BTree κ).getRecordSize
          ⟨iterator.key, iterator.keyLength, record⟩ + 2 ≤
          ({ btree with map := s'.st } : BTree κ).getNodeFreeSize
            (({ btree with map := s'.st } : BTree κ).nodeAt found.nodeNum) := by
        rw [hnode, BTree.getNodeFreeSize]
        change _ ≤ s'.st.nodeSize - _ - _ - 2
        rw [hlonger.nodeSize]
        exact hfit
      have hlink' : found.nodeNum ≠
          (({ btree with map := s'.st } : BTree κ).nodeAt found.nodeNum).bLink := by
        rw [hnode]
        exact h.ne_bLink hmem
      rw [bind_of_ok ((makeRoom_some hneed).trans hext),
        bind_of_ok (insertTree_fits hpath1 hlink' hindex hfit')]
      refine iff_of_true ?_ ?_
      case refine_2 =>
        intro n hn
        cases hn
        exact ⟨_, hext⟩
      have hrecords : ({ btree with map := s'.st } : BTree κ).setRecords found.nodeNum
          ((({ btree with map := s'.st } : BTree κ).nodeAt found.nodeNum).records.insertIdx found.index
            ⟨iterator.key, iterator.keyLength, record⟩) =
          { btree.setRecords found.nodeNum ((btree.nodeAt found.nodeNum).records.insertIdx found.index
            ⟨iterator.key, iterator.keyLength, record⟩) with map := s'.st } := by
        rw [BTree.setRecords, hnode]
        rfl
      rw [hrecords]
      let after : BTree κ := { btree.setRecords found.nodeNum
        ((btree.nodeAt found.nodeNum).records.insertIdx found.index
          ⟨iterator.key, iterator.keyLength, record⟩) with leafRecords := u32 (btree.leafRecords + 1) }
      have hafter : Extended after.map s'.st := hlonger
      apply hafter.agree
      · exact fun h0 => h.linkedLeaf (h.first_mem h0) hmem _ _
      · exact fun h0 => h.linkedLeaf (h.last_mem h0) hmem _ _

end Fits

/-! ## The first record of a tree -/

section First
variable {btree : BTree κ} {leaves chain : List ℕ} {agent : Agent} {iterator : Iterator κ}
  {record : List UInt8}

theorem allocateNode_ok (h : NodeMapOk btree.map chain) {btree' : BTree κ} {n : ℕ}
    (hok : liftMap BTreeAllocate.allocateNode btree = .ok n btree') :
    n ≠ 0 ∧ ∃ map, btree' = { btree with map := map } ∧ map.nodeSize = btree.map.nodeSize := by
  obtain ⟨s', hrun, rfl⟩ := liftMap_ok hok
  rcases BTreeAllocate.allocateNode_spec (s := ⟨fun _ => true, 0, btree.map⟩) h.toMapShape
    (fun _ => rfl) with ⟨m, t, hr, -, hclear, -, hmarked, -⟩ | ⟨-, e, t, hr, -⟩
  · rw [hrun] at hr
    cases hr
    refine ⟨?_, s'.st, rfl, hmarked.shape.nodeSize⟩
    rintro rfl
    have hused := h.used 0 (mem_of_mem_head? h.header.1)
    cases hused.symm.trans hclear
  · rw [hrun] at hr
    cases hr

theorem allocateFirst_ok (h : NodeMapOk btree.map chain) (hgrows : Grows agent.setEndOfForkProc)
    {btree' : BTree κ} {n : ℕ} (hok : allocateFirst agent btree = .ok n btree') :
    n ≠ 0 ∧ ∃ map, btree' = { btree with map := map } ∧ map.nodeSize = btree.map.nodeSize := by
  rw [allocateFirst, get_bind] at hok
  split_ifs at hok with hfree
  · match hext : liftMap (BTreeAllocate.extendBTree agent.setEndOfForkProc
        (btree.map.totalNodes + 1)) btree with
    | .error err btree₁ =>
      rw [bind_of_error hext] at hok
      cases hok
    | .ok _ btree₁ =>
      rw [bind_of_ok hext] at hok
      obtain ⟨s', hrun, rfl⟩ := liftMap_ok hext
      have hsize : s'.st.nodeSize = btree.map.nodeSize :=
        (extended_extendBTree (s := ⟨fun _ => true, 0, btree.map⟩) h hgrows hrun).nodeSize
      obtain ⟨chain', h'⟩ :=
        NodeMapOk.extend (s := ⟨fun _ => true, 0, btree.map⟩) h hgrows hrun
      have hlonger : NodeMapOk ({ btree with map := s'.st } : BTree κ).map chain' := h'
      obtain ⟨hn, map, rfl, hmap⟩ := allocateNode_ok hlonger hok
      exact ⟨hn, map, rfl, hmap.trans hsize⟩
  · exact allocateNode_ok h hok

/-- The tree with a new leaf. -/
def freshLeaf (btree : BTree κ) (n : ℕ) : BTree κ :=
  { btree.setNode n ⟨.leaf, 1, 0, 0, true, []⟩ with map := btree.map.setNode n ⟨.index, 0, []⟩ }

theorem nodeAt_freshLeaf (btree : BTree κ) (n : ℕ) :
    (freshLeaf btree n).nodeAt n = ⟨.leaf, 1, 0, 0, true, []⟩ := by
  simp [freshLeaf, BTree.nodeAt, BTreeAllocate.BTree.setNode, BTree.setNode]

theorem getNewNode_bind {α : Type} (btree : BTree κ) (n : ℕ) (f : TreeM κ α) : (do
    getNewNode n
    modify fun btree => btree.setNode n { btree.nodeAt n with type := .leaf, height := 1 }
    f : TreeM κ α) btree = f (freshLeaf btree n) := by
  change f _ = f _
  congr 1
  simp [freshLeaf, BTree.nodeAt, BTreeAllocate.BTree.setNode, BTree.setNode, Node.clear]

theorem addFirstLeaf_ok (h : NodeMapOk btree.map chain) (hgrows : Grows agent.setEndOfForkProc)
    (hadm : Admissible btree iterator record) {btree' : BTree κ} {n : ℕ}
    (hok : allocateFirst agent btree = .ok n btree') : n ≠ 0 ∧ ∃ btree₂,
      addFirstLeaf agent iterator record btree = .ok n btree₂ ∧
        btree₂.firstLeafNode = btree.firstLeafNode := by
  obtain ⟨hn, map, rfl, hsize⟩ := allocateFirst_ok h hgrows hok
  have hfit : (freshLeaf { btree with map := map } n).getRecordSize
      ⟨iterator.key, iterator.keyLength, record⟩ + 2 ≤
      (freshLeaf { btree with map := map } n).getNodeFreeSize
        ((freshLeaf { btree with map := map } n).nodeAt n) := by
    rw [nodeAt_freshLeaf]
    change padded (btree.calcKeySize iterator.keyLength) + record.length + 2 ≤
      map.nodeSize - 14 - 0 - 2
    have hlen : record.length ≤ padded record.length := Nat.le_add_right _ _
    have hmin := h.nodeSize.1
    rw [Admissible] at hadm
    omega
  let filled := (freshLeaf { btree with map := map } n).setRecords n
    (((freshLeaf { btree with map := map } n).nodeAt n).records.insertIdx 0
      ⟨iterator.key, iterator.keyLength, record⟩)
  refine ⟨hn, filled, ?_, rfl⟩
  rw [addFirstLeaf, bind_of_ok hok]
  rw [getNewNode_bind, bind_of_ok (insertKeyRecord_fits hfit)]
  rfl

theorem agree_empty [Ord κ] [Std.TransOrd κ] (h : btree.Valid leaves)
    (hm : NodeMapOk btree.map chain) (hgrows : Grows agent.setEndOfForkProc)
    (hadm : Admissible btree iterator record) (hd : btree.treeDepth = 0) :
    Agree (btInsertRecord agent iterator record btree) (btSetRecord agent iterator record btree) ↔
      ∀ n btree', allocateFirst agent btree ≠ .ok n btree' := by
  have hcheck := hadm.check hm
  have hsearch : searchTree btree agent.disk iterator.key = .error .fsBTEmptyErr := by
    rw [searchTree, if_pos hd]
  have hhint : replaceAtHint agent iterator record btree = .ok false btree :=
    h.replaceAtHint (not_present_of_empty h hd iterator.key)
  rw [btInsertRecord, btSetRecord, get_bind, get_bind]
  simp only [hcheck, Bool.true_eq_false, if_false, hsearch]
  rw [bind_of_ok hhint]
  simp only [Bool.false_eq_true, if_false]
  cases halloc : allocateFirst agent btree with
  | error err btree' =>
    have hadd : addFirstLeaf agent iterator record btree = .error err btree' := by
      rw [addFirstLeaf, bind_of_error halloc]
    rw [bind_of_error hadd, bind_of_error hadd]
    exact iff_of_true (Agree.refl _) (fun _ _ hok => (by cases hok))
  | ok n btree' =>
    obtain ⟨hn, btree₂, hadd, hfirst⟩ := addFirstLeaf_ok hm hgrows hadm halloc
    rw [bind_of_ok hadd, bind_of_ok hadd]
    refine iff_of_false ?_ (fun hall => hall n btree' rfl)
    intro hagree
    apply hn
    have hsame : btree₂.firstLeafNode = n := hagree.tree.firstLeafNode
    have hnil := h.first
    rw [h.empty hd] at hnil
    rw [← hsame, hfirst, hnil]
    rfl

end First

/-! ## The three routines -/

section Main
variable [Ord κ] [Std.TransOrd κ] {btree : BTree κ} {leaves chain : List ℕ} {agent : Agent}
  {iterator : Iterator κ} {record : List UInt8}

/-- In another tree an absent key is set like it is inserted, unless the record fits into its
leaf and the file cannot be extended. -/
theorem agree_absent (h : btree.Valid leaves) (hm : NodeMapOk btree.map chain)
    (hgrows : Grows agent.setEndOfForkProc) (hadm : Admissible btree iterator record)
    (habsent : ¬ Present btree leaves iterator.key) :
    Agree (btInsertRecord agent iterator record btree) (btSetRecord agent iterator record btree) ↔
      SetsAbsent agent iterator record btree := by
  rw [SetsAbsent]
  by_cases hd : btree.treeDepth = 0
  · rw [if_pos hd]
    exact agree_empty h hm hgrows hadm hd
  · rw [if_neg hd]
    obtain ⟨found, hsearch, hpath, hnode, hmem, hfound⟩ :=
      h.searchTree hd agent.disk iterator.key
    have hnot : found.keyFound = false := by
      rw [← Bool.not_eq_true, hfound]
      exact habsent
    by_cases hfits : FitsLeaf btree agent.disk iterator record
    · obtain ⟨found', hsearch', hindex, hfit⟩ := id hfits
      rw [hsearch] at hsearch'
      cases hsearch'
      rw [hnode] at hfit
      rw [agree_fits h hm hgrows (hadm.check hm) habsent hsearch hpath hmem hnot hindex hfit]
      exact ⟨fun hall _ => hall, fun hall => hall hfits⟩
    · rw [insert_absent_full (hadm.check hm) hsearch hnode hnot hfits,
        set_absent h habsent (hadm.check hm) hsearch hnot]
      exact iff_of_true (Agree.refl _) (fun h' => absurd h' hfits)

/-- `BTSetRecord` agrees with `BTReplaceRecord` on every present key. On an absent key it agrees
with `BTInsertRecord` exactly where it can set absent keys. -/
theorem setRecord_agrees_iff (h : btree.Valid leaves) (hm : NodeMapOk btree.map chain)
    (hgrows : Grows agent.setEndOfForkProc) (hadm : Admissible btree iterator record) :
    Agrees agent iterator record btree leaves ↔
      Present btree leaves iterator.key ∨ SetsAbsent agent iterator record btree := by
  by_cases hpresent : Present btree leaves iterator.key
  · refine iff_of_true ⟨fun _ => ?_, fun habsent => absurd hpresent habsent⟩ (.inl hpresent)
    have hd : btree.treeDepth ≠ 0 := fun hd => not_present_of_empty h hd _ hpresent
    obtain ⟨found, hsearch, -, -, -, hfound⟩ :=
      h.searchTree hd agent.disk iterator.key
    rw [set_eq_replace hsearch (hfound.mpr hpresent)]
    exact Agree.refl _
  · rw [Agrees, agree_absent h hm hgrows hadm hpresent]
    simp [hpresent]

end Main

/-- An empty tree in a file of four nodes. -/
def emptyTree : BTree ℕ where
  map := BTreeAllocate.headerTree 4 2 0xC000
  bigKeys := true
  variableIndexKeys := true
  maxKeyLength := 8
  treeDepth := 0
  rootNode := 0
  leafRecords := 0
  firstLeafNode := 0
  lastLeafNode := 0
  node := fun _ => Node.clear

theorem emptyTree_valid : emptyTree.Valid [] where
  empty := fun _ => rfl
  spans := fun h => absurd rfl h
  first := rfl
  last := rfl
  linked := fun pre n post h => absurd h (by simp)
  stray := by decide

def growingAgent : Agent := ⟨BTreeAllocate.growTo, fun _ => true⟩

set_option maxRecDepth 4000 in
/-- The first record of a tree is set in node 2, and neither the first nor the last leaf is
noted. -/
theorem set_forgets_first_leaf : emptyTree.Valid [] ∧ NodeMapOk emptyTree.map [0] ∧
    Admissible emptyTree ⟨5, 4, 0⟩ [1, 1] ∧
    (treeOf (btInsertRecord growingAgent ⟨5, 4, 0⟩ [1, 1] emptyTree)).firstLeafNode = 2 ∧
    (treeOf (btSetRecord growingAgent ⟨5, 4, 0⟩ [1, 1] emptyTree)).firstLeafNode = 0 ∧
    (btIterateRecord (treeOf (btSetRecord growingAgent ⟨5, 4, 0⟩ [1, 1] emptyTree))
      (fun _ => false) .first none 8) = .error .fsBTRecordNotFoundErr ∧
    ¬ Agrees growingAgent ⟨5, 4, 0⟩ [1, 1] emptyTree [] := by
  refine ⟨emptyTree_valid, BTreeAllocate.nodeMapOk_headerTree, by decide, rfl, rfl, rfl, ?_⟩
  intro h
  have habsent : ¬ Present emptyTree [] 5 := not_present_of_empty emptyTree_valid rfl 5
  have hsame := (h.2 habsent).tree.firstLeafNode
  cases hsame

theorem smallTree_map : NodeMapOk smallTree.map [0] where
  nodeSize := by decide
  fcbEOF := by decide
  header := ⟨rfl, rfl⟩
  mapType := by decide
  links := rfl
  nodup := by decide
  inFile := by decide
  nonempty := by decide
  covers := by decide
  bounded := by decide
  inEOF := by decide
  used := by decide
  clearBehind := by
    intro n hn
    change 4 ≤ n at hn
    by_cases h16 : n < 16
    · interval_cases n <;> rfl
    · obtain ⟨k, hk⟩ : ∃ k, n / 16 = k + 1 := ⟨n / 16 - 1, by omega⟩
      rw [BTreeAllocate.BTree.bit, bitAt, hk]
      exact BitVec.getMsbD_zero
  free := by decide

/-- The key 20 is present in the small tree, and for the key 25 the file can be extended. -/
theorem setRecord_agrees_iff_small : smallTree.Valid [1, 2] ∧ NodeMapOk smallTree.map [0] ∧
    Agrees growingAgent ⟨20, 4, 0⟩ [7, 7] smallTree [1, 2] ∧
    Agrees growingAgent ⟨25, 4, 0⟩ [7, 7] smallTree [1, 2] := by
  refine ⟨smallTree_valid, smallTree_map, ?_, ?_⟩
  · apply (setRecord_agrees_iff smallTree_valid smallTree_map BTreeAllocate.grows_growTo ?_).mpr
    · left
      exact ⟨⟨20, 4, [2, 2]⟩, by decide, by decide⟩
    · decide
  · apply (setRecord_agrees_iff smallTree_valid smallTree_map BTreeAllocate.grows_growTo ?_).mpr
    · right
      intro _ nodes hnodes
      cases hnodes
      exact ⟨_, rfl⟩
    · decide

end Darwin.Hfs.BTreeRecords
