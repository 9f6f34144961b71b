import Darwin.Hfs.CheckNode
import Darwin.Hfs.SearchNode
import Darwin.Lib.Chain

/-! # The descent from the root to a leaf

`VerifyHeader` of `BTreeMiscOps.c` and `SearchTree` of `BTreeTreeOps.c` on the bytes of the nodes.
The heights of a parent and of its child are not compared: the way ends where it comes to a leaf,
and the tree path table is written at the heights that stand in the nodes.
-/
namespace Darwin.Hfs.NodeBytes
open Darwin.Lib

/-- The fields of the header record that are checked or copied to the control block. -/
structure HeaderRec where
  treeDepth : ℕ
  rootNode : ℕ
  firstLeafNode : ℕ
  lastLeafNode : ℕ
  nodeSize : ℕ
  maxKeyLength : ℕ
  totalNodes : ℕ
  freeNodes : ℕ
  btreeType : ℕ
  bigKeys : Bool
  variableIndexKeys : Bool
  deriving DecidableEq, Repr

inductive HeaderError where
  | fsBTInvalidHeaderErr
  | fsBTUnknownVersionErr
  deriving DecidableEq, Repr

def kMaxTreeDepth : ℕ := 16

def kUserBTreeType : ℕ := 128

def kReservedBTreeType : ℕ := 255

def verifyHeader (fcbEOF : ℕ) (header : HeaderRec) : Except HeaderError Unit :=
  if header.nodeSize ∉ nodeSizes then .error .fsBTInvalidHeaderErr
  else if header.totalNodes * header.nodeSize % 2 ^ 32 ≠ fcbEOF then .error .fsBTInvalidHeaderErr
  else if header.totalNodes ≤ header.freeNodes then .error .fsBTInvalidHeaderErr
  else if header.totalNodes ≤ header.rootNode then .error .fsBTInvalidHeaderErr
  else if header.totalNodes ≤ header.firstLeafNode then .error .fsBTInvalidHeaderErr
  else if header.totalNodes ≤ header.lastLeafNode then .error .fsBTInvalidHeaderErr
  else if kMaxTreeDepth < header.treeDepth then .error .fsBTInvalidHeaderErr
  else if header.btreeType ∉ [0, kUserBTreeType, kReservedBTreeType] then .error .fsBTUnknownVersionErr
  else .ok ()

/-- The control block that `BTOpenPath` fills in from the header. -/
def openTree (fcbEOF : ℕ) (header : HeaderRec) : Tree where
  nodeSize := header.nodeSize
  bigKeys := header.bigKeys || 40 < header.maxKeyLength
  variableIndexKeys := header.variableIndexKeys || 40 < header.maxKeyLength
  maxKeyLength := header.maxKeyLength
  treeDepth := header.treeDepth
  rootNode := header.rootNode
  totalNodes := header.totalNodes
  fcbEOF := fcbEOF

/-! ## Nodes -/

/-- A node as the file system agent gives it; behind its bytes lies what is behind the buffer. -/
structure Block where
  node : Memory
  blockReadFromDisk : Bool

/-- What the calls of the file system agent give for a node number; a block that cannot be read is
`none`. -/
structure Agent where
  getBlock : ℕ → Option Block
  releaseBlock : ℕ → Bool

inductive SearchTreeError where
  | fsBTEmptyErr
  | fsBTInvalidNodeErr
  | agentErr
  deriving DecidableEq, Repr

def getNode (btree : Tree) (agent : Agent) (nodeNum : ℕ) : Except SearchTreeError Memory :=
  if btree.totalNodes ≤ nodeNum then .error .fsBTInvalidNodeErr
  else
    match agent.getBlock nodeNum with
    | none => .error .agentErr
    | some block =>
      if block.blockReadFromDisk && !checkNode btree block.node then .error .fsBTInvalidNodeErr
      else .ok block.node

/-! ## The search -/

/-- An entry of the tree path table, with its place there. -/
structure PathRecord where
  level : ℕ
  node : ℕ
  index : ℕ
  deriving DecidableEq, Repr

/-- The node that `SearchTree` goes to, and the number that `dataPtr` points at. -/
structure Descent where
  curNodeNum : ℕ
  data : ℕ
  deriving DecidableEq, Repr

/-- The node of the search, whether the key is in it, and the index. -/
structure SearchResult where
  nodeNum : ℕ
  keyFound : Bool
  returnIndex : ℕ
  deriving DecidableEq, Repr

/-- The record of an index node that leads to the key. -/
def childIndex (keyFound : Bool) (index : ℕ) : ℕ :=
  if keyFound ≠ true ∧ index ≠ 0 then index - 1 else index

/-- The child at an index. The error of `GetRecordByIndex` is not looked at; it leaves `dataPtr` as
it was. -/
def followChild (btree : Tree) (node : Memory) (index : ℕ) (s : Descent) : Descent :=
  match getRecordByIndex btree.toControlBlock (buffer node) index with
  | none => ⟨s.data, s.data⟩
  | some (_, dataPtr, _) => ⟨node.long dataPtr, node.long dataPtr⟩

/-- The `while` loop, with the search in a node as a parameter; `none` when it has not ended after
so many passes. The second part of the result is what is written to the tree path table. -/
def descend (btree : Tree) (agent : Agent) (search : Memory → Option (Bool × ℕ)) :
    ℕ → Descent → Option (Except SearchTreeError SearchResult × List PathRecord)
  | 0, _ => none
  | passes + 1, s =>
    match getNode btree agent s.curNodeNum with
    | .error err => some (.error err, [])
    | .ok node =>
      match search node with
      | none => none
      | some (keyFound, index) =>
        if nodeKind node = kLeafNode then
          some (.ok ⟨s.curNodeNum, keyFound, index⟩, [⟨height node, s.curNodeNum, index⟩])
        else
          let record : PathRecord := ⟨height node, s.curNodeNum, childIndex keyFound index⟩
          if agent.releaseBlock s.curNodeNum = false then some (.error .agentErr, [record])
          else
            (descend btree agent search passes (followChild btree node (childIndex keyFound index) s)).map
              (fun r => (r.1, record :: r.2))

/-- `SearchNode`, as far as so many passes of its loop go. -/
def searchWithin (btree : Tree) (compareProc : Key → Key → Ordering) (searchKey : Key) (passes : ℕ)
    (node : Memory) : Option (Bool × ℕ) :=
  (searchLoop btree.toControlBlock compareProc (buffer node) searchKey passes 0 (numRecords node - 1)).map
    (fun searched => (searched.found, searched.returnIndex))

/-- `unset` is what `dataPtr` points at before it is set. Both loops may make so many passes. -/
def searchTree (btree : Tree) (agent : Agent) (compareProc : Key → Key → Ordering) (searchKey : Key)
    (unset passes : ℕ) : Option (Except SearchTreeError SearchResult × List PathRecord) :=
  if btree.treeDepth = 0 then some (.error .fsBTEmptyErr, [])
  else
    (descend btree agent (searchWithin btree compareProc searchKey passes) passes
      ⟨btree.rootNode, unset⟩).map (fun r => (r.1, ⟨0, 0, 0⟩ :: r.2))

/-! ## Where it goes -/

/-- The next state of the loop, where it does not end. -/
def nextDescent (btree : Tree) (agent : Agent) (compareProc : Key → Key → Ordering) (searchKey : Key)
    (s : Descent) : Option Descent :=
  match getNode btree agent s.curNodeNum with
  | .error _ => none
  | .ok node =>
    if nodeKind node = kLeafNode then none
    else if agent.releaseBlock s.curNodeNum = false then none
    else
      let (keyFound, index) := searchNode btree.toControlBlock compareProc (buffer node) searchKey
      some (followChild btree node (childIndex keyFound index) s)

/-- The search ends and writes inside the tree path table. -/
def SearchesSafely (btree : Tree) (agent : Agent) (compareProc : Key → Key → Ordering)
    (searchKey : Key) (unset : ℕ) : Prop :=
  ∃ passes result path, searchTree btree agent compareProc searchKey unset passes =
    some (result, path) ∧ ∀ record ∈ path, record.level < kMaxTreeDepth

/-- On the way that the key takes from the root no state of the loop comes again, and all nodes have
heights that are in the table. -/
structure DescentSafe (btree : Tree) (agent : Agent) (compareProc : Key → Key → Ordering)
    (searchKey : Key) (unset : ℕ) : Prop where
  acyclic : ∀ s, Chain.Reaches (nextDescent btree agent compareProc searchKey) ⟨btree.rootNode, unset⟩ s →
    ¬ Relation.TransGen (Chain.Link (nextDescent btree agent compareProc searchKey)) s s
  heights : ∀ s node, Chain.Reaches (nextDescent btree agent compareProc searchKey) ⟨btree.rootNode, unset⟩ s →
    getNode btree agent s.curNodeNum = .ok node → height node < kMaxTreeDepth

section descent
variable {btree : Tree} {agent : Agent} {compareProc : Key → Key → Ordering} {searchKey : Key}
  {unset : ℕ}

theorem getNode_lt {nodeNum : ℕ} {node : Memory} (h : getNode btree agent nodeNum = .ok node) :
    nodeNum < btree.totalNodes := by
  by_contra hlt
  rw [getNode, if_pos (Nat.le_of_not_lt hlt)] at h
  cases h

theorem getNode_checked {nodeNum : ℕ} (block : Block) (hlt : nodeNum < btree.totalNodes)
    (hblock : agent.getBlock nodeNum = some block) (hcheck : checkNode btree block.node = true) :
    getNode btree agent nodeNum = .ok block.node := by
  rw [getNode, if_neg (Nat.not_le.mpr hlt), hblock]
  dsimp only
  rw [hcheck, Bool.not_true, Bool.and_false, if_neg Bool.false_ne_true]

theorem nextDescent_getNode {s t : Descent} (h : nextDescent btree agent compareProc searchKey s = some t) :
    ∃ node, getNode btree agent s.curNodeNum = .ok node := by
  rw [nextDescent] at h
  cases hnode : getNode btree agent s.curNodeNum with
  | error err =>
    rw [hnode] at h
    cases h
  | ok node => exact ⟨node, rfl⟩

theorem nextDescent_data {s t : Descent} (h : nextDescent btree agent compareProc searchKey s = some t) :
    t.data = t.curNodeNum := by
  obtain ⟨node, hnode⟩ := nextDescent_getNode h
  rw [nextDescent, hnode] at h
  dsimp only at h
  by_cases hleaf : nodeKind node = kLeafNode
  · rw [if_pos hleaf] at h
    cases h
  · rw [if_neg hleaf] at h
    by_cases hrelease : agent.releaseBlock s.curNodeNum = false
    · rw [if_pos hrelease] at h
      cases h
    · rw [if_neg hrelease] at h
      obtain rfl := Option.some.inj h
      rw [followChild]
      split
      · rfl
      · rfl

theorem descent_finite (start : Descent) :
    {s | Chain.Reaches (nextDescent btree agent compareProc searchKey) start s ∧
      nextDescent btree agent compareProc searchKey s ≠ none}.Finite := by
  apply (((Set.finite_Iio btree.totalNodes).image (fun n => (⟨n, n⟩ : Descent))).insert start).subset
  rintro s ⟨hreach, hnext⟩
  obtain ⟨t, ht⟩ := Option.ne_none_iff_exists'.mp hnext
  obtain ⟨node, hnode⟩ := nextDescent_getNode ht
  rcases Relation.ReflTransGen.cases_tail hreach with rfl | ⟨r, -, hrs⟩
  · exact .inl rfl
  · right
    refine ⟨s.curNodeNum, getNode_lt hnode, ?_⟩
    rw [Descent.mk.injEq]
    exact ⟨rfl, (nextDescent_data hrs).symm⟩

theorem buffer_count (node : Memory) : (buffer node).numRecords < 2 ^ 16 := Memory.word_lt node 10

theorem searchWithin_eq {passes : ℕ} {node : Memory} {found : Bool × ℕ}
    (h : searchWithin btree compareProc searchKey passes node = some found) :
    found = searchNode btree.toControlBlock compareProc (buffer node) searchKey := by
  obtain ⟨searched, hsearched, rfl⟩ := Option.map_eq_some_iff.mp h
  obtain ⟨probes, hends, -⟩ := searchLoop_ends btree.toControlBlock compareProc searchKey
    (buffer_count node)
  have hmore := searchLoop_mono (Nat.le_max_left passes (numRecords node + 1)) hsearched
  have hall := hends (max passes (numRecords node + 1))
    (Nat.lt_of_succ_le (Nat.le_max_right passes (numRecords node + 1)))
  obtain rfl := Option.some.inj (hmore.symm.trans hall)
  rfl

theorem searchWithin_enough {passes : ℕ} (hpasses : 2 ^ 16 ≤ passes) (node : Memory) :
    searchWithin btree compareProc searchKey passes node =
      some (searchNode btree.toControlBlock compareProc (buffer node) searchKey) := by
  obtain ⟨probes, hends, -⟩ := searchLoop_ends btree.toControlBlock compareProc searchKey
    (buffer_count node)
  have hcount : numRecords node < 2 ^ 16 := Memory.word_lt node 10
  exact Option.map_eq_some_iff.mpr ⟨_, hends passes (Nat.lt_of_lt_of_le hcount hpasses), rfl⟩

theorem levels_end {s : Descent} {k : ℕ} (h : nextDescent btree agent compareProc searchKey s = none) :
    (∀ t node, Chain.Reaches (nextDescent btree agent compareProc searchKey) s t →
        getNode btree agent t.curNodeNum = .ok node → height node < k) ↔
      ∀ node, getNode btree agent s.curNodeNum = .ok node → height node < k := by
  constructor
  · exact fun hall node hnode => hall s node Relation.ReflTransGen.refl hnode
  · intro hhere t node hreach hnode
    obtain rfl := hreach.eq_of_end h
    exact hhere node hnode

theorem levels_next {s t : Descent} {k : ℕ}
    (h : nextDescent btree agent compareProc searchKey s = some t) :
    (∀ u node, Chain.Reaches (nextDescent btree agent compareProc searchKey) s u →
        getNode btree agent u.curNodeNum = .ok node → height node < k) ↔
      (∀ node, getNode btree agent s.curNodeNum = .ok node → height node < k) ∧
        ∀ u node, Chain.Reaches (nextDescent btree agent compareProc searchKey) t u →
          getNode btree agent u.curNodeNum = .ok node → height node < k := by
  constructor
  · exact fun hall => ⟨fun node hnode => hall s node Relation.ReflTransGen.refl hnode,
      fun u node hreach hnode => hall u node (Relation.ReflTransGen.head h hreach) hnode⟩
  · rintro ⟨hhere, hrest⟩ u node hreach hnode
    rcases Relation.ReflTransGen.cases_head hreach with rfl | ⟨v, hv, hvu⟩
    · exact hhere node hnode
    · obtain rfl := Option.some.inj (hv.symm.trans h)
      exact hrest u node hvu hnode

theorem descend_ends {search : Memory → Option (Bool × ℕ)} {passes : ℕ} {s : Descent}
    {result : Except SearchTreeError SearchResult} {path : List PathRecord} {k : ℕ}
    (hsearch : ∀ node found, search node = some found →
      found = searchNode btree.toControlBlock compareProc (buffer node) searchKey)
    (h : descend btree agent search passes s = some (result, path)) :
    (∃ e, Chain.walk (nextDescent btree agent compareProc searchKey) passes s = some e) ∧
      ((∀ record ∈ path, record.level < k) ↔
        ∀ t node, Chain.Reaches (nextDescent btree agent compareProc searchKey) s t →
          getNode btree agent t.curNodeNum = .ok node → height node < k) := by
  induction passes generalizing s result path with
  | zero => cases h
  | succ passes ih =>
    rw [descend] at h
    cases hnode : getNode btree agent s.curNodeNum with
    | error err =>
      rw [hnode] at h
      cases h
      have hnext : nextDescent btree agent compareProc searchKey s = none := by
        rw [nextDescent, hnode]
      refine ⟨⟨s, Chain.walk_none passes hnext⟩, iff_of_true nofun ((levels_end hnext).mpr ?_)⟩
      intro node hok
      rw [hnode] at hok
      cases hok
    | ok node =>
      have hhere : (∀ node', getNode btree agent s.curNodeNum = .ok node' → height node' < k) ↔
          height node < k := by
        rw [hnode]
        exact ⟨fun hall => hall node rfl, fun hlt node' hok => by cases hok; exact hlt⟩
      rw [hnode] at h
      dsimp only at h
      cases hfound : search node with
      | none =>
        rw [hfound] at h
        cases h
      | some found =>
        obtain ⟨keyFound, index⟩ := found
        have hsearchNode := hsearch node _ hfound
        rw [hfound] at h
        dsimp only at h
        by_cases hleaf : nodeKind node = kLeafNode
        · rw [if_pos hleaf] at h
          cases h
          have hnext : nextDescent btree agent compareProc searchKey s = none := by
            rw [nextDescent, hnode]
            exact if_pos hleaf
          refine ⟨⟨s, Chain.walk_none passes hnext⟩, ?_⟩
          rw [levels_end hnext, hhere, List.forall_mem_singleton]
        · rw [if_neg hleaf] at h
          by_cases hrelease : agent.releaseBlock s.curNodeNum = false
          · rw [if_pos hrelease] at h
            cases h
            have hnext : nextDescent btree agent compareProc searchKey s = none := by
              rw [nextDescent, hnode]
              exact (if_neg hleaf).trans (if_pos hrelease)
            refine ⟨⟨s, Chain.walk_none passes hnext⟩, ?_⟩
            rw [levels_end hnext, hhere, List.forall_mem_singleton]
          · rw [if_neg hrelease] at h
            obtain ⟨⟨result', path'⟩, hrest, heq⟩ := Option.map_eq_some_iff.mp h
            cases heq
            have hnext : nextDescent btree agent compareProc searchKey s =
                some (followChild btree node (childIndex keyFound index) s) := by
              rw [nextDescent, hnode]
              dsimp only
              rw [if_neg hleaf, if_neg hrelease, ← hsearchNode]
            obtain ⟨hends, hlevels⟩ := ih hrest
            rw [Chain.walk_some passes hnext, levels_next hnext, hhere, List.forall_mem_cons]
            exact ⟨hends, and_congr_right (fun _ => hlevels)⟩

theorem descend_some (search : Memory → Option (Bool × ℕ)) {passes : ℕ} {s e : Descent}
    (hsearch : ∀ node, search node =
      some (searchNode btree.toControlBlock compareProc (buffer node) searchKey))
    (h : Chain.walk (nextDescent btree agent compareProc searchKey) passes s = some e) :
    ∃ result path, descend btree agent search passes s = some (result, path) := by
  induction passes generalizing s with
  | zero => cases h
  | succ passes ih =>
    rw [descend]
    cases hnode : getNode btree agent s.curNodeNum with
    | error err => exact ⟨_, _, rfl⟩
    | ok node =>
      obtain ⟨keyFound, index, hsearchNode⟩ : ∃ keyFound index, searchNode btree.toControlBlock
        compareProc (buffer node) searchKey = (keyFound, index) := ⟨_, _, rfl⟩
      dsimp only
      rw [hsearch node, hsearchNode]
      dsimp only
      by_cases hleaf : nodeKind node = kLeafNode
      · rw [if_pos hleaf]
        exact ⟨_, _, rfl⟩
      · rw [if_neg hleaf]
        by_cases hrelease : agent.releaseBlock s.curNodeNum = false
        · rw [if_pos hrelease]
          exact ⟨_, _, rfl⟩
        · rw [if_neg hrelease]
          have hnext : nextDescent btree agent compareProc searchKey s =
              some (followChild btree node (childIndex keyFound index) s) := by
            rw [nextDescent, hnode]
            dsimp only
            rw [if_neg hleaf, if_neg hrelease, hsearchNode]
          rw [Chain.walk_some passes hnext] at h
          obtain ⟨result, path, hrest⟩ := ih h
          exact ⟨_, _, Option.map_eq_some_iff.mpr ⟨_, hrest, rfl⟩⟩

end descent

section table
variable {btree : Tree} {agent : Agent} {compareProc : Key → Key → Ordering} {searchKey : Key}
  {unset : ℕ}

theorem searchTree_nonempty (hdepth : btree.treeDepth ≠ 0) (passes : ℕ) :
    searchTree btree agent compareProc searchKey unset passes =
      (descend btree agent (searchWithin btree compareProc searchKey passes) passes
        ⟨btree.rootNode, unset⟩).map (fun r => (r.1, ⟨0, 0, 0⟩ :: r.2)) := if_neg hdepth

theorem SearchesSafely.descentSafe (h : SearchesSafely btree agent compareProc searchKey unset)
    (hdepth : btree.treeDepth ≠ 0) : DescentSafe btree agent compareProc searchKey unset := by
  obtain ⟨passes, result, path, hresult, hlevels⟩ := h
  rw [searchTree_nonempty hdepth] at hresult
  obtain ⟨⟨result', path'⟩, hdescend, heq⟩ := Option.map_eq_some_iff.mp hresult
  cases heq
  obtain ⟨hends, hwrites⟩ := descend_ends (k := kMaxTreeDepth)
    (fun node found h => searchWithin_eq h) hdescend
  exact ⟨(Chain.ends_iff (descent_finite _)).mp ⟨passes, hends⟩,
    hwrites.mp (List.forall_mem_cons.mp hlevels).2⟩

theorem DescentSafe.searchesSafely (h : DescentSafe btree agent compareProc searchKey unset)
    (hdepth : btree.treeDepth ≠ 0) : SearchesSafely btree agent compareProc searchKey unset := by
  obtain ⟨fuel, e, hwalk⟩ := (Chain.ends_iff (descent_finite _)).mpr h.acyclic
  obtain ⟨result, path, hdescend⟩ := descend_some (searchWithin btree compareProc searchKey
    (max fuel (2 ^ 16))) (searchWithin_enough (Nat.le_max_right _ _))
    (Chain.walk_mono hwalk (Nat.le_max_left _ _))
  obtain ⟨-, hwrites⟩ := descend_ends (k := kMaxTreeDepth)
    (fun node found h => searchWithin_eq h) hdescend
  refine ⟨max fuel (2 ^ 16), result, ⟨0, 0, 0⟩ :: path, ?_, ?_⟩
  · rw [searchTree_nonempty hdepth, hdescend]
    rfl
  · exact List.forall_mem_cons.mpr ⟨by decide, hwrites.mpr h.heights⟩

end table

/-- `SearchTree` ends and keeps to its table just where the tree is empty, or where the way of the
key comes into no cycle and to no node of height sixteen or more. -/
theorem searchTree_safe_iff (fcbEOF : ℕ) (header : HeaderRec) (agent : Agent)
    (compareProc : Key → Key → Ordering) (searchKey : Key) (unset : ℕ) :
    SearchesSafely (openTree fcbEOF header) agent compareProc searchKey unset ↔
      header.treeDepth = 0 ∨
        DescentSafe (openTree fcbEOF header) agent compareProc searchKey unset := by
  have hdepth : (openTree fcbEOF header).treeDepth = header.treeDepth := rfl
  by_cases hempty : header.treeDepth = 0
  · refine iff_of_true ⟨0, .error .fsBTEmptyErr, [], if_pos ?_, nofun⟩ (.inl hempty)
    rw [hdepth, hempty]
  · constructor
    · exact fun h => .inr (h.descentSafe hempty)
    · exact fun h => (h.resolve_left hempty).searchesSafely hempty

/-- The header of a tree of depth sixteen, whose root is node 1. -/
def deepHeader : HeaderRec := ⟨16, 1, 1, 1, 512, 37, 2, 0, 0, false, false⟩

/-- A leaf of height sixteen, without records. -/
def highLeaf : Memory := (Memory.storeWord (fun _ => 0) 510 14).store 8 [255, 16]

/-- An index node with one record, which leads to node 1. -/
def selfNode : Memory :=
  (((Memory.storeWord (fun _ => 0) 510 14).storeWord 508 20).store 8 [0, 1, 0, 1]).store 14 [1, 5, 0, 0, 0, 1]

/-- A disk with this node everywhere. -/
def oneNodeAgent (node : Memory) : Agent := ⟨fun _ => some ⟨node, true⟩, fun _ => true⟩

/-- The root is a leaf of the height that the depth allows, and the entry behind the end of the table
is written; or the root is its own child, and the search does not end. -/
theorem searchTree_not_safe : verifyHeader 1024 deepHeader = .ok () ∧
    checkNode (openTree 1024 deepHeader) highLeaf = true ∧
    checkNode (openTree 1024 deepHeader) selfNode = true ∧
    ¬ SearchesSafely (openTree 1024 deepHeader) (oneNodeAgent highLeaf) compareFirst [1] 0 ∧
    ¬ SearchesSafely (openTree 1024 deepHeader) (oneNodeAgent selfNode) compareFirst [1] 0 := by
  have hhigh : checkNode (openTree 1024 deepHeader) highLeaf = true := by decide +kernel
  have hself : checkNode (openTree 1024 deepHeader) selfNode = true := by decide +kernel
  refine ⟨by decide, hhigh, hself, fun h => ?_, fun h => ?_⟩
  · have hget : getNode (openTree 1024 deepHeader) (oneNodeAgent highLeaf) 1 = .ok highLeaf :=
      getNode_checked ⟨highLeaf, true⟩ (by decide) rfl hhigh
    have hlt := (h.descentSafe (by decide)).heights _ _ Relation.ReflTransGen.refl hget
    exact absurd hlt (by decide +kernel)
  · have hget : getNode (openTree 1024 deepHeader) (oneNodeAgent selfNode) 1 = .ok selfNode :=
      getNode_checked ⟨selfNode, true⟩ (by decide) rfl hself
    have hnext : ∀ data, nextDescent (openTree 1024 deepHeader) (oneNodeAgent selfNode) compareFirst [1]
        ⟨1, data⟩ = some ⟨1, 1⟩ := by
      intro data
      have hindex : nodeKind selfNode ≠ kLeafNode := by decide +kernel
      have hsearch : searchNode (openTree 1024 deepHeader).toControlBlock compareFirst (buffer selfNode) [1] =
          (false, 0) := by decide +kernel
      have hrecord : getRecordByIndex (openTree 1024 deepHeader).toControlBlock (buffer selfNode) 0 =
          some (14, 16, 4) := by decide +kernel
      have hchild : selfNode.long 16 = 1 := by decide +kernel
      rw [nextDescent, hget]
      dsimp only
      rw [if_neg hindex, if_neg (by decide), hsearch]
      dsimp only
      rw [childIndex, if_neg (by decide), followChild, hrecord]
      dsimp only
      rw [hchild]
    exact (h.descentSafe (by decide)).acyclic ⟨1, 1⟩ (Relation.ReflTransGen.single (hnext 0))
      (Relation.TransGen.single (hnext 1))

end Darwin.Hfs.NodeBytes
