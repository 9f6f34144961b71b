import Darwin.Hfs.BTreeNode

/-! # Iteration over a B-tree

In a valid tree the search of the tree and the search from a hint find the same place between
the records, so that iteration returns all records in the order of their keys, whatever hint
an iterator carries.
-/
namespace Darwin.Hfs.BTreeRecords
open Darwin.Lib List
open Darwin.Hfs.BTreeAllocate (NodeType)

variable {κ : Type}

theorem getNode_error {btree : BTree κ} {disk : ℕ → Bool} {n : ℕ} {err : OSStatus}
    (h : btree.getNode disk n = .error err) : err = .fsBTInvalidNodeErr := by
  rw [BTree.getNode] at h
  split_ifs at h
  · exact (Except.error.inj h).symm
  · exact (Except.error.inj h).symm

/-- The records of some nodes, one node after the other. -/
def BTree.contents (btree : BTree κ) (nodes : List ℕ) : List (Record κ) :=
  nodes.flatMap (fun n => (btree.nodeAt n).records)

section contents
variable {btree : BTree κ}

theorem contents_append (a b : List ℕ) :
    btree.contents (a ++ b) = btree.contents a ++ btree.contents b := flatMap_append

theorem contents_cons (n : ℕ) (a : List ℕ) :
    btree.contents (n :: a) = (btree.nodeAt n).records ++ btree.contents a := flatMap_cons

theorem mem_contents {x : Record κ} {nodes : List ℕ} :
    x ∈ btree.contents nodes ↔ ∃ n ∈ nodes, x ∈ (btree.nodeAt n).records := mem_flatMap

end contents

/-! ## Outcomes -/

/-- An iteration goes to the record, or ends with the error when there is none. -/
def Reaches (result : Except OSStatus (Target κ)) (err : OSStatus) : Option (Record κ) → Prop
  | some record => ∃ target, result = .ok target ∧ target.node.records[target.index]? = some record
  | none => result = .error err

/-- What the caller sees of a record: its key, its length, and what fits into the buffer. -/
def Record.seen (recordSize : ℕ) (record : Record κ) : κ × ℕ × ℕ × List UInt8 :=
  (record.key, record.keyLength, record.data.length, record.data.take recordSize)

/-- What the caller sees of an iteration, but for the hint. -/
def Iterated.seen (result : Iterated κ) : κ × ℕ × ℕ × List UInt8 :=
  (result.iterator.key, result.iterator.keyLength, result.recordLen, result.buffer)

/-- The outcome of an iteration that goes to a record, or ends. -/
def outcome (recordSize : ℕ) (err : OSStatus) : Option (Record κ) →
    Except OSStatus (κ × ℕ × ℕ × List UInt8)
  | some record => .ok (record.seen recordSize)
  | none => .error err

theorem Reaches.outcome {result : Except OSStatus (Target κ)} {err : OSStatus}
    {record : Option (Record κ)} (h : Reaches result err record) (recordSize : ℕ) :
    ((result >>= copyData recordSize).mapError exitError).map Iterated.seen =
      BTreeRecords.outcome recordSize (exitError err) record := by
  cases record with
  | none =>
    rw [show result = _ from h]
    rfl
  | some record =>
    obtain ⟨target, rfl, hget⟩ := h
    simp only [bind, Except.bind, copyData, hget]
    rfl

variable [Ord κ]

/-! ## Valid trees -/

/-- The order of the records. -/
def Record.Before (a b : Record κ) : Prop := compare a.key b.key = .lt

instance (a b : Record κ) : Decidable (a.Before b) :=
  inferInstanceAs (Decidable (compare a.key b.key = .lt))

/-- A node of the tree: it lies in the file behind the header node, passes `CheckNode`, and its
records are sorted. -/
structure BTree.Sound (btree : BTree κ) (height nodeNum : ℕ) : Prop where
  height : (btree.nodeAt nodeNum).height = height
  pos : nodeNum ≠ 0
  lt : nodeNum < btree.map.totalNodes
  checked : btree.checkNode (btree.nodeAt nodeNum) = true
  nonempty : (btree.nodeAt nodeNum).records ≠ []
  sorted : (btree.nodeAt nodeNum).records.Pairwise Record.Before

/-- A node of height `h` with these leaves below it. The key of an index record is at most the
keys below its child and larger than the keys below the children before. -/
def BTree.Spans (btree : BTree κ) : ℕ → ℕ → List ℕ → Prop
  | 0, _, _ => False
  | 1, n, leaves => btree.Sound 1 n ∧ (btree.nodeAt n).type = .leaf ∧ leaves = [n]
  | h + 2, n, leaves => btree.Sound (h + 2) n ∧ (btree.nodeAt n).type = .index ∧
      ∃ children : List (Record κ × List ℕ), (btree.nodeAt n).records = children.map Prod.fst ∧
        leaves = children.flatMap Prod.snd ∧
        (∀ child ∈ children, btree.Spans (h + 1) (childNodeNum child.1.data) child.2) ∧
        (∀ child ∈ children, ∀ x ∈ btree.contents child.2,
          (compare child.1.key x.key).isLE = true) ∧
        children.Pairwise (fun child later => ∀ x ∈ btree.contents child.2, x.Before later.1)

/-- A valid tree with its leaves in order. No other node of the file is a leaf with records. -/
structure BTree.Valid (btree : BTree κ) (leaves : List ℕ) : Prop where
  empty : btree.treeDepth = 0 → leaves = []
  spans : btree.treeDepth ≠ 0 → btree.Spans btree.treeDepth btree.rootNode leaves
  first : btree.firstLeafNode = leaves.head?.getD 0
  last : btree.lastLeafNode = leaves.getLast?.getD 0
  linked : ∀ pre n post, leaves = pre ++ n :: post →
    (btree.nodeAt n).bLink = pre.getLast?.getD 0 ∧ (btree.nodeAt n).fLink = post.head?.getD 0
  stray : ∀ n < btree.map.totalNodes, n ∉ leaves → (btree.nodeAt n).hasRecords = false

variable {btree : BTree κ} {leaves : List ℕ} {disk : ℕ → Bool}

/-! ## Nodes of a valid tree -/

/-- How a key compares with a record. -/
def probe (key : κ) (record : Record κ) : Ordering := compare key record.key

theorem BTree.Sound.getNode {i n : ℕ} (h : btree.Sound i n) :
    btree.getNode disk n = .ok (btree.nodeAt n) := by
  rw [BTree.getNode, if_neg (Nat.not_le.mpr h.lt), h.checked]
  simp

theorem probe_sorted [Std.TransOrd κ] {records : List (Record κ)}
    (h : records.Pairwise Record.Before) (key : κ) : Probe.Sorted (probe key) records := by
  apply h.imp
  intro a b hab ha
  apply Std.TransCmp.lt_of_isLE_of_lt _ hab
  simpa [probe, Ordering.isLE_iff_ne_gt] using ha

theorem searchNode_cut [Std.TransOrd κ] {node : Node κ} (h : node.records.Pairwise Record.Before)
    (key : κ) : Cut (probe key) node.records (searchNode key node).1 (searchNode key node).2 := by
  apply bisect_cut (probe_sorted h key) (le_refl 0)
  · simp [Node.numRecords]
  · simp [Node.numRecords]
  · simp [Node.numRecords]
  · intro j x hj
    omega
  · intro j x hj hx
    have := (List.getElem?_eq_some_iff.mp hx).1
    simp only [Node.numRecords] at hj
    omega

theorem BTree.Spans.leaf : ∀ {h n : ℕ} {leaves : List ℕ}, btree.Spans h n leaves →
    ∀ m ∈ leaves, btree.Sound 1 m ∧ (btree.nodeAt m).type = .leaf := by
  intro h
  induction h with
  | zero => exact fun hs => (by cases hs)
  | succ h ih =>
    intro n leaves hs m hm
    cases h with
    | zero =>
      obtain ⟨hsound, hleaf, rfl⟩ := hs
      rw [mem_singleton.mp hm]
      exact ⟨hsound, hleaf⟩
    | succ h =>
      obtain ⟨-, -, children, -, rfl, hchild, -, -⟩ := hs
      obtain ⟨child, hc, hm⟩ := mem_flatMap.mp hm
      exact ih (hchild child hc) m hm

theorem BTree.Valid.leaf (h : btree.Valid leaves) : ∀ n ∈ leaves,
    btree.Sound 1 n ∧ (btree.nodeAt n).type = .leaf := by
  intro n hn
  by_cases hd : btree.treeDepth = 0
  · simp [h.empty hd] at hn
  · exact (h.spans hd).leaf n hn

theorem BTree.Spans.nonempty : ∀ {h n : ℕ} {leaves : List ℕ}, btree.Spans h n leaves →
    leaves ≠ [] := by
  intro h
  induction h with
  | zero => exact fun hs => (by cases hs)
  | succ h ih =>
    intro n leaves hs
    cases h with
    | zero =>
      obtain ⟨-, -, rfl⟩ := hs
      exact cons_ne_nil _ _
    | succ h =>
      obtain ⟨hsound, -, children, hrecords, rfl, hchild, -, -⟩ := hs
      cases children with
      | nil => exact absurd hrecords hsound.nonempty
      | cons child children =>
        rw [flatMap_cons]
        exact append_ne_nil_of_left_ne_nil (ih (hchild child mem_cons_self)) _

theorem BTree.Valid.depth_zero (h : btree.Valid leaves) (hnil : btree.contents leaves = []) :
    btree.treeDepth = 0 := by
  by_contra hd
  obtain ⟨n, hn⟩ := exists_mem_of_ne_nil _ (h.spans hd).nonempty
  obtain ⟨x, hx⟩ := exists_mem_of_ne_nil _ (h.leaf n hn).1.nonempty
  have hmem := mem_contents.mpr ⟨n, hn, hx⟩
  rw [hnil] at hmem
  cases hmem

theorem BTree.Valid.hasRecords (h : btree.Valid leaves) {n : ℕ} (hn : n ∈ leaves) :
    (btree.nodeAt n).hasRecords = true := by
  obtain ⟨hsound, hleaf⟩ := h.leaf n hn
  have := length_pos_iff.mpr hsound.nonempty
  simp [Node.hasRecords, Node.numRecords, hleaf, this]

theorem BTree.Valid.mem_leaves (h : btree.Valid leaves) {n : ℕ} {node : Node κ}
    (hget : btree.getNode disk n = .ok node) (hnode : node.hasRecords = true) :
    n ∈ leaves ∧ node = btree.nodeAt n := by
  rw [BTree.getNode] at hget
  split_ifs at hget with hlt
  cases hget
  refine ⟨?_, rfl⟩
  by_contra hn
  rw [h.stray n (by omega) hn] at hnode
  cases hnode

section Links
variable {pre post : List ℕ} {m : ℕ}

theorem BTree.Valid.left (h : btree.Valid (pre ++ m :: post)) (hlink : (btree.nodeAt m).bLink ≠ 0) :
    ∃ front l, pre = front ++ [l] ∧ (btree.nodeAt m).bLink = l := by
  have hl := (h.linked pre m post rfl).1
  cases pre using List.reverseRecOn with
  | nil => exact absurd hl hlink
  | append_singleton front l => exact ⟨front, l, rfl, by simpa using hl⟩

theorem BTree.Valid.right (h : btree.Valid (pre ++ m :: post)) (hlink : (btree.nodeAt m).fLink ≠ 0) :
    ∃ r rest, post = r :: rest ∧ (btree.nodeAt m).fLink = r := by
  have hr := (h.linked pre m post rfl).2
  cases post with
  | nil => exact absurd hr hlink
  | cons r rest => exact ⟨r, rest, rfl, by simpa using hr⟩

theorem BTree.Valid.pre_eq_nil (h : btree.Valid (pre ++ m :: post))
    (hlink : (btree.nodeAt m).bLink = 0) : pre = [] := by
  have hl := (h.linked pre m post rfl).1
  cases pre using List.reverseRecOn with
  | nil => rfl
  | append_singleton front l =>
    rw [hlink, List.getLast?_concat, Option.getD_some] at hl
    exact absurd hl.symm (h.leaf l (by simp)).1.pos

theorem BTree.Valid.post_eq_nil (h : btree.Valid (pre ++ m :: post))
    (hlink : (btree.nodeAt m).fLink = 0) : post = [] := by
  have hr := (h.linked pre m post rfl).2
  cases post with
  | nil => rfl
  | cons r rest =>
    rw [hlink, List.head?_cons, Option.getD_some] at hr
    exact absurd hr.symm (h.leaf r (by simp)).1.pos

end Links

theorem BTree.Spans.sorted [Std.TransOrd κ] : ∀ {h n : ℕ} {leaves : List ℕ},
    btree.Spans h n leaves → (btree.contents leaves).Pairwise Record.Before := by
  intro h
  induction h with
  | zero => exact fun hs => (by cases hs)
  | succ h ih =>
    intro n leaves hs
    cases h with
    | zero =>
      obtain ⟨hsound, -, rfl⟩ := hs
      simpa [BTree.contents] using hsound.sorted
    | succ h =>
      obtain ⟨-, -, children, -, rfl, hchild, hlow, hsep⟩ := hs
      have hcontents : btree.contents (children.flatMap Prod.snd) =
          children.flatMap (fun child => btree.contents child.2) := flatMap_assoc
      rw [hcontents, pairwise_flatMap]
      refine ⟨fun child hc => ih (hchild child hc), ?_⟩
      apply hsep.imp_of_mem
      intro child later _ hlater h x hx y hy
      exact Std.TransCmp.lt_of_lt_of_isLE (h x hx) (hlow later hlater y hy)

/-! ## Searching the tree -/

section
variable [Std.TransOrd κ]

/-- The place of a key among the leaves: in the node `m`, with smaller records in the leaves
before and larger ones in the leaves behind it. -/
structure PlaceIn (btree : BTree κ) (key : κ) (pre : List ℕ) (m : ℕ) (post : List ℕ)
    (found : Bool) (index : ℕ) : Prop where
  before : ∀ x ∈ btree.contents pre, probe key x = .gt
  behind : ∀ x ∈ btree.contents post, probe key x = .lt
  cut : Cut (probe key) (btree.nodeAt m).records found index

theorem BTree.Spans.search {key : κ} : ∀ {h n fuel : ℕ} {leaves : List ℕ} {path : TreePathTable},
    btree.Spans h n leaves → h ≤ fuel → ∃ path' pre m post found index,
      searchLevels btree disk key fuel path n = .ok ⟨path', m, btree.nodeAt m, index, found⟩ ∧
      path' 1 = (m, index) ∧ leaves = pre ++ m :: post ∧
      PlaceIn btree key pre m post found index := by
  intro h
  induction h with
  | zero => exact fun hs => (by cases hs)
  | succ h ih =>
    intro n fuel leaves path hs hfuel
    obtain ⟨fuel, rfl⟩ : ∃ f, fuel = f + 1 := ⟨fuel - 1, by omega⟩
    cases h with
    | zero =>
      obtain ⟨hsound, hleaf, rfl⟩ := hs
      have hcut := searchNode_cut hsound.sorted key
      refine ⟨Function.update path 1 (n, (searchNode key (btree.nodeAt n)).2), [], n, [],
        _, _, ?_, Function.update_self .., rfl, ⟨?_, ?_, hcut⟩⟩
      · rw [searchLevels, hsound.getNode]
        simp only [bind, Except.bind, hleaf, hsound.height, if_true]
        rfl
      · simp [BTree.contents]
      · simp [BTree.contents]
    | succ h =>
      obtain ⟨hsound, hindex, children, hrecords, rfl, hchild, hlow, hsep⟩ := hs
      have hcut := searchNode_cut hsound.sorted key
      obtain ⟨xs, y, ys, hsplit, hplace, hy, hys⟩ := hcut.floor hsound.nonempty
      have hget : (btree.nodeAt n).records[xs.length]? = some y := by simp [hsplit]
      rw [hrecords] at hsplit
      obtain ⟨X, W, rfl, hX, hW⟩ := map_eq_append_iff.mp hsplit
      obtain ⟨child, Y, rfl, rfl, hY⟩ := map_eq_cons_iff.mp hW
      -- the search goes to the child of the last index record that is not behind the key
      obtain ⟨path', pre, m, post, found, index, hsearch, hpath, hleaves, hin⟩ :=
        ih (hchild child (by simp)) (Nat.le_of_succ_le_succ hfuel)
      refine ⟨path', X.flatMap Prod.snd ++ pre, m, post ++ Y.flatMap Prod.snd, found, index,
        ?_, hpath, ?_, ⟨?_, ?_, hin.cut⟩⟩
      · rw [searchLevels, hsound.getNode]
        simp only [bind, Except.bind, hindex, reduceCtorEq, if_false, hplace, hget]
        exact hsearch
      · simp [hleaves]
      · rw [contents_append]
        intro x hx
        rcases mem_append.mp hx with hx | hx
        · obtain ⟨k, hk, hx⟩ := mem_contents.mp hx
          obtain ⟨c, hc, hk⟩ := mem_flatMap.mp hk
          have hbefore : x.Before child.1 := by
            apply (pairwise_append.mp hsep).2.2 c hc child (by simp) x
            exact mem_contents.mpr ⟨k, hk, hx⟩
          have hle : (compare child.1.key key).isLE = true := by
            have hne : xs ≠ [] := by
              rintro rfl
              simp [map_eq_nil_iff.mp hX] at hc
            apply Std.OrientedCmp.isLE_of_isGE
            simpa [probe, Ordering.isGE_iff_ne_lt] using hy.resolve_left hne
          exact Std.OrientedCmp.gt_of_lt (Std.TransCmp.lt_of_lt_of_isLE hbefore hle)
        · exact hin.before x hx
      · rw [contents_append]
        intro x hx
        rcases mem_append.mp hx with hx | hx
        · exact hin.behind x hx
        · obtain ⟨k, hk, hx⟩ := mem_contents.mp hx
          obtain ⟨c, hc, hk⟩ := mem_flatMap.mp hk
          have hlt : probe key c.1 = .lt := by
            apply hys
            rw [← hY]
            exact mem_map_of_mem hc
          exact Std.TransCmp.lt_of_lt_of_isLE hlt
            (hlow c (by simp [hc]) x (mem_contents.mpr ⟨k, hk, hx⟩))

/-! ## The position of an iterator -/

section Valid
variable {key : κ} {pre post : List ℕ} {m : ℕ}

theorem BTree.Valid.sorted (h : btree.Valid leaves) :
    (btree.contents leaves).Pairwise Record.Before := by
  by_cases hd : btree.treeDepth = 0
  · simp [h.empty hd, BTree.contents]
  · exact (h.spans hd).sorted

theorem BTree.Valid.before_of_ge (h : btree.Valid (pre ++ m :: post)) {x : Record κ}
    (hx : x ∈ (btree.nodeAt m).records) (hc : probe key x ≠ .lt) :
    ∀ y ∈ btree.contents pre, probe key y = .gt := by
  intro y hy
  have hsorted := h.sorted
  rw [contents_append, contents_cons] at hsorted
  by_contra hne
  have hprobe := probe_sorted hsorted key
  exact hc ((pairwise_append.mp hprobe).2.2 y hy x (mem_append_left _ hx) hne)

theorem BTree.Valid.behind_of_le (h : btree.Valid (pre ++ m :: post)) {x : Record κ}
    (hx : x ∈ (btree.nodeAt m).records) (hc : probe key x ≠ .gt) :
    ∀ y ∈ btree.contents post, probe key y = .lt := by
  intro y hy
  have hsorted := h.sorted
  rw [contents_append, contents_cons] at hsorted
  have hprobe := probe_sorted hsorted key
  have htail := (pairwise_append.mp hprobe).2.1
  exact (pairwise_append.mp htail).2.2 x hx y hy hc

theorem BTree.Valid.placeIn (h : btree.Valid (pre ++ m :: post)) {found : Bool} {index : ℕ}
    (hcut : Cut (probe key) (btree.nodeAt m).records found index)
    (hpre : found = false → index = 0 → ∀ x ∈ btree.contents pre, probe key x = .gt)
    (hpost : found = false → index = (btree.nodeAt m).records.length →
      ∀ x ∈ btree.contents post, probe key x = .lt) :
    PlaceIn btree key pre m post found index := by
  refine ⟨?_, ?_, hcut⟩
  · generalize hr : (btree.nodeAt m).records = records at hcut
    cases hcut with
    | found before here behind =>
      exact h.before_of_ge (by rw [hr]; exact mem_append_right _ mem_cons_self)
        (by simp [here])
    | gap before behind =>
      rename_i xs ys
      cases xs with
      | nil => exact hpre rfl rfl
      | cons x xs =>
        exact h.before_of_ge (by rw [hr]; exact mem_append_left _ mem_cons_self)
          (by simp [before x mem_cons_self])
  · generalize hr : (btree.nodeAt m).records = records at hcut
    cases hcut with
    | found before here behind =>
      exact h.behind_of_le (by rw [hr]; exact mem_append_right _ mem_cons_self)
        (by simp [here])
    | gap before behind =>
      rename_i xs ys
      cases ys with
      | nil => exact hpost rfl (by simp [hr])
      | cons y ys =>
        exact h.behind_of_le (by rw [hr]; exact mem_append_right _ mem_cons_self)
          (by simp [behind y mem_cons_self])

/-- A position is at the place of the key, and its neighbours are those of its node. -/
def At (btree : BTree κ) (leaves : List ℕ) (key : κ) (p : Position κ) : Prop :=
  ∃ pre m post, leaves = pre ++ m :: post ∧ p.node = btree.nodeAt m ∧
    PlaceIn btree key pre m post p.foundRecord p.index ∧
    (∀ node, p.left = some node → ∃ n, pre.getLast? = some n ∧ node = btree.nodeAt n) ∧
    (∀ node, p.right = some node → ∃ n, post.head? = some n ∧ node = btree.nodeAt n)

theorem BTree.Valid.searchTheTree (h : btree.Valid leaves) (hd : btree.treeDepth ≠ 0) :
    ∃ p, searchTheTree btree disk key false = .ok p ∧ At btree leaves key p := by
  obtain ⟨path, pre, m, post, found, index, hsearch, -, hleaves, hin⟩ :=
    (h.spans hd).search (Nat.le_add_right btree.treeDepth btree.map.totalNodes)
  refine ⟨⟨none, btree.nodeAt m, none, m, index, found⟩, ?_, pre, m, post, hleaves, rfl, hin,
    ?_, ?_⟩
  · rw [BTreeRecords.searchTheTree, searchTree, if_neg hd, hsearch]
    simp [bind, Except.bind, pure, Except.pure]
  · exact fun _ hl => (by cases hl)
  · exact fun _ hr => (by cases hr)

theorem BTree.Valid.findToTheLeft (h : btree.Valid (pre ++ m :: post)) (hd : btree.treeDepth ≠ 0)
    {nodeNum : ℕ} (hcut : Cut (probe key) (btree.nodeAt m).records false 0) :
    ∃ p, findToTheLeft btree disk key nodeNum 0 (btree.nodeAt m) = .ok p ∧
      At btree (pre ++ m :: post) key p := by
  have hnonempty := length_pos_iff.mpr (h.leaf m (by simp)).1.nonempty
  have hplace := fun hpre => h.placeIn hcut (fun _ _ => hpre) (fun _ hl => absurd hl (by omega))
  rw [BTreeRecords.findToTheLeft]
  by_cases hlink : (btree.nodeAt m).bLink = 0
  · rw [if_pos hlink]
    refine ⟨_, rfl, pre, m, post, rfl, rfl, hplace ?_, fun _ hl => (by cases hl),
      fun _ hr => (by cases hr)⟩
    simp [h.pre_eq_nil hlink, BTree.contents]
  · obtain ⟨front, l, rfl, hbl⟩ := h.left hlink
    have hleaf := (h.leaf l (by simp)).1
    have hvalid : btree.Valid (front ++ l :: m :: post) := by simpa using h
    have hleftCut := searchNode_cut hleaf.sorted key
    rw [if_neg hlink, hbl, hleaf.getNode]
    simp only [bind, Except.bind, h.hasRecords (show l ∈ _ by simp), Bool.true_eq_false, if_false]
    match hs : searchNode key (btree.nodeAt l) with
    | (true, leftIndex) =>
      rw [hs] at hleftCut
      refine ⟨_, rfl, front, l, m :: post, by simp, rfl, hvalid.placeIn hleftCut ?_ ?_,
        fun _ hl => (by cases hl), fun node hr => ⟨m, rfl, (Option.some.inj hr).symm⟩⟩
      · exact fun hf => (by cases hf)
      · exact fun hf => (by cases hf)
    | (false, leftIndex) =>
      rw [hs] at hleftCut
      simp only [Bool.false_eq_true, if_false]
      split_ifs with h0 hlen
      · exact h.searchTheTree hd
      · -- the key is in the gap between the two nodes
        have hall : ∀ x ∈ (btree.nodeAt l).records, probe key x = .gt := by
          obtain rfl : leftIndex = (btree.nodeAt l).records.length :=
            Nat.le_antisymm hleftCut.le_length hlen
          exact hleftCut.all_before
        obtain ⟨x, hx⟩ := exists_mem_of_ne_nil _ hleaf.nonempty
        refine ⟨_, rfl, front ++ [l], m, post, rfl, rfl, hplace ?_,
          fun node hl => ⟨l, by simp, (Option.some.inj hl).symm⟩, fun _ hr => (by cases hr)⟩
        rw [contents_append, contents_cons]
        intro y hy
        rcases mem_append.mp hy with hy | hy
        · exact hvalid.before_of_ge hx (by simp [hall x hx]) y hy
        · exact hall y (by simpa [BTree.contents] using hy)
      · refine ⟨_, rfl, front, l, m :: post, by simp, rfl, hvalid.placeIn hleftCut ?_ ?_,
          fun _ hl => (by cases hl), fun node hr => ⟨m, rfl, (Option.some.inj hr).symm⟩⟩
        · exact fun _ hi => absurd hi h0
        · exact fun _ hi => absurd (Nat.le_of_eq hi.symm) hlen

theorem BTree.Valid.findToTheRight (h : btree.Valid (pre ++ m :: post)) (hd : btree.treeDepth ≠ 0)
    {nodeNum index : ℕ} (hcut : Cut (probe key) (btree.nodeAt m).records false index)
    (hlen : index = (btree.nodeAt m).records.length) :
    ∃ p, findToTheRight btree disk key nodeNum index (btree.nodeAt m) = .ok p ∧
      At btree (pre ++ m :: post) key p := by
  have hleafm := (h.leaf m (by simp)).1
  have hnonempty := length_pos_iff.mpr hleafm.nonempty
  rw [BTreeRecords.findToTheRight]
  by_cases hlink : (btree.nodeAt m).fLink = 0
  · rw [if_pos hlink]
    refine ⟨_, rfl, pre, m, post, rfl, rfl, h.placeIn hcut ?_ ?_, fun _ hl => (by cases hl),
      fun _ hr => (by cases hr)⟩
    · exact fun _ hi => absurd (hlen.symm.trans hi) (by omega)
    · simp [h.post_eq_nil hlink, BTree.contents]
  · obtain ⟨r, rest, rfl, hfl⟩ := h.right hlink
    have hleaf := (h.leaf r (by simp)).1
    have hvalid : btree.Valid ((pre ++ [m]) ++ r :: rest) := by simpa using h
    have hrightCut := searchNode_cut hleaf.sorted key
    rw [if_neg hlink, hfl, hleaf.getNode]
    simp only [bind, Except.bind, h.hasRecords (show r ∈ _ by simp), Bool.true_eq_false, if_false]
    split_ifs with hright
    · have hfalse : (searchNode key (btree.nodeAt r)).1 = false := by
        by_contra ht
        rw [Bool.not_eq_false] at ht
        rw [ht] at hrightCut
        exact absurd hrightCut.lt_length (Nat.not_lt.mpr hright)
      rw [hfalse]
      exact h.searchTheTree hd
    · refine ⟨_, rfl, pre ++ [m], r, rest, by simp, rfl, hvalid.placeIn hrightCut ?_ ?_,
        fun node hl => ⟨m, by simp, (Option.some.inj hl).symm⟩, fun _ hr => (by cases hr)⟩
      · -- the records of the hinted node are before the key
        have hall : ∀ x ∈ (btree.nodeAt m).records, probe key x = .gt := by
          rw [hlen] at hcut
          exact hcut.all_before
        obtain ⟨x, hx⟩ := exists_mem_of_ne_nil _ hleafm.nonempty
        intro _ _
        rw [contents_append, contents_cons]
        intro y hy
        rcases mem_append.mp hy with hy | hy
        · exact h.before_of_ge hx (by simp [hall x hx]) y hy
        · exact hall y (by simpa [BTree.contents] using hy)
      · exact fun _ hi => absurd (Nat.le_of_eq hi.symm) hright

theorem BTree.Valid.findIteratorPosition (h : btree.Valid leaves) (hd : btree.treeDepth ≠ 0)
    (iterator : Iterator κ) : ∃ p, findIteratorPosition btree disk (some iterator) = .ok p ∧
      At btree leaves iterator.key p := by
  rw [BTreeRecords.findIteratorPosition]
  split_ifs with h0
  · exact h.searchTheTree hd
  · match hget : btree.getNode disk iterator.nodeNum with
    | .error err =>
      have herr := getNode_error hget
      subst herr
      exact h.searchTheTree hd
    | .ok middle =>
      match hrec : middle.hasRecords with
      | false =>
        simp only [hrec, if_true]
        exact h.searchTheTree hd
      | true =>
        obtain ⟨hmem, rfl⟩ := h.mem_leaves hget hrec
        obtain ⟨pre, post, rfl⟩ := append_of_mem hmem
        have hcut := searchNode_cut (h.leaf _ hmem).1.sorted iterator.key
        simp only [hrec, Bool.true_eq_false, if_false]
        match hs : searchNode iterator.key (btree.nodeAt iterator.nodeNum) with
        | (true, index) =>
          rw [hs] at hcut
          refine ⟨_, rfl, pre, iterator.nodeNum, post, rfl, rfl, h.placeIn hcut ?_ ?_,
            fun _ hl => (by cases hl), fun _ hr => (by cases hr)⟩
          · exact fun hf => (by cases hf)
          · exact fun hf => (by cases hf)
        | (false, index) =>
          rw [hs] at hcut
          simp only [Bool.false_eq_true, if_false]
          split_ifs with hindex hlen
          · subst hindex
            exact h.findToTheLeft hd hcut
          · exact h.findToTheRight hd hcut (Nat.le_antisymm hcut.le_length hlen)
          · exact h.searchTheTree hd

end Valid

end

/-! ## The record that an iteration returns -/

section Reached
variable {key : κ}

/-- The first record behind a key. -/
def nextRecord (records : List (Record κ)) (key : κ) : Option (Record κ) :=
  records.find? (fun r => probe key r = .lt)

/-- The last record before a key. -/
def prevRecord (records : List (Record κ)) (key : κ) : Option (Record κ) :=
  records.reverse.find? (fun r => probe key r = .gt)

theorem BTree.Valid.following (h : btree.Valid leaves) {p : Position κ}
    (hp : At btree leaves key p) : Reaches (following btree disk p) .fsBTEndOfIterationErr
      (nextRecord (btree.contents leaves) key) := by
  obtain ⟨pre, m, post, rfl, hnode, hin, -, hright⟩ := hp
  have hnext : nextRecord (btree.contents (pre ++ m :: post)) key =
      (p.node.records ++ btree.contents post)[p.index + p.foundRecord.toNat]? := by
    rw [nextRecord, contents_append, contents_cons, (hin.cut.append hin.before hin.behind).find_behind,
      Nat.add_assoc, List.getElem?_append_right (Nat.le_add_right _ _), Nat.add_sub_cancel_left, hnode]
  have hcut := hin.cut
  rw [← hnode] at hcut
  have hlen : p.index + p.foundRecord.toNat ≤ p.node.records.length := by
    match hf : p.foundRecord with
    | true =>
      rw [hf] at hcut
      exact hcut.lt_length
    | false => exact hcut.le_length
  rw [hnext]
  by_cases hlt : p.index + p.foundRecord.toNat < p.node.records.length
  · -- the next record is in the same node
    rw [List.getElem?_append_left hlt, List.getElem?_eq_getElem hlt]
    refine ⟨⟨p.node, p.nodeNum, p.index + p.foundRecord.toNat⟩, ?_, List.getElem?_eq_getElem hlt⟩
    rw [BTreeRecords.following, Node.numRecords]
    match hf : p.foundRecord with
    | true =>
      rw [hf] at hlt
      simp only [Bool.toNat_true] at hlt
      simp [hlt]
    | false =>
      rw [hf] at hlt
      simp only [Bool.toNat_false, Nat.add_zero] at hlt
      simp [Nat.ne_of_lt hlt]
  · have hend : p.index + p.foundRecord.toNat = p.node.records.length := by omega
    rw [List.getElem?_append_right (by omega), hend, Nat.sub_self]
    have hover : ¬ (p.foundRecord = false ∧ p.index ≠ p.node.records.length) := by
      rintro ⟨hf, hi⟩
      exact hi (by simpa [hf] using hend)
    have hlast : ¬ p.index + 1 < p.node.records.length := by
      have := Bool.toNat_le p.foundRecord
      omega
    rw [BTreeRecords.following, Node.numRecords]
    cases post with
    | nil =>
      have hlink : p.node.fLink = 0 := by
        rw [hnode]
        exact (h.linked pre m [] rfl).2
      have hnone : p.right = none := by
        match hr : p.right with
        | none => rfl
        | some node =>
          obtain ⟨n, hn, -⟩ := hright node hr
          cases hn
      simp only [hlink, hover, hlast, hnone, Nat.lt_irrefl, if_false, ite_self]
      rfl
    | cons r rest =>
      have hlink : p.node.fLink = r := by
        rw [hnode]
        exact (h.linked pre m (r :: rest) rfl).2
      have hleaf := (h.leaf r (by simp)).1
      have hhead : (btree.contents (r :: rest))[0]? = (btree.nodeAt r).records[0]? := by
        rw [contents_cons, List.getElem?_append_left (length_pos_iff.mpr hleaf.nonempty)]
      obtain ⟨x, hx⟩ : ∃ x, (btree.nodeAt r).records[0]? = some x :=
        ⟨_, List.getElem?_eq_getElem (length_pos_iff.mpr hleaf.nonempty)⟩
      rw [hhead, hx]
      simp only [hlink, hleaf.pos, false_and, and_false, hover, hlast, if_false]
      match hr : p.right with
      | none =>
        simp only [Nat.pos_of_ne_zero hleaf.pos, if_true, hleaf.getNode]
        exact ⟨_, rfl, hx⟩
      | some node =>
        obtain ⟨n, hn, rfl⟩ := hright node hr
        cases hn
        exact ⟨_, rfl, hx⟩

theorem BTree.Valid.previous (h : btree.Valid leaves) {p : Position κ}
    (hp : At btree leaves key p) : Reaches (previous btree disk p) .fsBTStartOfIterationErr
      (prevRecord (btree.contents leaves) key) := by
  obtain ⟨pre, m, post, rfl, hnode, hin, hleft, -⟩ := hp
  have hprev : prevRecord (btree.contents (pre ++ m :: post)) key =
      if (btree.contents pre).length + p.index = 0 then none
      else (btree.contents pre ++ (p.node.records ++ btree.contents post))[
        (btree.contents pre).length + p.index - 1]? := by
    rw [prevRecord, contents_append, contents_cons,
      (hin.cut.append hin.before hin.behind).find_before, hnode]
  have hcut := hin.cut
  rw [← hnode] at hcut
  rw [hprev, BTreeRecords.previous]
  by_cases hpos : 0 < p.index
  · -- the previous record is in the same node
    have hlt : p.index - 1 < p.node.records.length := by
      have := hcut.le_length
      omega
    have hne : ¬ (btree.contents pre).length + p.index = 0 := by omega
    rw [if_pos hpos, if_neg hne, List.getElem?_append_right (by omega),
      show (btree.contents pre).length + p.index - 1 - (btree.contents pre).length = p.index - 1 by
        omega, List.getElem?_append_left hlt, List.getElem?_eq_getElem hlt]
    exact ⟨_, rfl, List.getElem?_eq_getElem hlt⟩
  · obtain h0 : p.index = 0 := by omega
    rw [h0, Nat.add_zero]
    simp only [Nat.lt_irrefl, if_false]
    cases pre using List.reverseRecOn with
    | nil =>
      have hlink : p.node.bLink = 0 := by
        rw [hnode]
        exact (h.linked [] m post rfl).1
      have hnone : p.left = none := by
        match hl : p.left with
        | none => rfl
        | some node =>
          obtain ⟨n, hn, -⟩ := hleft node hl
          cases hn
      simp only [hlink, hnone, Nat.lt_irrefl, if_false]
      rfl
    | append_singleton front l =>
      have hlink : p.node.bLink = l := by
        rw [hnode]
        simpa using (h.linked (front ++ [l]) m post rfl).1
      have hleaf := (h.leaf l (by simp)).1
      have hlen := length_pos_iff.mpr hleaf.nonempty
      have hcontents : btree.contents (front ++ [l]) =
          btree.contents front ++ (btree.nodeAt l).records := by
        simp [BTree.contents]
      obtain ⟨x, hx⟩ : ∃ x, (btree.nodeAt l).records[(btree.nodeAt l).numRecords - 1]? = some x :=
        ⟨_, List.getElem?_eq_getElem (Nat.sub_lt hlen Nat.one_pos)⟩
      have hlast : (btree.contents (front ++ [l]) ++ (p.node.records ++ btree.contents post))[
          (btree.contents (front ++ [l])).length - 1]? = some x := by
        rw [hcontents, length_append, append_assoc,
          List.getElem?_append_right (by omega),
          List.getElem?_append_left (by omega), ← hx, Node.numRecords]
        congr 1
        omega
      have hne : ¬ (btree.contents (front ++ [l])).length = 0 := by
        rw [hcontents, length_append]
        omega
      rw [if_neg hne, hlast]
      match hl : p.left with
      | none =>
        simp only [hlink, Nat.pos_of_ne_zero hleaf.pos, if_true, hleaf.getNode]
        exact ⟨_, rfl, hx⟩
      | some node =>
        obtain ⟨n, hn, rfl⟩ := hleft node hl
        rw [List.getLast?_concat] at hn
        cases hn
        exact ⟨_, rfl, hx⟩

/-- The error of an iteration that finds no record. -/
def endError (btree : BTree κ) : Operation → OSStatus
  | .prev => if btree.treeDepth = 0 then .fsBTRecordNotFoundErr else .fsBTStartOfIterationErr
  | _ => .fsBTRecordNotFoundErr

theorem BTree.Valid.contents_empty (h : btree.Valid leaves) (hd : btree.treeDepth = 0) :
    btree.contents leaves = [] := by
  rw [h.empty hd]
  rfl

theorem BTree.Valid.position_empty (h : btree.Valid leaves) (hd : btree.treeDepth = 0)
    (iterator : Iterator κ) :
    BTreeRecords.findIteratorPosition btree disk (some iterator) = .error .fsBTEmptyErr := by
  have hsearch : ∀ b, BTreeRecords.searchTheTree btree disk iterator.key b =
      .error .fsBTEmptyErr := by
    intro b
    rw [BTreeRecords.searchTheTree, searchTree, if_pos hd]
    rfl
  rw [BTreeRecords.findIteratorPosition]
  split_ifs with h0
  · exact hsearch false
  · match hget : btree.getNode disk iterator.nodeNum with
    | .error err =>
      have herr := getNode_error hget
      subst herr
      exact hsearch false
    | .ok middle =>
      match hrec : middle.hasRecords with
      | false =>
        simp only [hrec, if_true]
        exact hsearch false
      | true =>
        have hmem := (h.mem_leaves hget hrec).1
        simp [h.empty hd] at hmem

theorem BTree.Valid.firstOrLast (h : btree.Valid leaves) {operation : Operation} {n : ℕ}
    (hn : n ∈ leaves)
    (hnum : (if operation = .first then btree.firstLeafNode else btree.lastLeafNode) = n) :
    firstOrLast btree disk operation = .ok ⟨btree.nodeAt n, n,
      if operation = .first then 0 else (btree.nodeAt n).numRecords - 1⟩ := by
  have hleaf := (h.leaf n hn).1
  rw [BTreeRecords.firstOrLast, hnum]
  simp only [hleaf.pos, if_false, hleaf.getNode, bind, Except.bind, h.hasRecords hn,
    Bool.true_eq_false]
  rfl

theorem BTree.Valid.iterate_first (h : btree.Valid leaves) (iterator : Option (Iterator κ))
    (recordSize : ℕ) :
    (btIterateRecord btree disk .first iterator recordSize).map Iterated.seen =
      outcome recordSize .fsBTRecordNotFoundErr (btree.contents leaves)[0]? := by
  have hreach : Reaches (BTreeRecords.firstOrLast btree disk .first) .fsBTEmptyErr
      (btree.contents leaves)[0]? := by
    have hfirst := h.first
    cases leaves with
    | nil =>
      rw [BTreeRecords.firstOrLast, if_pos rfl, hfirst]
      rfl
    | cons n rest =>
      have hpos := length_pos_iff.mpr (h.leaf n mem_cons_self).1.nonempty
      rw [contents_cons, List.getElem?_append_left hpos, List.getElem?_eq_getElem hpos]
      exact ⟨_, h.firstOrLast mem_cons_self hfirst, List.getElem?_eq_getElem hpos⟩
  exact hreach.outcome recordSize

theorem BTree.Valid.iterate_last (h : btree.Valid leaves) (iterator : Option (Iterator κ))
    (recordSize : ℕ) :
    (btIterateRecord btree disk .last iterator recordSize).map Iterated.seen =
      outcome recordSize .fsBTRecordNotFoundErr (btree.contents leaves).reverse[0]? := by
  have hreach : Reaches (BTreeRecords.firstOrLast btree disk .last) .fsBTEmptyErr
      (btree.contents leaves).reverse[0]? := by
    have hlast := h.last
    cases leaves using List.reverseRecOn with
    | nil =>
      simp only [BTreeRecords.firstOrLast, reduceCtorEq, if_false, hlast]
      rfl
    | append_singleton front n =>
      have hmem : n ∈ front ++ [n] := by simp
      have hpos := length_pos_iff.mpr (h.leaf n hmem).1.nonempty
      have hlt : (btree.nodeAt n).numRecords - 1 < (btree.nodeAt n).records.length :=
        Nat.sub_lt hpos Nat.one_pos
      have hget : (btree.contents (front ++ [n])).reverse[0]? =
          (btree.nodeAt n).records[(btree.nodeAt n).numRecords - 1]? := by
        rw [contents_append, contents_cons, reverse_append,
          List.getElem?_append_left (by simpa using Or.inr hpos)]
        simp [BTree.contents, Node.numRecords, List.getElem?_reverse hpos]
      rw [hget, List.getElem?_eq_getElem hlt]
      rw [List.getLast?_concat, Option.getD_some] at hlast
      exact ⟨_, h.firstOrLast hmem hlast, List.getElem?_eq_getElem hlt⟩
  exact hreach.outcome recordSize

end Reached

/-- A first call and the calls that go on from its iterator. -/
def iterates (btree : BTree κ) (disk : ℕ → ℕ → Bool) (start step : Operation)
    (iterator : Option (Iterator κ)) (recordSize : ℕ) : ℕ → Except OSStatus (Iterated κ)
  | 0 => btIterateRecord btree (disk 0) start iterator recordSize
  | n + 1 => do
    let result ← iterates btree disk start step iterator recordSize n
    btIterateRecord btree (disk (n + 1)) step (some result.iterator) recordSize

theorem iterates_outcome {start step : Operation} {iterator : Option (Iterator κ)} {recordSize : ℕ}
    {err err' : OSStatus} {records : List (Record κ)} {disks : ℕ → ℕ → Bool}
    (hstart : ∀ disk, (btIterateRecord btree disk start iterator recordSize).map Iterated.seen =
      outcome recordSize err' records[0]?) (herr : records = [] → err' = err)
    (hstep : ∀ disk n record, records[n]? = some record → ∀ it : Iterator κ, it.key = record.key →
      (btIterateRecord btree disk step (some it) recordSize).map Iterated.seen =
        outcome recordSize err records[n + 1]?) (n : ℕ) :
    (iterates btree disks start step iterator recordSize n).map Iterated.seen =
      outcome recordSize err records[n]? := by
  induction n with
  | zero =>
    rw [iterates, hstart]
    cases records with
    | nil => rw [herr rfl]
    | cons record records => rfl
  | succ n ih =>
    rw [iterates]
    match hr : iterates btree disks start step iterator recordSize n with
    | .error e =>
      rw [hr] at ih
      match hget : records[n]? with
      | none =>
        rw [hget] at ih
        have hlen := List.getElem?_eq_none_iff.mp hget
        rw [List.getElem?_eq_none (Nat.le_succ_of_le hlen)]
        exact ih
      | some record =>
        rw [hget] at ih
        cases ih
    | .ok result =>
      rw [hr] at ih
      match hget : records[n]? with
      | none =>
        rw [hget] at ih
        cases ih
      | some record =>
        rw [hget] at ih
        have hseen : result.seen = record.seen recordSize := Except.ok.inj ih
        exact hstep (disks (n + 1)) n record hget result.iterator (congrArg Prod.fst hseen)

section Iterate
variable [Std.TransOrd κ]

theorem BTree.Valid.iterate_next (h : btree.Valid leaves) (iterator : Iterator κ) (recordSize : ℕ) :
    (btIterateRecord btree disk .next (some iterator) recordSize).map Iterated.seen =
      outcome recordSize (endError btree .next)
        (nextRecord (btree.contents leaves) iterator.key) := by
  by_cases hd : btree.treeDepth = 0
  · rw [btIterateRecord, findTarget, h.position_empty hd, h.contents_empty hd]
    rfl
  · obtain ⟨p, hp, hat⟩ : ∃ p, BTreeRecords.findIteratorPosition btree disk (some iterator) = .ok p ∧
        At btree leaves iterator.key p := h.findIteratorPosition hd iterator
    rw [btIterateRecord, findTarget, hp]
    exact (h.following hat).outcome recordSize

theorem BTree.Valid.iterate_prev (h : btree.Valid leaves) (iterator : Iterator κ) (recordSize : ℕ) :
    (btIterateRecord btree disk .prev (some iterator) recordSize).map Iterated.seen =
      outcome recordSize (endError btree .prev)
        (prevRecord (btree.contents leaves) iterator.key) := by
  by_cases hd : btree.treeDepth = 0
  · rw [btIterateRecord, findTarget, h.position_empty hd, h.contents_empty hd, endError, if_pos hd]
    rfl
  · obtain ⟨p, hp, hat⟩ : ∃ p, BTreeRecords.findIteratorPosition btree disk (some iterator) = .ok p ∧
        At btree leaves iterator.key p := h.findIteratorPosition hd iterator
    rw [btIterateRecord, findTarget, hp, endError, if_neg hd]
    exact (h.previous hat).outcome recordSize

theorem BTree.Valid.cut_record (h : btree.Valid leaves) {n : ℕ} {record : Record κ}
    (hget : (btree.contents leaves)[n]? = some record) :
    Cut (probe record.key) (btree.contents leaves) true n :=
  (probe_sorted h.sorted record.key).cut_found hget Std.ReflCmp.compare_self

/-- Iteration returns every record once and in order, forwards and backwards, and no hint
changes what the caller sees. -/
theorem iteration_complete {btree : BTree κ} {leaves : List ℕ} (h : btree.Valid leaves)
    (recordSize : ℕ) :
    (btree.contents leaves).Pairwise Record.Before ∧
    (∀ disks iterator n,
      (iterates btree disks .first .next iterator recordSize n).map Iterated.seen =
        outcome recordSize .fsBTRecordNotFoundErr (btree.contents leaves)[n]?) ∧
    (∀ disks iterator n,
      (iterates btree disks .last .prev iterator recordSize n).map Iterated.seen =
        outcome recordSize (endError btree .prev) (btree.contents leaves).reverse[n]?) ∧
    ∀ operation, operation = .next ∨ operation = .prev →
      ∀ key keyLength nodeNum nodeNum' disk disk',
        (btIterateRecord btree disk operation (some ⟨key, keyLength, nodeNum⟩) recordSize).map
          Iterated.seen =
        (btIterateRecord btree disk' operation (some ⟨key, keyLength, nodeNum'⟩) recordSize).map
          Iterated.seen := by
  refine ⟨h.sorted, ?_, ?_, ?_⟩
  · intro disks iterator n
    apply iterates_outcome (fun disk => h.iterate_first iterator recordSize) (fun _ => rfl)
    intro disk n record hget it hkey
    rw [h.iterate_next, hkey, nextRecord, (h.cut_record hget).find_behind]
    rfl
  · intro disks iterator n
    apply iterates_outcome (fun disk => h.iterate_last iterator recordSize)
    · intro hnil
      rw [endError, if_pos (h.depth_zero (reverse_eq_nil_iff.mp hnil))]
    · intro disk n record hget it hkey
      obtain ⟨hn, -⟩ := List.getElem?_eq_some_iff.mp hget
      rw [length_reverse] at hn
      rw [List.getElem?_reverse hn] at hget
      rw [h.iterate_prev, hkey, prevRecord, (h.cut_record hget).find_before]
      by_cases hlast : (btree.contents leaves).length - 1 - n = 0
      · rw [if_pos hlast, List.getElem?_eq_none (by rw [length_reverse]; omega)]
      · rw [if_neg hlast, List.getElem?_reverse (by omega), Nat.sub_sub _ n 1]
  · rintro operation (rfl | rfl) key keyLength nodeNum nodeNum' disk disk'
    · rw [h.iterate_next, h.iterate_next]
    · rw [h.iterate_prev, h.iterate_prev]

end Iterate

/-- A tree of two leaves and a root. -/
def smallTree : BTree ℕ where
  map := ⟨512, 4, 0, 2048, fun n => if n = 0 then ⟨.header, 0, [0xF000]⟩ else ⟨.index, 0, []⟩⟩
  bigKeys := true
  variableIndexKeys := true
  maxKeyLength := 8
  treeDepth := 2
  rootNode := 3
  leafRecords := 3
  firstLeafNode := 1
  lastLeafNode := 2
  node
    | 1 => ⟨.leaf, 1, 2, 0, true, [⟨10, 4, [1, 1]⟩, ⟨20, 4, [2, 2]⟩]⟩
    | 2 => ⟨.leaf, 1, 0, 1, true, [⟨30, 4, [3, 3]⟩]⟩
    | 3 => ⟨.index, 2, 0, 0, true, [⟨10, 4, [0, 0, 0, 1]⟩, ⟨30, 4, [0, 0, 0, 2]⟩]⟩
    | _ => Node.clear

theorem smallTree_valid : smallTree.Valid [1, 2] where
  empty := fun h => (by cases h)
  spans := by
    intro _
    have h1 : smallTree.Sound 1 1 := ⟨rfl, by decide, by decide, by decide, by decide, by decide⟩
    have h2 : smallTree.Sound 1 2 := ⟨rfl, by decide, by decide, by decide, by decide, by decide⟩
    refine ⟨⟨rfl, by decide, by decide, by decide, by decide, by decide⟩, rfl,
      [(⟨10, 4, [0, 0, 0, 1]⟩, [1]), (⟨30, 4, [0, 0, 0, 2]⟩, [2])], rfl, rfl, ?_, ?_, ?_⟩
    · intro child hc
      rcases mem_cons.mp hc with rfl | hc
      · exact ⟨h1, rfl, rfl⟩
      · rw [mem_singleton.mp hc]
        exact ⟨h2, rfl, rfl⟩
    · decide
    · decide
  first := rfl
  last := rfl
  linked := by
    intro pre n post h
    match pre with
    | [] =>
      obtain ⟨rfl, rfl⟩ := List.cons.inj h
      exact ⟨rfl, rfl⟩
    | [m] =>
      simp only [cons_append, nil_append, List.cons.injEq] at h
      obtain ⟨rfl, rfl, rfl⟩ := h
      exact ⟨rfl, rfl⟩
    | _ :: _ :: _ => simp at h
  stray := by decide

/-- A key between the leaves, with the hint of the second leaf and with one behind the file. -/
theorem iteration_complete_gap :
    smallTree.Valid [1, 2] ∧
    (btIterateRecord smallTree (fun _ => true) .next (some ⟨25, 4, 2⟩) 8).map Iterated.seen =
      (btIterateRecord smallTree (fun _ => false) .next (some ⟨25, 4, 77⟩) 8).map Iterated.seen :=
  ⟨smallTree_valid,
    (iteration_complete smallTree_valid 8).2.2.2 .next (.inl rfl) 25 4 2 77 _ _⟩

end Darwin.Hfs.BTreeRecords
