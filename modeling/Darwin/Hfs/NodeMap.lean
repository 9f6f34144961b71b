import Mathlib.Data.List.GetD
import Darwin.Hfs.BTreeAllocate

/-! # The node map as one bitmap

The map records of the header node and of the map nodes, one after the other, are one
bitmap. `MapShape` says how the nodes of a map hang together and `NodeMapOk` what the map
says about the nodes of the file. Allocation finds the first clear bit of the bitmap and
freeing clears the bit of its node.
-/
namespace Darwin.Hfs.BTreeAllocate
open Darwin.Lib Function List

/-- The nodes of the list follow each other through `fLink`, and the last one ends the
chain. -/
def Links (btree : BTree) : List ℕ → Prop
  | [] => False
  | [n] => (btree.node n).fLink = 0
  | n :: m :: ms => (btree.node n).fLink = m ∧ m ≠ 0 ∧ Links btree (m :: ms)

def BTree.mapWords (btree : BTree) (chain : List ℕ) : List (BitVec 16) :=
  chain.flatMap (fun n => (btree.node n).mapRecord)

/-- The words of the map, zero behind its end. -/
def BTree.word (btree : BTree) (chain : List ℕ) (i : ℕ) : BitVec 16 :=
  (btree.mapWords chain).getD i 0

/-- The bits of the map. -/
def BTree.bit (btree : BTree) (chain : List ℕ) : ℕ → Bool := bitAt (btree.word chain)

/-- The number of bits of the map. -/
def BTree.totalMapBits (btree : BTree) (chain : List ℕ) : ℕ :=
  16 * (btree.mapWords chain).length

/-- The nodes `chain` hold the map of the file. -/
structure MapShape (btree : BTree) (chain : List ℕ) : Prop where
  nodeSize : 512 ≤ btree.nodeSize ∧ btree.nodeSize ≤ 32768 ∧ btree.nodeSize % 2 = 0
  fcbEOF : btree.fcbEOF < 2 ^ 32
  header : chain.head? = some 0 ∧ (btree.node 0).type = .header
  mapType : ∀ n ∈ chain.tail, (btree.node n).type = .map
  links : Links btree chain
  nodup : chain.Nodup
  inFile : ∀ n ∈ chain, n < btree.totalNodes
  nonempty : ∀ n ∈ chain, (btree.node n).mapRecord ≠ []
  covers : btree.totalNodes ≤ btree.totalMapBits chain
  bounded : btree.totalMapBits chain < 2 ^ 31

/-- The map counts the free nodes of the file, its own nodes are used, and it is clear
behind the last node. -/
structure NodeMapOk (btree : BTree) (chain : List ℕ) : Prop extends MapShape btree chain where
  inEOF : btree.totalNodes * btree.nodeSize ≤ btree.fcbEOF
  used : ∀ n ∈ chain, btree.bit chain n = true
  clearBehind : ∀ n, btree.totalNodes ≤ n → btree.bit chain n = false
  free : btree.freeNodes = clearCount (btree.word chain) btree.totalNodes

/-- A file of `total` nodes of 512 bytes with the first two in use, whose map is in the header
node; `word` is the first word of the map. -/
def headerTree (total freeNodes : ℕ) (word : BitVec 16) : BTree where
  nodeSize := 512
  totalNodes := total
  freeNodes := freeNodes
  fcbEOF := 512 * total
  node n := if n = 0 then ⟨.header, 0, word :: List.replicate 127 0⟩ else ⟨.leaf, 0, []⟩

/-! ## Words -/

@[simp] theorem mapWords_nil (btree : BTree) : btree.mapWords [] = [] := rfl

@[simp] theorem mapWords_cons (btree : BTree) (n : ℕ) (ns : List ℕ) :
    btree.mapWords (n :: ns) = (btree.node n).mapRecord ++ btree.mapWords ns := rfl

@[simp] theorem mapWords_append (btree : BTree) (ns ms : List ℕ) :
    btree.mapWords (ns ++ ms) = btree.mapWords ns ++ btree.mapWords ms := by
  rw [BTree.mapWords, BTree.mapWords, BTree.mapWords, flatMap_append]

theorem totalMapBits_cons (btree : BTree) (n : ℕ) (ns : List ℕ) :
    btree.totalMapBits (n :: ns) = btree.mapBits n + btree.totalMapBits ns := by
  rw [BTree.totalMapBits, mapWords_cons, length_append, Nat.mul_add]
  rfl

theorem totalMapBits_append (btree : BTree) (ns ms : List ℕ) :
    btree.totalMapBits (ns ++ ms) = btree.totalMapBits ns + btree.totalMapBits ms := by
  rw [BTree.totalMapBits, mapWords_append, length_append, Nat.mul_add]
  rfl

theorem getD_replicate_zero (k i : ℕ) : (List.replicate k (0 : BitVec 16)).getD i 0 = 0 := by
  by_cases hi : i < k
  · exact getD_replicate 0 hi
  · apply getD_eq_default
    rw [length_replicate]
    omega

theorem mapWords_congr {btree btree' : BTree} {ns : List ℕ}
    (h : ∀ n ∈ ns, (btree'.node n).mapRecord = (btree.node n).mapRecord) :
    btree'.mapWords ns = btree.mapWords ns := by
  induction ns with
  | nil => rfl
  | cons n ns ih =>
    rw [mapWords_cons, mapWords_cons, h n mem_cons_self,
      ih (fun m hm => h m (mem_cons_of_mem n hm))]

theorem setWord_mapRecord (btree : BTree) (n pos : ℕ) (x : BitVec 16) (m : ℕ) :
    ((btree.setWord n pos x).node m).mapRecord =
      if m = n then (btree.node n).mapRecord.set pos x else (btree.node m).mapRecord := by
  simp only [BTree.setWord, BTree.setNode]
  split_ifs with h
  · rw [h, update_self]
  · rw [update_of_ne h]

theorem mapWords_setWord {btree : BTree} {pre post : List ℕ} {n pos : ℕ} (x : BitVec 16)
    (hnodup : (pre ++ n :: post).Nodup) (hpos : pos < (btree.node n).mapRecord.length) :
    (btree.setWord n pos x).mapWords (pre ++ n :: post) =
      (btree.mapWords (pre ++ n :: post)).set ((btree.mapWords pre).length + pos) x := by
  have hsame : ∀ ms, n ∉ ms → (btree.setWord n pos x).mapWords ms = btree.mapWords ms := by
    intro ms hms
    apply mapWords_congr
    intro m hm
    have hne : m ≠ n := fun h => hms (h ▸ hm)
    rw [setWord_mapRecord, if_neg hne]
  have hpre : n ∉ pre := by
    intro h
    exact (nodup_append.mp hnodup).2.2 n h n mem_cons_self rfl
  have hpost : n ∉ post := (nodup_cons.mp (nodup_append.mp hnodup).2.1).1
  rw [mapWords_append, mapWords_append, mapWords_cons, mapWords_cons, hsame pre hpre,
    hsame post hpost, setWord_mapRecord, if_pos rfl, set_append_right _ _ (by omega),
    Nat.add_sub_cancel_left, set_append_left _ _ hpos]

theorem word_setWord {btree : BTree} {pre post : List ℕ} {n pos : ℕ} (x : BitVec 16)
    (hnodup : (pre ++ n :: post).Nodup) (hpos : pos < (btree.node n).mapRecord.length) :
    (btree.setWord n pos x).word (pre ++ n :: post) =
      update (btree.word (pre ++ n :: post)) ((btree.mapWords pre).length + pos) x := by
  funext i
  have hlen : (btree.mapWords pre).length + pos <
      (btree.mapWords (pre ++ n :: post)).length := by
    simp only [mapWords_append, mapWords_cons, length_append]
    omega
  rw [BTree.word, mapWords_setWord x hnodup hpos, getD_eq_getElem?_getD, List.getElem?_set]
  by_cases hi : (btree.mapWords pre).length + pos = i
  · rw [if_pos hi, if_pos (hi ▸ hlen), ← hi, update_self]
    rfl
  · rw [if_neg hi, update_of_ne (Ne.symm hi), BTree.word, getD_eq_getElem?_getD]

theorem word_eq {btree : BTree} {pre post : List ℕ} {n pos : ℕ}
    (hpos : pos < (btree.node n).mapRecord.length) :
    btree.word (pre ++ n :: post) ((btree.mapWords pre).length + pos) =
      (btree.node n).mapRecord.getD pos 0 := by
  rw [BTree.word, mapWords_append, mapWords_cons, getD_append_right _ _ _ _ (by omega),
    Nat.add_sub_cancel_left, getD_append _ _ _ _ hpos]

/-- The two trees differ in the words of map records and in the count of free nodes only. -/
structure SameShape (btree btree' : BTree) : Prop where
  nodeSize : btree'.nodeSize = btree.nodeSize
  totalNodes : btree'.totalNodes = btree.totalNodes
  fcbEOF : btree'.fcbEOF = btree.fcbEOF
  type : ∀ n, (btree'.node n).type = (btree.node n).type
  fLink : ∀ n, (btree'.node n).fLink = (btree.node n).fLink
  length : ∀ n, (btree'.node n).mapRecord.length = (btree.node n).mapRecord.length

theorem totalMapBits_headerTree (total free : ℕ) (word : BitVec 16) :
    (headerTree total free word).totalMapBits [0] = 2048 := by
  simp [BTree.totalMapBits, BTree.mapWords, headerTree]

theorem mapShape_headerTree (free : ℕ) {total : ℕ} (word : BitVec 16) (hlow : 0 < total)
    (hhigh : total ≤ 2048) : MapShape (headerTree total free word) [0] where
  nodeSize := show 512 ≤ 512 ∧ 512 ≤ 32768 ∧ 512 % 2 = 0 by decide
  fcbEOF := show 512 * total < 2 ^ 32 by omega
  header := ⟨rfl, rfl⟩
  mapType n hn := absurd hn (by simp)
  links := rfl
  nodup := nodup_singleton 0
  inFile n hn := by
    rw [mem_singleton.mp hn]
    exact hlow
  nonempty n hn := by
    rw [mem_singleton.mp hn]
    exact cons_ne_nil _ _
  covers := (totalMapBits_headerTree total free word).symm ▸ hhigh
  bounded := (totalMapBits_headerTree total free word).symm ▸ show 2048 < 2 ^ 31 by omega

theorem SameShape.refl (btree : BTree) : SameShape btree btree :=
  ⟨rfl, rfl, rfl, fun _ => rfl, fun _ => rfl, fun _ => rfl⟩

theorem SameShape.trans {b b' b'' : BTree} (h : SameShape b b') (h' : SameShape b' b'') :
    SameShape b b'' where
  nodeSize := h'.nodeSize.trans h.nodeSize
  totalNodes := h'.totalNodes.trans h.totalNodes
  fcbEOF := h'.fcbEOF.trans h.fcbEOF
  type n := (h'.type n).trans (h.type n)
  fLink n := (h'.fLink n).trans (h.fLink n)
  length n := (h'.length n).trans (h.length n)

theorem sameShape_setWord (btree : BTree) (n pos : ℕ) (x : BitVec 16) :
    SameShape btree (btree.setWord n pos x) := by
  refine ⟨rfl, rfl, rfl, ?_, ?_, ?_⟩
  · intro m
    simp only [BTree.setWord, BTree.setNode]
    by_cases h : m = n
    · rw [h, update_self]
    · rw [update_of_ne h]
  · intro m
    simp only [BTree.setWord, BTree.setNode]
    by_cases h : m = n
    · rw [h, update_self]
    · rw [update_of_ne h]
  · intro m
    rw [setWord_mapRecord]
    split_ifs with h
    · rw [length_set, h]
    · rfl

theorem links_congr {btree btree' : BTree}
    (h : ∀ n, (btree'.node n).fLink = (btree.node n).fLink) :
    ∀ {chain : List ℕ}, Links btree' chain ↔ Links btree chain := by
  intro chain
  induction chain with
  | nil => rfl
  | cons n ns ih =>
    cases ns with
    | nil => rw [Links, Links, h]
    | cons m ms => rw [Links, Links, h, ih]

theorem SameShape.mapWords_length {btree btree' : BTree} (h : SameShape btree btree')
    (ns : List ℕ) : (btree'.mapWords ns).length = (btree.mapWords ns).length := by
  induction ns with
  | nil => rfl
  | cons n ns ih => rw [mapWords_cons, mapWords_cons, length_append, length_append,
      h.length, ih]

theorem SameShape.totalMapBits {btree btree' : BTree} (h : SameShape btree btree')
    (ns : List ℕ) : btree'.totalMapBits ns = btree.totalMapBits ns := by
  rw [BTree.totalMapBits, BTree.totalMapBits, h.mapWords_length]

theorem MapShape.of_same {btree btree' : BTree} {chain : List ℕ} (h : MapShape btree chain)
    (hs : SameShape btree btree') : MapShape btree' chain where
  nodeSize := hs.nodeSize ▸ h.nodeSize
  fcbEOF := hs.fcbEOF ▸ h.fcbEOF
  header := ⟨h.header.1, (hs.type 0).trans h.header.2⟩
  mapType n hn := (hs.type n).trans (h.mapType n hn)
  links := (links_congr hs.fLink).mpr h.links
  nodup := h.nodup
  inFile n hn := hs.totalNodes ▸ h.inFile n hn
  nonempty n hn := by
    have := hs.length n
    intro h0
    rw [h0, length_nil] at this
    exact h.nonempty n hn (length_eq_zero_iff.mp this.symm)
  covers := by
    rw [hs.totalNodes, hs.totalMapBits]
    exact h.covers
  bounded := by
    rw [hs.totalMapBits]
    exact h.bounded

/-! ## Walking the map -/

/-- A walk stands at `node`, and the nodes `rest` come next. -/
def Ahead (btree : BTree) : Option ℕ → List ℕ → Prop
  | none, rest => rest.head? = some 0 ∧ Links btree rest
  | some n, rest => Links btree (n :: rest)

/-- What a walk knows of the nodes to come. -/
structure Walkable (btree : BTree) (node : Option ℕ) (rest : List ℕ) : Prop where
  ahead : Ahead btree node rest
  inFile : ∀ n ∈ rest, n < btree.totalNodes
  type : ∀ n ∈ rest, (btree.node n).type = if node = none ∧ n = 0 then .header else .map

theorem MapShape.walkable {btree : BTree} {chain : List ℕ} (h : MapShape btree chain) :
    Walkable btree none chain := by
  refine ⟨⟨h.header.1, h.links⟩, h.inFile, ?_⟩
  intro n hn
  obtain ⟨ns, rfl⟩ : ∃ ns, chain = 0 :: ns := by
    cases hc : chain with
    | nil => simp [hc] at hn
    | cons m ns =>
      have := h.header.1
      simp only [hc, List.head?_cons, Option.some.injEq] at this
      exact ⟨ns, by rw [this]⟩
  rcases mem_cons.mp hn with rfl | hn'
  · simpa using h.header.2
  · have hne : n ≠ 0 := fun h0 => (nodup_cons.mp h.nodup).1 (h0 ▸ hn')
    simpa [hne] using h.mapType n hn'

theorem Walkable.tail {btree : BTree} {node : Option ℕ} {n : ℕ} {rest : List ℕ}
    (h : Walkable btree node (n :: rest)) (hn : n ∉ rest) (h0 : node = none → n = 0) :
    Walkable btree (some n) rest := by
  refine ⟨?_, fun m hm => h.inFile m (mem_cons_of_mem n hm), ?_⟩
  · cases node with
    | none => exact h.ahead.2
    | some k => exact h.ahead.2.2
  · intro m hm
    have hne : m ≠ n := fun h => hn (h ▸ hm)
    have htype := h.type m (mem_cons_of_mem n hm)
    by_cases hnode : node = none
    · rw [if_neg (by rintro ⟨-, h⟩; exact hne (h.trans (h0 hnode).symm))] at htype
      simpa using htype
    · simpa [hnode] using htype

/-- The number of operations of `GetMapNode`. -/
def walkCost : Option ℕ → ℕ
  | none => 1
  | some _ => 2

theorem takes_getNode (s : Io BTree) {n : ℕ} (h : n < s.st.totalNodes) :
    Takes Eq (getNode n) s 1 (fun _ _ => True) := by
  apply Takes.current_bind
  rw [if_neg (Nat.not_le.mpr h)]
  exact Takes.operation rfl trivial

theorem takes_releaseNode (s : Io BTree) : Takes Eq releaseNode s 1 (fun _ _ => True) :=
  Takes.operation rfl trivial

theorem takes_updateNode (s : Io BTree) : Takes Eq updateNode s 1 (fun _ _ => True) :=
  Takes.operation rfl trivial

theorem takes_getMapNode {s : Io BTree} {node : Option ℕ} {n : ℕ} {rest : List ℕ}
    (h : Walkable s.st node (n :: rest)) :
    Takes Eq (getMapNode node) s (walkCost node) (fun n' _ => n' = n) := by
  have hin := h.inFile n mem_cons_self
  have htype := h.type n mem_cons_self
  cases node with
  | none =>
    obtain rfl : n = 0 := by simpa using h.ahead.1
    change Takes Eq _ s (1 + 0) _
    apply Takes.current_bind
    apply (takes_getNode s hin).bind (fun _ _ => Eq.trans)
    rintro _ _ rfl -
    rw [if_neg (by simp at htype; simp [htype])]
    exact Takes.pure rfl rfl
  | some k =>
    obtain ⟨hlink, h0, -⟩ := h.ahead
    change Takes Eq _ s (1 + (1 + 0)) _
    apply Takes.current_bind
    dsimp only
    rw [hlink, if_neg h0]
    apply (takes_releaseNode s).bind (fun _ _ => Eq.trans)
    rintro _ _ rfl -
    apply (takes_getNode _ (by exact hin)).bind (fun _ _ => Eq.trans)
    rintro _ _ rfl -
    rw [if_neg (by simp at htype; simp [htype])]
    exact Takes.pure rfl rfl

theorem getMapNode_end {s : Io BTree} {n : ℕ} (h : Walkable s.st (some n) []) :
    (getMapNode (some n)).run s = .error .fsBTNoMoreMapNodesErr s := by
  have hlink : (s.st.node n).fLink = 0 := h.ahead
  rw [getMapNode, current_bind_apply, if_pos hlink]
  rfl

/-! ## Finding a free node -/

theorem findFreeWord_spec {rest : List ℕ} : ∀ {fuel first : ℕ} {node : Option ℕ} {s : Io BTree},
    (∀ i, s.env i = true) → Walkable s.st node rest → rest.Nodup → rest.length < fuel →
    first + s.st.totalMapBits rest < 2 ^ 32 →
    let i := (s.st.mapWords rest).findIdx (· ≠ 0xFFFF)
    (i < (s.st.mapWords rest).length → ∃ n pos pre post ops,
      (findFreeWord fuel node first).run s =
        .ok (n, pos, first + s.st.totalMapBits pre) ⟨s.env, ops, s.st⟩ ∧
      rest = pre ++ n :: post ∧ pos < (s.st.node n).mapRecord.length ∧
      (s.st.mapWords pre).length + pos = i) ∧
    (i = (s.st.mapWords rest).length → ∃ ops,
      (findFreeWord fuel node first).run s = .error .fsBTNoMoreMapNodesErr ⟨s.env, ops, s.st⟩) := by
  induction rest with
  | nil =>
    intro fuel first node s henv hw hnodup hfuel hbits
    obtain ⟨fuel, rfl⟩ : ∃ f, fuel = f + 1 := ⟨fuel - 1, by omega⟩
    refine ⟨fun h => absurd h (by simp), fun _ => ⟨s.ops, ?_⟩⟩
    cases node with
    | none => exact absurd hw.ahead.1 (by simp)
    | some n => exact bind_error (getMapNode_end hw)
  | cons n rest ih =>
    intro fuel first node s henv hw hnodup hfuel hbits
    obtain ⟨fuel, rfl⟩ : ∃ f, fuel = f + 1 := ⟨fuel - 1, by omega⟩
    obtain ⟨hn, hnodup'⟩ := nodup_cons.mp hnodup
    obtain ⟨m, _, hget, rfl, hm⟩ := (takes_getMapNode hw).ok (fun i _ => henv _)
    rw [hm] at hget
    have h0 : node = none → n = 0 := by
      rintro rfl
      simpa using hw.ahead.1
    have hrun : (findFreeWord (fuel + 1) node first).run s =
        if (s.st.node n).mapRecord.findIdx (· ≠ 0xFFFF) < (s.st.node n).mapRecord.length then
          .ok (n, (s.st.node n).mapRecord.findIdx (· ≠ 0xFFFF), first)
            ⟨s.env, s.ops + walkCost node, s.st⟩
        else (findFreeWord fuel (some n) (u32 (first + s.st.mapBits n))).run
          ⟨s.env, s.ops + walkCost node, s.st⟩ := by
      rw [findFreeWord, bind_ok hget, current_bind_apply]
      exact apply_ite (fun m : BTreeM (ℕ × ℕ × ℕ) => m.run _) _ _ _
    rw [hrun, mapWords_cons, findIdx_append]
    by_cases hi : (s.st.node n).mapRecord.findIdx (· ≠ 0xFFFF) < (s.st.node n).mapRecord.length
    · rw [if_pos hi, if_pos hi]
      refine ⟨fun _ => ⟨n, _, [], rest, _, rfl, rfl, hi, Nat.zero_add _⟩, ?_⟩
      intro h
      rw [length_append] at h
      omega
    · rw [totalMapBits_cons, ← Nat.add_assoc] at hbits
      rw [if_neg hi, if_neg hi, u32_eq (by omega)]
      obtain ⟨hfound, hnone⟩ := ih (s := ⟨s.env, s.ops + walkCost node, s.st⟩) henv
        (hw.tail hn h0) hnodup' (by simpa using hfuel) hbits
      dsimp only at hfound hnone
      rw [length_append]
      constructor
      · intro h
        obtain ⟨m, pos, pre, post, ops, hok, hsplit, hpos, hidx⟩ := hfound (by omega)
        refine ⟨m, pos, n :: pre, post, ops, ?_, by rw [hsplit]; rfl, hpos, ?_⟩
        · rw [hok, totalMapBits_cons, Nat.add_assoc]
        · rw [mapWords_cons, length_append]
          omega
      · intro h
        exact hnone (by omega)

theorem findFreeBit_spec {x : BitVec 16} : ∀ {b : ℕ}, b < 16 →
    (∀ i < 15 - b, x.getMsbD i = true) → x ≠ 0xFFFF → ∃ i < 16, x.getMsbD i = false ∧
      (∀ j < i, x.getMsbD j = true) ∧
      findFreeBit x b (maskAt 16 (15 - b)) = (15 - i, maskAt 16 i) := by
  intro b
  induction b with
  | zero =>
    intro _ hset hx
    refine ⟨15, by omega, ?_, fun j hj => hset j (by omega), rfl⟩
    by_contra hlast
    apply hx
    apply BitVec.eq_of_getMsbD_eq
    intro i hi
    have h1 : (0xFFFF : BitVec 16).getMsbD i = true := by
      rw [show (0xFFFF : BitVec 16) = BitVec.allOnes 16 from rfl, BitVec.getMsbD_allOnes]
      simpa using hi
    rw [h1]
    by_cases hi' : i < 15
    · exact hset i (by omega)
    · obtain rfl : i = 15 := by omega
      simpa using hlast
  | succ b ih =>
    intro hb hset hx
    rw [findFreeBit]
    by_cases hbit : x &&& maskAt 16 (15 - (b + 1)) = 0
    · rw [if_pos hbit]
      refine ⟨15 - (b + 1), by omega, (and_maskAt_eq_zero (by omega)).mp hbit, hset, ?_⟩
      rw [show 15 - (15 - (b + 1)) = b + 1 by omega]
    · rw [if_neg hbit, maskAt_shift, show 15 - (b + 1) + 1 = 15 - b by omega]
      apply ih (by omega) _ hx
      intro i hi
      by_cases hlt : i < 15 - (b + 1)
      · exact hset i hlt
      · obtain rfl : i = 15 - (b + 1) := by omega
        by_contra hf
        exact hbit ((and_maskAt_eq_zero (by omega)).mpr (by simpa using hf))

theorem bit_of_lt_findIdx {btree : BTree} {chain : List ℕ} {k : ℕ}
    (h : k / 16 < (btree.mapWords chain).findIdx (· ≠ 0xFFFF)) : btree.bit chain k = true := by
  have hlen := Nat.lt_of_lt_of_le h findIdx_le_length
  have hword : (btree.mapWords chain)[k / 16] = 0xFFFF := by
    simpa using not_of_lt_findIdx h
  rw [BTree.bit, bitAt, BTree.word, getD_eq_getElem _ _ hlen, hword,
    show (0xFFFF : BitVec 16) = BitVec.allOnes 16 from rfl, BitVec.getMsbD_allOnes]
  simpa using Nat.mod_lt k (by omega)

theorem MapShape.length_le {btree : BTree} {chain : List ℕ} (h : MapShape btree chain) :
    chain.length ≤ btree.totalNodes := by
  have hsub : chain ⊆ List.range btree.totalNodes :=
    fun n hn => mem_range.mpr (h.inFile n hn)
  simpa using (subperm_of_subset h.nodup hsub).length_le

/-- `btree'` is `btree` with the map bits of `len` nodes set to `v`. -/
structure MapMarked (btree btree' : BTree) (chain : List ℕ) (start len : ℕ) (v : Bool) :
    Prop where
  shape : SameShape btree btree'
  marked : Marked (btree.word chain) (btree'.word chain) start len v
  others : ∀ n, n ∉ chain → btree'.node n = btree.node n

theorem MapMarked.freeNodes {btree btree' : BTree} {chain : List ℕ} {start len : ℕ} {v : Bool}
    (h : MapMarked btree btree' chain start len v) (count : ℕ) :
    MapMarked btree { btree' with freeNodes := count } chain start len v :=
  ⟨⟨h.shape.nodeSize, h.shape.totalNodes, h.shape.fcbEOF, h.shape.type, h.shape.fLink,
    h.shape.length⟩, h.marked, h.others⟩

@[simp] theorem setWord_freeNodes (btree : BTree) (n pos : ℕ) (x : BitVec 16) :
    (btree.setWord n pos x).freeNodes = btree.freeNodes := rfl

theorem word_of_bit {btree : BTree} {chain pre post : List ℕ} {n k : ℕ}
    (hchain : chain = pre ++ n :: post) (hlow : btree.totalMapBits pre ≤ k)
    (hhigh : k < btree.totalMapBits pre + btree.mapBits n) :
    (btree.node n).mapRecord.getD ((k - btree.totalMapBits pre) / 16) 0 =
      btree.word chain (k / 16) := by
  have hplace : (btree.mapWords pre).length + (k - btree.totalMapBits pre) / 16 = k / 16 := by
    rw [BTree.totalMapBits] at hlow ⊢
    omega
  rw [← hplace, hchain, word_eq]
  rw [BTree.mapBits] at hhigh
  omega

theorem mask_of_bit {btree : BTree} {pre : List ℕ} {k : ℕ} (hlow : btree.totalMapBits pre ≤ k) :
    1#16 <<< (15 - (k - btree.totalMapBits pre) % 16) = maskAt 16 (k % 16) := by
  have hmod : (k - btree.totalMapBits pre) % 16 = k % 16 := by
    rw [BTree.totalMapBits] at hlow ⊢
    omega
  rw [hmod]
  exact one_shiftLeft (Nat.mod_lt k (by omega))

theorem mapMarked_setWord {btree : BTree} {chain pre post : List ℕ} {n k : ℕ} {x : BitVec 16}
    {v : Bool} (hchain : chain = pre ++ n :: post) (hnodup : chain.Nodup)
    (hlow : btree.totalMapBits pre ≤ k) (hhigh : k < btree.totalMapBits pre + btree.mapBits n)
    (hx : Marked (btree.word chain) (update (btree.word chain) (k / 16) x) k 1 v) :
    MapMarked btree (btree.setWord n ((k - btree.totalMapBits pre) / 16) x) chain k 1 v := by
  have hpos : (k - btree.totalMapBits pre) / 16 < (btree.node n).mapRecord.length := by
    rw [BTree.mapBits] at hhigh
    omega
  have hplace : (btree.mapWords pre).length + (k - btree.totalMapBits pre) / 16 = k / 16 := by
    rw [BTree.totalMapBits] at hlow ⊢
    omega
  refine ⟨sameShape_setWord btree n _ x, ?_, ?_⟩
  · rw [hchain, word_setWord x (hchain ▸ hnodup) hpos, hplace, ← hchain]
    exact hx
  · intro m hm
    have hne : m ≠ n := by
      rintro rfl
      apply hm
      rw [hchain]
      simp
    simp only [BTree.setWord, BTree.setNode]
    rw [update_of_ne hne]

/-- The outcome of `AllocateNode`: the first clear bit of the map, if it belongs to the file. -/
def AllocatesFirst (btree : BTree) (chain : List ℕ)
    (r : EStateM.Result OSStatus (Io BTree) ℕ) : Prop :=
  (∃ n s', r = .ok n s' ∧ n < btree.totalNodes ∧ btree.bit chain n = false ∧
      (∀ k < n, btree.bit chain k = true) ∧ MapMarked btree s'.st chain n 1 true ∧
      s'.st.freeNodes = u32Sub btree.freeNodes 1) ∨
    ((∀ k < btree.totalNodes, btree.bit chain k = true) ∧ ∃ e s', r = .error e s' ∧ s'.st = btree)

theorem bit_of_lt_first {btree : BTree} {chain : List ℕ} {i k : ℕ}
    (hset : ∀ j < i, (btree.word chain ((btree.mapWords chain).findIdx (· ≠ 0xFFFF))).getMsbD j =
      true) (hi : i < 16)
    (hk : k < 16 * (btree.mapWords chain).findIdx (· ≠ 0xFFFF) + i) :
    btree.bit chain k = true := by
  rcases Nat.lt_or_ge (k / 16) ((btree.mapWords chain).findIdx (· ≠ 0xFFFF)) with h | h
  · exact bit_of_lt_findIdx h
  · have hword : k / 16 = (btree.mapWords chain).findIdx (· ≠ 0xFFFF) := by omega
    rw [BTree.bit, bitAt, hword]
    exact hset (k % 16) (by omega)

theorem allocateNode_spec {s : Io BTree} {chain : List ℕ} (h : MapShape s.st chain)
    (henv : ∀ i, s.env i = true) : AllocatesFirst s.st chain (allocateNode.run s) := by
  have hbound := h.bounded
  have hcovers := h.covers
  obtain ⟨hfound, hnone⟩ := findFreeWord_spec henv h.walkable h.nodup
    (Nat.lt_succ_of_le h.length_le) (show 0 + s.st.totalMapBits chain < 2 ^ 32 by omega)
  have hle : (s.st.mapWords chain).findIdx (· ≠ 0xFFFF) ≤ (s.st.mapWords chain).length :=
    findIdx_le_length
  rcases Nat.lt_or_eq_of_le hle with hlt | heq
  · obtain ⟨n, pos, pre, post, ops, hok, hchain, hpos, hidx⟩ := hfound hlt
    -- the word and the first clear bit in it
    have hword : (s.st.node n).mapRecord.getD pos 0 =
        s.st.word chain ((s.st.mapWords chain).findIdx (· ≠ 0xFFFF)) := by
      rw [← hidx, hchain, word_eq hpos]
    have hfree : (s.st.node n).mapRecord.getD pos 0 ≠ 0xFFFF := by
      rw [hword, BTree.word, getD_eq_getElem _ _ hlt]
      simpa using findIdx_getElem (w := hlt)
    obtain ⟨i, hi, hclear, hset, hbit⟩ :=
      findFreeBit_spec (show 15 < 16 by omega) (fun i hi => absurd hi (by omega)) hfree
    rw [hword] at hclear hset
    have hk : u32 (0 + s.st.totalMapBits pre + (pos * 16 + (15 - (15 - i)))) =
        16 * (s.st.mapWords chain).findIdx (· ≠ 0xFFFF) + i := by
      rw [BTree.totalMapBits] at hbound ⊢
      rw [u32_eq (by omega)]
      omega
    have hrun : allocateNode.run s = (if s.st.totalNodes ≤
          16 * (s.st.mapWords chain).findIdx (· ≠ 0xFFFF) + i then throw .fsBTFullErr
        else do
          IoM.update (·.setWord n pos ((s.st.node n).mapRecord.getD pos 0 ||| maskAt 16 i))
          updateNode
          IoM.update (fun btree => { btree with freeNodes := u32Sub btree.freeNodes 1 })
          pure (16 * (s.st.mapWords chain).findIdx (· ≠ 0xFFFF) + i) : BTreeM ℕ).run
            ⟨s.env, ops, s.st⟩ := by
      rw [allocateNode, current_bind_apply, bind_ok hok]
      dsimp only
      rw [show (0x8000 : BitVec 16) = maskAt 16 (15 - 15) from rfl, hbit, hk]
    have hdiv : (16 * (s.st.mapWords chain).findIdx (· ≠ 0xFFFF) + i) / 16 =
        (s.st.mapWords chain).findIdx (· ≠ 0xFFFF) := by omega
    have hmod : (16 * (s.st.mapWords chain).findIdx (· ≠ 0xFFFF) + i) % 16 = i := by omega
    have hbefore := fun k => bit_of_lt_first (k := k) hset hi
    rw [hrun]
    generalize hK : 16 * (s.st.mapWords chain).findIdx (· ≠ 0xFFFF) + i = K at *
    split_ifs with hfull
    · right
      exact ⟨fun k hk => hbefore k (by omega), .fsBTFullErr, ⟨s.env, ops, s.st⟩, rfl, rfl⟩
    · left
      have hmark := marked_or (s.st.word chain) (by omega) K
      rw [hdiv, hmod, ← hword, ← hdiv] at hmark
      have hplace : (K - s.st.totalMapBits pre) / 16 = pos := by
        rw [BTree.totalMapBits]
        omega
      have hstored := mapMarked_setWord hchain h.nodup (by rw [BTree.totalMapBits]; omega)
        (by rw [BTree.totalMapBits, BTree.mapBits]; omega) hmark
      rw [hplace] at hstored
      rw [update_bind_apply]
      obtain ⟨_, _, hup, rfl, -⟩ := (takes_updateNode ⟨s.env, ops, s.st.setWord n pos
        ((s.st.node n).mapRecord.getD pos 0 ||| maskAt 16 i)⟩).ok (fun i _ => henv _)
      rw [bind_ok hup, update_bind_apply]
      refine ⟨K, _, rfl, by omega, ?_, hbefore, hstored.freeNodes _, ?_⟩
      · rw [BTree.bit, bitAt, hdiv, hmod]
        exact hclear
      · dsimp only
        rw [setWord_freeNodes]
  · obtain ⟨ops, herr⟩ := hnone heq
    right
    constructor
    · intro k hk
      apply bit_of_lt_findIdx
      rw [heq]
      rw [BTree.totalMapBits] at hcovers
      omega
    · refine ⟨.fsBTNoMoreMapNodesErr, ⟨s.env, ops, s.st⟩, ?_, rfl⟩
      rw [allocateNode, current_bind_apply]
      exact bind_error herr

/-! ## Freeing a node -/

theorem findMapRecord_spec {nodeNum : ℕ} {rest : List ℕ} :
    ∀ {fuel index : ℕ} {node : Option ℕ} {s : Io BTree},
    (∀ i, s.env i = true) → Walkable s.st node rest → rest.Nodup → rest.length < fuel →
    index + s.st.totalMapBits rest < 2 ^ 32 → index ≤ nodeNum →
    nodeNum < index + s.st.totalMapBits rest → ∃ n pre post ops,
      (findMapRecord nodeNum fuel node index).run s =
        .ok (n, index + s.st.totalMapBits pre + s.st.mapBits n) ⟨s.env, ops, s.st⟩ ∧
      rest = pre ++ n :: post ∧ index + s.st.totalMapBits pre ≤ nodeNum ∧
      nodeNum < index + s.st.totalMapBits pre + s.st.mapBits n := by
  induction rest with
  | nil =>
    intro fuel index node s henv hw hnodup hfuel hbits hlow hhigh
    exact absurd hhigh (Nat.not_lt.mpr hlow)
  | cons n rest ih =>
    intro fuel index node s henv hw hnodup hfuel hbits hlow hhigh
    obtain ⟨fuel, rfl⟩ : ∃ f, fuel = f + 1 := ⟨fuel - 1, by omega⟩
    obtain ⟨hn, hnodup'⟩ := nodup_cons.mp hnodup
    obtain ⟨m, _, hget, rfl, hm⟩ := (takes_getMapNode hw).ok (fun i _ => henv _)
    rw [hm] at hget
    have h0 : node = none → n = 0 := by
      rintro rfl
      simpa using hw.ahead.1
    rw [totalMapBits_cons] at hbits hhigh
    have hrun : (findMapRecord nodeNum (fuel + 1) node index).run s =
        if index + s.st.mapBits n ≤ nodeNum then
          (findMapRecord nodeNum fuel (some n) (index + s.st.mapBits n)).run
            ⟨s.env, s.ops + walkCost node, s.st⟩
        else .ok (n, index + s.st.mapBits n) ⟨s.env, s.ops + walkCost node, s.st⟩ := by
      rw [findMapRecord, bind_ok hget, current_bind_apply]
      dsimp only
      rw [u32_eq (by omega)]
      exact apply_ite (fun m : BTreeM (ℕ × ℕ) => m.run _) _ _ _
    rw [hrun]
    split_ifs with hle
    · obtain ⟨k, pre, post, ops, hok, hsplit, hlow', hhigh'⟩ :=
        ih (s := ⟨s.env, s.ops + walkCost node, s.st⟩) henv (hw.tail hn h0) hnodup'
          (by simpa using hfuel) (by dsimp only; omega) hle (by dsimp only; omega)
      have hpre := totalMapBits_cons s.st n pre
      refine ⟨k, n :: pre, post, ops, ?_, by rw [hsplit]; rfl, ?_, ?_⟩
      · rw [hok, hpre, Nat.add_assoc index]
      · rw [hpre, ← Nat.add_assoc]
        exact hlow'
      · rw [hpre, ← Nat.add_assoc]
        exact hhigh'
    · exact ⟨n, [], rest, _, rfl, rfl, hlow, Nat.lt_of_not_le hle⟩

theorem freeNode_spec {s : Io BTree} {chain : List ℕ} {n : ℕ} (h : MapShape s.st chain)
    (henv : ∀ i, s.env i = true) (hn : n < s.st.totalNodes) : ∃ s',
      (freeNode n).run s = .ok () s' ∧ MapMarked s.st s'.st chain n 1 false ∧
      s'.st.freeNodes = u32 (s.st.freeNodes + 1) := by
  have hbound := h.bounded
  have hcovers := h.covers
  obtain ⟨m, pre, post, ops, hok, hchain, hlow, hhigh⟩ := findMapRecord_spec henv h.walkable
    h.nodup (Nat.lt_succ_of_le h.length_le) (show 0 + s.st.totalMapBits chain < 2 ^ 32 by omega)
    (Nat.zero_le n) (by omega)
  rw [Nat.zero_add] at hok hlow hhigh
  have hbits : s.st.totalMapBits pre + s.st.mapBits m ≤ s.st.totalMapBits chain := by
    rw [hchain, totalMapBits_append, totalMapBits_cons]
    omega
  have hrel : u32Sub n (u32Sub (s.st.totalMapBits pre + s.st.mapBits m) (s.st.mapBits m)) =
      n - s.st.totalMapBits pre := by
    rw [u32Sub_eq (Nat.le_add_left (s.st.mapBits m) (s.st.totalMapBits pre)) (by omega),
      Nat.add_sub_cancel, u32Sub_eq hlow (by omega)]
  have hstored := mapMarked_setWord hchain h.nodup hlow hhigh
    (marked_and_not (s.st.word chain) (by omega) n)
  rw [freeNode, current_bind_apply, bind_ok hok]
  dsimp only
  rw [hrel, word_of_bit hchain hlow hhigh, mask_of_bit hlow, update_bind_apply]
  obtain ⟨_, _, hup, rfl, -⟩ := (takes_updateNode ⟨s.env, ops,
    s.st.setWord m ((n - s.st.totalMapBits pre) / 16)
      (s.st.word chain (n / 16) &&& ~~~maskAt 16 (n % 16))⟩).ok (fun i _ => henv _)
  rw [bind_ok hup]
  refine ⟨_, rfl, hstored.freeNodes _, ?_⟩
  dsimp only
  rw [setWord_freeNodes]

end Darwin.Hfs.BTreeAllocate
