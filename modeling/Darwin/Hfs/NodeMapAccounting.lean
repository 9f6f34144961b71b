import Mathlib.Tactic.IntervalCases
import Darwin.Lib.Run
import Darwin.Hfs.BTreeExtend

/-! # The accounting of the node map

Allocating, freeing and extending keep the count of free nodes in step with the map, over
every sequence of calls. Extending counts all new nodes as free except the new map nodes,
which is right for a map that is clear behind the last node.
-/
namespace Darwin.Hfs.BTreeAllocate
open Darwin.Lib List

/-! ## Allocating and freeing -/

section Marking
variable {btree btree' : BTree} {chain : List ℕ} {n : ℕ}

theorem NodeMapOk.freeNodes_lt (h : NodeMapOk btree chain) : btree.freeNodes < 2 ^ 31 := by
  have hle := clearCount_le (btree.word chain) btree.totalNodes
  have hcovers := h.covers
  have hbounded := h.bounded
  rw [h.free]
  omega

theorem NodeMapOk.allocate (h : NodeMapOk btree chain)
    (hm : MapMarked btree btree' chain n 1 true) (hn : n < btree.totalNodes)
    (hclear : btree.bit chain n = false)
    (hfree : btree'.freeNodes = u32Sub btree.freeNodes 1) : NodeMapOk btree' chain := by
  have hcount := hm.marked.clearCount (n := btree.totalNodes)
    (fun k hk hk' => by rwa [show k = n by omega]) (by omega)
  refine ⟨h.toMapShape.of_same hm.shape, ?_, ?_, ?_, ?_⟩
  · rw [hm.shape.totalNodes, hm.shape.nodeSize, hm.shape.fcbEOF]
    exact h.inEOF
  · intro m hmem
    rw [BTree.bit, hm.marked m]
    split_ifs
    · rfl
    · exact h.used m hmem
  · intro m hm'
    rw [hm.shape.totalNodes] at hm'
    rw [BTree.bit, hm.marked m, if_neg (by omega)]
    exact h.clearBehind m hm'
  · have hlt := h.freeNodes_lt
    rw [h.free] at hlt hfree
    rw [hfree, hm.shape.totalNodes, u32Sub_eq (by omega) (by omega)]
    omega

theorem NodeMapOk.release (h : NodeMapOk btree chain)
    (hm : MapMarked btree btree' chain n 1 false) (hn : n < btree.totalNodes)
    (hset : btree.bit chain n = true) (hother : n ∉ chain)
    (hfree : btree'.freeNodes = u32 (btree.freeNodes + 1)) : NodeMapOk btree' chain := by
  have hcount := hm.marked.clearCount_succ hset hn
  refine ⟨h.toMapShape.of_same hm.shape, ?_, ?_, ?_, ?_⟩
  · rw [hm.shape.totalNodes, hm.shape.nodeSize, hm.shape.fcbEOF]
    exact h.inEOF
  · intro m hmem
    have hne : m ≠ n := fun he => hother (he ▸ hmem)
    rw [BTree.bit, hm.marked m, if_neg (by omega)]
    exact h.used m hmem
  · intro m hm'
    rw [hm.shape.totalNodes] at hm'
    rw [BTree.bit, hm.marked m]
    split_ifs
    · rfl
    · exact h.clearBehind m hm'
  · have hlt := h.freeNodes_lt
    rw [hfree, hm.shape.totalNodes, u32_eq (by omega), hcount, h.free]

theorem node_setNode {x : Node} {ns : List ℕ} (h : n ∉ ns) {m : ℕ} (hm : m ∈ ns) :
    (btree.setNode n x).node m = btree.node m := by
  have hne : m ≠ n := by
    rintro rfl
    exact h hm
  exact Function.update_of_ne hne x btree.node

theorem links_setNode {x : Node} {ns : List ℕ} (h : n ∉ ns) :
    Links (btree.setNode n x) ns ↔ Links btree ns := by
  induction ns with
  | nil => rfl
  | cons m ms ih =>
    cases ms with
    | nil => rw [Links, Links, node_setNode h mem_cons_self]
    | cons k ks =>
      rw [Links, Links, node_setNode h mem_cons_self]
      exact and_congr_right fun _ => and_congr_right fun _ => ih fun hk => h (mem_cons_of_mem m hk)

theorem NodeMapOk.setNode (h : NodeMapOk btree chain) (hn : n ∉ chain) (x : Node) :
    NodeMapOk (btree.setNode n x) chain ∧ (btree.setNode n x).word chain = btree.word chain := by
  have hother : ∀ m ∈ chain, (btree.setNode n x).node m = btree.node m := fun m hm => node_setNode hn hm
  have hwords : (btree.setNode n x).mapWords chain = btree.mapWords chain :=
    mapWords_congr (fun m hm => congrArg Node.mapRecord (hother m hm))
  have hword : (btree.setNode n x).word chain = btree.word chain := by
    funext i
    rw [BTree.word, BTree.word, hwords]
  have htotal : (btree.setNode n x).totalMapBits chain = btree.totalMapBits chain := by
    rw [BTree.totalMapBits, BTree.totalMapBits, hwords]
  refine ⟨⟨⟨h.nodeSize, h.fcbEOF, ⟨h.header.1, ?_⟩, fun m hm => ?_, (links_setNode hn).mpr h.links,
    h.nodup, h.inFile, fun m hm => ?_, htotal ▸ h.covers, htotal ▸ h.bounded⟩, h.inEOF, ?_, ?_, ?_⟩, hword⟩
  · rw [hother 0 (mem_of_mem_head? h.header.1)]
    exact h.header.2
  · rw [hother m (mem_of_mem_tail hm)]
    exact h.mapType m hm
  · rw [hother m hm]
    exact h.nonempty m hm
  · intro m hm
    rw [BTree.bit, hword]
    exact h.used m hm
  · intro m hm
    rw [BTree.bit, hword]
    exact h.clearBehind m hm
  · rw [hword]
    exact h.free

theorem NodeMapOk.exists_clear (h : NodeMapOk btree chain) (hfree : 0 < btree.freeNodes) :
    ∃ k < btree.totalNodes, btree.bit chain k = false :=
  clearCount_pos.mp (h.free ▸ hfree)

end Marking

/-! ## Extending -/

section Extending
variable {btree : BTree} {front : List ℕ} {last new : ℕ}

theorem NodeMapOk.clearCount_eq {chain : List ℕ} (h : NodeMapOk btree chain)
    (hle : btree.totalNodes ≤ new) :
    clearCount (btree.word chain) new = btree.freeNodes + (new - btree.totalNodes) := by
  have hsplit := clearCount_add (fun i hi _ => h.clearBehind i hi)
    (n := btree.totalNodes) (k := new - btree.totalNodes) (m := btree.word chain)
  rw [Nat.add_sub_cancel' hle] at hsplit
  rw [hsplit, h.free]

theorem NodeMapOk.setEOF {chain : List ℕ} (h : NodeMapOk btree chain) {eof : ℕ}
    (heof : btree.fcbEOF ≤ eof) (hlt : eof < 2 ^ 32) :
    NodeMapOk { btree with fcbEOF := eof } chain :=
  { h.toMapShape.setEOF hlt with
    inEOF := h.inEOF.trans heof
    used := h.used
    clearBehind := h.clearBehind
    free := h.free }

theorem NodeMapOk.totalNodes_le {chain : List ℕ} (h : NodeMapOk btree chain) :
    btree.totalNodes ≤ btree.fcbEOF / btree.nodeSize := by
  have hsize := h.nodeSize.1
  exact (Nat.le_div_iff_mul_le (by omega)).mpr h.inEOF

theorem NodeMapOk.fits {chain : List ℕ} {free : ℕ} (h : NodeMapOk btree chain)
    (hnew : new = btree.fcbEOF / btree.nodeSize) (hfit : new ≤ btree.totalMapBits chain)
    (hfree : free = btree.freeNodes + (new - btree.totalNodes)) :
    NodeMapOk { btree with totalNodes := new, freeNodes := free } chain := by
  have hle : btree.totalNodes ≤ new := hnew ▸ h.totalNodes_le
  have hlinks := (@links_congr btree { btree with totalNodes := new, freeNodes := free }
    (fun _ => rfl) chain).mpr h.links
  exact { h with
    links := hlinks
    inFile := fun n hn => Nat.lt_of_lt_of_le (h.inFile n hn) hle
    covers := hfit
    inEOF := hnew ▸ Nat.div_mul_le_self _ _
    clearBehind := fun n hn => h.clearBehind n (hle.trans hn)
    free := hfree.trans (h.clearCount_eq hle).symm }

theorem grown_word {count : ℕ} (h : MapShape btree (front ++ [last])) :
    (btree.grown last new count).word (front ++ last :: List.range' btree.totalNodes count) =
      btree.word (front ++ [last]) := by
  have hnew : ∀ k ≤ count, (btree.grown last new count).mapWords
      (List.range' btree.totalNodes k) =
        List.replicate (k * ((btree.nodeSize - 20) / 2)) 0 := by
    intro k hk
    induction k with
    | zero =>
      rw [Nat.zero_mul]
      rfl
    | succ k ih =>
      rw [List.range'_concat, mapWords_append, ih (by omega), Nat.one_mul, mapWords_cons,
        grown_node_new (by omega), mapWords_nil, append_nil, Nat.succ_mul,
        replicate_add]
  have hold : (btree.grown last new count).mapWords (front ++ [last]) =
      btree.mapWords (front ++ [last]) :=
    mapWords_congr (fun n hn => grown_mapRecord_old (h.inFile n hn))
  funext i
  rw [BTree.word, BTree.word, show front ++ last :: List.range' btree.totalNodes count =
    (front ++ [last]) ++ List.range' btree.totalNodes count by simp, mapWords_append,
    hold, hnew count (le_refl _)]
  rcases Nat.lt_or_ge i (btree.mapWords (front ++ [last])).length with hi | hi
  · rw [getD_append _ _ _ _ hi]
  · rw [getD_append_right _ _ _ _ hi, getD_eq_default _ _ hi, getD_replicate_zero]

theorem Links.append {btree btree' : BTree} {front rest : List ℕ} {last : ℕ}
    (h : Links btree (front ++ [last]))
    (hsame : ∀ n ∈ front, (btree'.node n).fLink = (btree.node n).fLink)
    (hrest : Links btree' (last :: rest)) : Links btree' (front ++ last :: rest) := by
  induction front with
  | nil => exact hrest
  | cons n front ih =>
    have hn := hsame n mem_cons_self
    have hmore := fun k hk => hsame k (mem_cons_of_mem n hk)
    cases front with
    | nil =>
      obtain ⟨hlink, h0, h'⟩ := h
      exact ⟨hn.trans hlink, h0, ih h' hmore⟩
    | cons m front =>
      obtain ⟨hlink, h0, h'⟩ := h
      exact ⟨hn.trans hlink, h0, ih h' hmore⟩

theorem links_grown {count : ℕ} (h : MapShape btree (front ++ [last])) (hcount : 0 < count) :
    Links (btree.grown last new count)
      (front ++ last :: List.range' btree.totalNodes count) := by
  have hlast := h.inFile last (by simp)
  have hchain : ∀ k i, i + (k + 1) = count → Links (btree.grown last new count)
      (List.range' (btree.totalNodes + i) (k + 1)) := by
    intro k
    induction k with
    | zero =>
      intro i hi
      change ((btree.grown last new count).node (btree.totalNodes + i)).fLink = 0
      rw [grown_node_new (by omega), if_neg (by omega)]
    | succ k ih =>
      intro i hi
      refine ⟨?_, by omega, ih (i + 1) (by omega)⟩
      rw [grown_node_new (by omega), if_pos (by omega)]
      rfl
  obtain ⟨c, rfl⟩ : ∃ c, count = c + 1 := ⟨count - 1, by omega⟩
  apply h.links.append
  · intro n hn
    have hne : n ≠ last := by
      rintro rfl
      exact (nodup_append.mp h.nodup).2.2 n hn n mem_cons_self rfl
    rw [grown_node_old (h.inFile n (mem_append_left _ hn)), if_neg hne]
  · refine ⟨?_, by omega, hchain c 0 (by omega)⟩
    rw [grown_node_old hlast, if_pos rfl]

theorem mapShape_grown (h : MapShape btree (front ++ [last]))
    (hnew : btree.totalMapBits (front ++ [last]) < new) (hmax : new < 2 ^ 23) :
    let count := newMapNodes btree.nodeSize new (btree.totalMapBits (front ++ [last]))
    MapShape (btree.grown last new count)
      (front ++ last :: List.range' btree.totalNodes count) := by
  intro count
  have hrecords := records_grown h hnew hmax
  obtain ⟨hsize, -, heven⟩ := h.nodeSize
  obtain ⟨-, hhigh, -⟩ := newMapNodes_bounds hsize heven hnew
  change new - _ < count * recordBits btree.nodeSize at hhigh
  have hcount : 0 < count := Nat.succ_pos _
  have hfile : btree.totalNodes + count ≤ new := hrecords.inFile
  have hchain : front ++ last :: List.range' btree.totalNodes count =
      (front ++ [last]) ++ List.range' btree.totalNodes count := by simp
  have htotal : (btree.grown last new count).totalMapBits
      (front ++ last :: List.range' btree.totalNodes count) =
        btree.totalMapBits (front ++ [last]) + count * recordBits btree.nodeSize := by
    rw [hchain, totalMapBits_append, grown_totalMapBits (fun n hn => h.inFile n hn),
      hrecords.totalMapBits_range (le_refl _)]
  have hmem : ∀ n ∈ front ++ last :: List.range' btree.totalNodes count,
      (n ∈ front ++ [last] ∧ n < btree.totalNodes) ∨ ∃ i < count, n = btree.totalNodes + i := by
    intro n hn
    rw [hchain] at hn
    rcases mem_append.mp hn with hn | hn
    · exact .inl ⟨hn, h.inFile n hn⟩
    · obtain ⟨hlow, hup⟩ := mem_range'_1.mp hn
      exact .inr ⟨n - btree.totalNodes, by omega, by omega⟩
  have htype : ∀ n < btree.totalNodes,
      ((btree.grown last new count).node n).type = (btree.node n).type := by
    intro n hn
    rw [grown_node_old hn]
    split_ifs with he
    · rw [he]
    · rfl
  refine ⟨h.nodeSize, h.fcbEOF, ⟨?_, ?_⟩, ?_, links_grown h hcount, h.nodup_grown count, ?_, ?_,
    ?_, ?_⟩
  · rw [hchain, List.head?_append, h.header.1]
    rfl
  · rw [htype 0 hrecords.oldPos]
    exact h.header.2
  · intro n hn
    rw [hchain, tail_append_of_ne_nil (by simp)] at hn
    rcases mem_append.mp hn with hn | hn
    · rw [htype n (h.inFile n (mem_of_mem_tail hn))]
      exact h.mapType n hn
    · obtain ⟨hlow, hup⟩ := mem_range'_1.mp hn
      rw [show n = btree.totalNodes + (n - btree.totalNodes) by omega, grown_node_new (by omega)]
  · intro n hn
    change n < new
    rcases hmem n hn with ⟨-, hlt⟩ | ⟨i, hi, rfl⟩
    · omega
    · omega
  · intro n hn
    rcases hmem n hn with ⟨hn, hlt⟩ | ⟨i, hi, rfl⟩
    · rw [grown_mapRecord_old hlt]
      exact h.nonempty n hn
    · rw [grown_node_new hi]
      intro hnil
      have hlen := congrArg List.length hnil
      rw [length_replicate, length_nil] at hlen
      omega
  · rw [htotal]
    change new ≤ _
    omega
  · rw [htotal]
    exact hrecords.fits

theorem NodeMapOk.links_marked {count free : ℕ} (h : NodeMapOk btree (front ++ [last]))
    (hnew : new = btree.fcbEOF / btree.nodeSize)
    (hcount : newMapNodes btree.nodeSize new (btree.totalMapBits (front ++ [last])) = count)
    (hmore : btree.totalMapBits (front ++ [last]) < new) {btree' : BTree}
    (hm : MapMarked (btree.grown last new count) btree'
      (front ++ last :: List.range' btree.totalNodes count) btree.totalNodes count true)
    (hfree : free + count = btree.freeNodes + (new - btree.totalNodes)) :
    NodeMapOk { btree' with freeNodes := free }
      (front ++ last :: List.range' btree.totalNodes count) := by
  have hmax : new < 2 ^ 23 := hnew ▸ h.div_lt h.fcbEOF
  have hgrown := mapShape_grown h.toMapShape hmore hmax
  have hrecords := records_grown h.toMapShape hmore hmax
  dsimp only at hgrown
  rw [hcount] at hgrown hrecords
  have hfile : btree.totalNodes + count ≤ new := hrecords.inFile
  have hmarked := hm.marked
  rw [grown_word h.toMapShape] at hmarked
  have hclear := h.clearCount_eq (show btree.totalNodes ≤ new by omega)
  have hcleared := hmarked.clearCount (fun k hk _ => h.clearBehind k hk) hfile
  have htotal : btree'.totalNodes = new := hm.shape.totalNodes
  have hsame : SameShape btree' { btree' with freeNodes := free } :=
    ⟨rfl, rfl, rfl, fun _ => rfl, fun _ => rfl, fun _ => rfl⟩
  refine ⟨(hgrown.of_same hm.shape).of_same hsame, ?_, ?_, ?_, ?_⟩
  · change btree'.totalNodes * btree'.nodeSize ≤ btree'.fcbEOF
    rw [htotal, hm.shape.nodeSize, hm.shape.fcbEOF, hnew]
    exact Nat.div_mul_le_self btree.fcbEOF btree.nodeSize
  · intro n hn
    change bitAt (btree'.word _) n = true
    rw [hmarked n]
    split_ifs with hin
    · rfl
    · have hn' : n ∈ (front ++ [last]) ++ List.range' btree.totalNodes count := by
        simpa using hn
      rcases mem_append.mp hn' with hold | hnew'
      · exact h.used n hold
      · have := mem_range'_1.mp hnew'
        omega
  · intro n hn
    change btree'.totalNodes ≤ n at hn
    change bitAt (btree'.word _) n = false
    rw [hmarked n, if_neg (by omega)]
    exact h.clearBehind n (by omega)
  · change free = clearCount (btree'.word _) btree'.totalNodes
    rw [htotal]
    omega

/-- The map nodes that are added when the file has this many nodes. -/
def BTree.addedMapNodes (btree : BTree) (chain : List ℕ) (new : ℕ) : ℕ :=
  if new ≤ btree.totalMapBits chain then 0 else newMapNodes btree.nodeSize new (btree.totalMapBits chain)

/-- A map in a longer file: the nodes in use stay in use, and the other new nodes are free. -/
structure Lengthened (chain : List ℕ) (new : ℕ) (btree btree' : BTree) (chain' : List ℕ) : Prop where
  mapOk : NodeMapOk btree' chain'
  bit : ∀ m, btree.bit chain m = true → btree'.bit chain' m = true
  freeNodes : btree'.freeNodes + btree.addedMapNodes chain new = btree.freeNodes + (new - btree.totalNodes)

theorem NodeMapOk.lengthened {s s' : Io BTree}
    (h : NodeMapOk s.st (front ++ [last])) (hnew : new = s.st.fcbEOF / s.st.nodeSize)
    (hok : (addMapNodes s.st.totalNodes new ⟨last, s.st.totalMapBits front,
      s.st.totalMapBits (front ++ [last])⟩).run s = .ok () s') :
    ∃ chain', Lengthened (front ++ [last]) new s.st s'.st chain' := by
  have hmax : new < 2 ^ 23 := hnew ▸ h.div_lt h.fcbEOF
  have hle : s.st.totalNodes ≤ new := hnew ▸ h.totalNodes_le
  have hlt := h.freeNodes_lt
  by_cases hfit : new ≤ s.st.totalMapBits (front ++ [last])
  · have hst := ((takes_addMapNodes_fits (s.st.totalMapBits front) hfit).of_ok hok).2.2
    have hfree : u32 (s.st.freeNodes + u32Sub new s.st.totalNodes) =
        s.st.freeNodes + (new - s.st.totalNodes) := by
      rw [u32Sub_eq hle (by omega), u32_eq (by omega)]
    rw [hst]
    refine ⟨_, h.fits hnew hfit hfree, fun m hbit => hbit, ?_⟩
    rw [BTree.addedMapNodes, if_pos hfit, Nat.add_zero]
    exact hfree
  · have hmore := Nat.lt_of_not_le hfit
    obtain ⟨-, hfit' | hstart⟩ := (addMapNodes_returns_iff h.toMapShape hmax).mp ⟨s', hok⟩
    · exact absurd hfit' hfit
    · have hfile := (records_grown h.toMapShape hmore hmax).inFile
      obtain ⟨t', hmarked, hst⟩ :=
        ((takes_addMapNodes_links h.toMapShape hmore hmax hstart).of_ok hok).2.2
      change s.st.totalNodes + _ ≤ new at hfile
      have hfree : u32 (s.st.freeNodes + u32Sub (u32Sub new s.st.totalNodes)
          (newMapNodes s.st.nodeSize new (s.st.totalMapBits (front ++ [last])))) +
          newMapNodes s.st.nodeSize new (s.st.totalMapBits (front ++ [last])) =
          s.st.freeNodes + (new - s.st.totalNodes) := by
        rw [u32Sub_eq hle (by omega), u32Sub_eq (by omega) (by omega), u32_eq (by omega)]
        omega
      rw [hst]
      refine ⟨_, h.links_marked hnew rfl hmore hmarked hfree, fun m hbit => ?_, ?_⟩
      · have hword := (hmarked.freeNodes (u32 (s.st.freeNodes + u32Sub (u32Sub new s.st.totalNodes)
          (newMapNodes s.st.nodeSize new (s.st.totalMapBits (front ++ [last])))))).marked
        rw [grown_word h.toMapShape] at hword
        rw [BTree.bit, hword m]
        split
        · rfl
        · exact hbit
      · rw [BTree.addedMapNodes, if_neg hfit]
        exact hfree

/-- The agent never makes the file shorter, and its length stays a 32-bit number. -/
def Grows (setEndOfForkProc : ℕ → ℕ → ℕ × Bool) : Prop :=
  ∀ eof < 2 ^ 32, ∀ minEOF,
    eof ≤ (setEndOfForkProc eof minEOF).1 ∧ (setEndOfForkProc eof minEOF).1 < 2 ^ 32

theorem NodeMapOk.extend_cases {s s' : Io BTree} {chain : List ℕ} (h : NodeMapOk s.st chain)
    {setEndOfForkProc : ℕ → ℕ → ℕ × Bool} {newTotalNodes : ℕ}
    (hproc : Grows setEndOfForkProc)
    (hok : (extendBTree setEndOfForkProc newTotalNodes).run s = .ok () s') :
    s'.st = s.st ∨ ∃ front last eof, ∃ s₁ : Io BTree, chain = front ++ [last] ∧ s.st.fcbEOF ≤ eof ∧
      s₁.st = { s.st with fcbEOF := eof } ∧ NodeMapOk s₁.st chain ∧
      (BTreeAllocate.addMapNodes s₁.st.totalNodes (s₁.st.fcbEOF / s₁.st.nodeSize)
        ⟨last, s₁.st.totalMapBits front, s₁.st.totalMapBits (front ++ [last])⟩).run s₁ =
          .ok () s' := by
  by_cases hlt : s.st.totalNodes < newTotalNodes
  · obtain ⟨front, last, rfl⟩ := h.eq_append
    by_cases hs : s.Succeeds (1 + 2 * front.length)
    · have hrun := extendBTree_counted setEndOfForkProc h.toMapShape hlt hs
      cases heof : agentEOF setEndOfForkProc s.st newTotalNodes with
      | none =>
        rw [heof] at hrun
        obtain ⟨e, s'', eof, herr, -⟩ := hrun
        rw [hok] at herr
        cases herr
      | some eof =>
        rw [heof] at hrun
        have hge : s.st.fcbEOF ≤ eof := by
          rw [agentEOF] at heof
          split_ifs at heof
          · obtain ⟨hle, hlt'⟩ := hproc s.st.fcbEOF h.fcbEOF (u32 (newTotalNodes * s.st.nodeSize))
            cases heof
            rwa [u32_eq hlt']
          · cases heof
            exact le_refl _
        have h₁ := h.setEOF hge (agentEOF_lt h.toMapShape heof)
        exact .inr ⟨front, last, eof, ⟨s.env, s.ops + (1 + 2 * front.length),
          { s.st with fcbEOF := eof }⟩, rfl, hge, rfl, h₁, hrun.symm.trans hok⟩
    · obtain ⟨e, s'', herr, -⟩ := extendBTree_count_fails setEndOfForkProc h.toMapShape hlt hs
      rw [hok] at herr
      cases herr
  · rw [extendBTree, current_bind_apply, if_pos (Nat.le_of_not_lt hlt)] at hok
    cases hok
    exact .inl rfl

theorem NodeMapOk.extend {s s' : Io BTree} {chain : List ℕ} (h : NodeMapOk s.st chain)
    {setEndOfForkProc : ℕ → ℕ → ℕ × Bool} {newTotalNodes : ℕ}
    (hproc : Grows setEndOfForkProc)
    (hok : (extendBTree setEndOfForkProc newTotalNodes).run s = .ok () s') :
    ∃ chain', NodeMapOk s'.st chain' := by
  rcases h.extend_cases hproc hok with hst | ⟨front, last, eof, s₁, rfl, -, -, h₁, hadd⟩
  · exact ⟨chain, hst ▸ h⟩
  · obtain ⟨chain', hl⟩ := NodeMapOk.lengthened h₁ rfl hadd
    exact ⟨chain', hl.mapOk⟩

end Extending

/-! ## Every sequence of calls -/

theorem Links.unique {btree : BTree} {n : ℕ} {ns : List ℕ} :
    ∀ {ms : List ℕ}, Links btree (n :: ns) → Links btree (n :: ms) → ns = ms := by
  induction ns generalizing n with
  | nil =>
    intro ms h h'
    cases ms with
    | nil => rfl
    | cons m ms => exact absurd (h'.1.symm.trans h) h'.2.1
  | cons k ns ih =>
    intro ms h h'
    cases ms with
    | nil => exact absurd (h.1.symm.trans h') h.2.1
    | cons m ms =>
      obtain rfl : k = m := h.1.symm.trans h'.1
      rw [ih h.2.2 h'.2.2]

theorem MapShape.unique {btree : BTree} {chain chain' : List ℕ} (h : MapShape btree chain)
    (hhead : chain'.head? = some 0) (hlinks : Links btree chain') : chain' = chain := by
  have h0 := h.header.1
  have hl := h.links
  cases chain with
  | nil => exact absurd hl id
  | cons n ns =>
    cases chain' with
    | nil => exact absurd hlinks id
    | cons m ms =>
      obtain rfl : n = 0 := by simpa using h0
      obtain rfl : m = 0 := by simpa using hhead
      rw [hlinks.unique hl]

inductive Event where
  | allocateNode
  | freeNode (nodeNum : ℕ)
  | extendBTree (setEndOfForkProc : ℕ → ℕ → ℕ × Bool) (newTotalNodes : ℕ) (env : ℕ → Bool)

/-- One call. `FreeNode` is given a used node that is neither the header nor a map node, and
`ExtendBTree` succeeds, with an agent that never makes the file shorter. The operations of
the other calls succeed. -/
def BTree.step (btree : BTree) : Event → BTree → Prop
  | .allocateNode, btree' =>
    btree' = finalState (BTreeAllocate.allocateNode.run ⟨fun _ => true, 0, btree⟩)
  | .freeNode n, btree' =>
    (∃ chain, chain.head? = some 0 ∧ Links btree chain ∧ n ∉ chain ∧ n < btree.totalNodes ∧
      btree.bit chain n = true) ∧
    btree' = finalState ((BTreeAllocate.freeNode n).run ⟨fun _ => true, 0, btree⟩)
  | .extendBTree proc new env, btree' =>
    Grows proc ∧
    ∃ s', (BTreeAllocate.extendBTree proc new).run ⟨env, 0, btree⟩ = .ok () s' ∧ btree' = s'.st

theorem NodeMapOk.step {btree btree' : BTree} {chain : List ℕ} {e : Event}
    (h : NodeMapOk btree chain) (hstep : btree.step e btree') :
    ∃ chain', NodeMapOk btree' chain' := by
  cases e with
  | allocateNode =>
    rcases allocateNode_spec (s := ⟨fun _ => true, 0, btree⟩) h.toMapShape (fun _ => rfl) with
      ⟨n, s', hok, hn, hclear, -, hmarked, hfree⟩ | ⟨-, e, s', herr, hst⟩
    · refine ⟨chain, ?_⟩
      rw [hstep, hok]
      exact h.allocate hmarked hn hclear hfree
    · refine ⟨chain, ?_⟩
      rw [hstep, herr, finalState, hst]
      exact h
  | freeNode n =>
    obtain ⟨⟨chain', hhead, hlinks, hother, hn, hset⟩, hfinal⟩ := hstep
    obtain rfl := h.toMapShape.unique hhead hlinks
    obtain ⟨s', hok, hmarked, hfree⟩ :=
      freeNode_spec (s := ⟨fun _ => true, 0, btree⟩) h.toMapShape (fun _ => rfl) hn
    refine ⟨chain', ?_⟩
    rw [hfinal, hok]
    exact h.release hmarked hn hset hother hfree
  | extendBTree proc new env =>
    obtain ⟨hproc, s', hok, rfl⟩ := hstep
    exact NodeMapOk.extend (s := ⟨env, 0, btree⟩) h hproc hok

/-- In every state that a sequence of calls reaches, the count of free nodes is the number of
clear bits of the map, the nodes of the map are used and the map is clear behind the last
node; and `AllocateNode` takes the first free node or, exactly when there is none, fails and
changes nothing. -/
theorem nodeMap_accounting {btree btree' : BTree} {chain : List ℕ} (h : NodeMapOk btree chain)
    {events : List Event} (hr : Run BTree.step btree events btree') : ∃ chain',
      NodeMapOk btree' chain' ∧ AllocatesFirst btree' chain'
        (allocateNode.run ⟨fun _ => true, 0, btree'⟩) := by
  have hinv : ∃ chain', NodeMapOk btree' chain' := by
    apply Run.invariant (I := fun btree => ∃ chain, NodeMapOk btree chain) _ hr ⟨chain, h⟩
    rintro s e t ⟨chain, hs⟩ hstep
    exact hs.step hstep
  obtain ⟨chain', h'⟩ := hinv
  exact ⟨chain', h', allocateNode_spec (s := ⟨fun _ => true, 0, btree'⟩) h'.toMapShape
    (fun _ => rfl)⟩

theorem nodeMapOk_headerTree : NodeMapOk (headerTree 4 2 0xC000) [0] := by
  refine ⟨mapShape_headerTree 2 0xC000 (by decide) (by decide), by decide, ?_, ?_, by decide⟩
  · intro n hn
    rw [mem_singleton.mp hn]
    rfl
  · intro n hn
    change 4 ≤ n at hn
    by_cases h16 : n < 16
    · interval_cases n <;> rfl
    · obtain ⟨k, hk⟩ : ∃ k, n / 16 = k + 1 := ⟨n / 16 - 1, by omega⟩
      have hword : (headerTree 4 2 0xC000).word [0] (k + 1) = 0 := getD_replicate_zero 127 k
      rw [BTree.bit, bitAt, hk, hword]
      exact BitVec.getMsbD_zero

/-- An agent that gives the file the length that is asked for, if a file can have it. -/
def growTo (eof minEOF : ℕ) : ℕ × Bool := (max eof (min minEOF (2 ^ 32 - 1)), true)

theorem grows_growTo : Grows growTo := by
  intro eof heof minEOF
  simp only [growTo]
  omega

set_option maxRecDepth 4000 in
/-- Two nodes are taken on a file of four nodes that grows to eight between. -/
theorem nodeMap_accounting_two : ∃ btree' chain',
    Run BTree.step (headerTree 4 2 0xC000)
      [.allocateNode, .extendBTree growTo 8 (fun _ => true), .allocateNode] btree' ∧
      NodeMapOk btree' chain' ∧ btree'.totalNodes = 8 := by
  have hr : Run BTree.step (headerTree 4 2 0xC000) ([] ++ [.allocateNode] ++
      [.extendBTree growTo 8 (fun _ => true)] ++ [.allocateNode]) _ :=
    .snoc (.snoc (.snoc (.nil _) rfl) ⟨grows_growTo, _, rfl, rfl⟩) rfl
  obtain ⟨chain', h', -⟩ := nodeMap_accounting nodeMapOk_headerTree hr
  exact ⟨_, chain', hr, h', rfl⟩

set_option maxRecDepth 4000 in
/-- A bit is set behind the last node: after the file has grown over it, one node too many is
counted as free. -/
theorem stray_bit_counted_free : MapShape (headerTree 2 0 0xE000) [0] ∧
    (headerTree 2 0 0xE000).bit [0] 0 = true ∧
    (headerTree 2 0 0xE000).freeNodes =
      clearCount ((headerTree 2 0 0xE000).word [0]) (headerTree 2 0 0xE000).totalNodes ∧
    ∃ s', (extendBTree (fun _ minEOF => (minEOF, true)) 3).run
        ⟨fun _ => true, 0, headerTree 2 0 0xE000⟩ = .ok () s' ∧
      s'.st.freeNodes ≠ clearCount (s'.st.word [0]) s'.st.totalNodes := by
  have hshape := mapShape_headerTree 0 0xE000 (show 0 < 2 by decide) (by decide)
  refine ⟨hshape, rfl, by decide, ?_⟩
  exact ⟨_, rfl, by decide⟩

end Darwin.Hfs.BTreeAllocate
