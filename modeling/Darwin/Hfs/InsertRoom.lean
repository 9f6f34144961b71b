import Darwin.Hfs.BTreeSetRecord

/-! # Room for an insertion

The file is extended until it has `treeDepth + 1` free nodes. When the new nodes need map nodes too, one
more than these is asked for, and every further map node comes with the nodes of its bits.
-/
namespace Darwin.Hfs.BTreeAllocate
open Darwin.Lib

/-- When the agent reports success, the file has the length that was asked for. -/
def Grants (setEndOfForkProc : ℕ → ℕ → ℕ × Bool) : Prop :=
  ∀ eof, ∀ minEOF < 2 ^ 32, (setEndOfForkProc eof minEOF).2 = true →
    minEOF ≤ (setEndOfForkProc eof minEOF).1

theorem NodeMapOk.extend_room {setEndOfForkProc : ℕ → ℕ → ℕ × Bool} {chain : List ℕ} {nodes : ℕ}
    {s s' : Io BTree} (h : NodeMapOk s.st chain) (hgrows : Grows setEndOfForkProc)
    (hgrants : Grants setEndOfForkProc) (hlt : s.st.totalNodes < nodes) (hsmall : nodes * s.st.nodeSize < 2 ^ 32)
    (hok : (extendBTree setEndOfForkProc nodes).run s = .ok () s') :
    ∃ new chain', nodes ≤ new ∧ Lengthened chain new s.st s'.st chain' := by
  obtain ⟨front, last, rfl⟩ := h.eq_append
  by_cases hs : s.Succeeds (1 + 2 * front.length)
  · have hrun := extendBTree_counted setEndOfForkProc h.toMapShape hlt hs
    cases heof : agentEOF setEndOfForkProc s.st nodes with
    | none =>
      rw [heof] at hrun
      obtain ⟨e, s'', eof, herr, -⟩ := hrun
      rw [hok] at herr
      cases herr
    | some eof =>
      rw [heof] at hrun
      obtain ⟨hge, hmin⟩ : s.st.fcbEOF ≤ eof ∧ nodes * s.st.nodeSize ≤ eof := by
        rw [agentEOF, u32_eq hsmall] at heof
        split_ifs at heof with hless hsuccess
        · obtain ⟨hle, hlt'⟩ := hgrows s.st.fcbEOF h.fcbEOF (nodes * s.st.nodeSize)
          cases heof
          rw [u32_eq hlt']
          exact ⟨hle, hgrants _ _ hsmall hsuccess⟩
        · cases heof
          exact ⟨Nat.le_refl _, Nat.le_of_not_lt hless⟩
      have h₁ := h.setEOF hge (agentEOF_lt h.toMapShape heof)
      obtain ⟨chain', hlong⟩ := NodeMapOk.lengthened (s := ⟨s.env, s.ops + (1 + 2 * front.length),
        { s.st with fcbEOF := eof }⟩) h₁ rfl (hrun.symm.trans hok)
      refine ⟨_, chain', ?_, hlong.mapOk, hlong.bit, hlong.freeNodes⟩
      exact (Nat.le_div_iff_mul_le (Nat.lt_of_lt_of_le (by decide) h.nodeSize.1)).mpr hmin
  · obtain ⟨e, s'', herr, -⟩ := extendBTree_count_fails setEndOfForkProc h.toMapShape hlt hs
    rw [hok] at herr
    cases herr

end Darwin.Hfs.BTreeAllocate

namespace Darwin.Hfs.BTreeRecords
open Darwin.Lib
open Darwin.Hfs.BTreeAllocate (NodeMapOk Grows Grants Lengthened newMapNodes)

variable {κ : Type}

theorem Extended.nodeAt {btree : BTree κ} {map : BTreeAllocate.BTree} {n : ℕ} (h : Extended btree.map map)
    (hn : n < btree.map.totalNodes)
    (htree : (btree.nodeAt n).type = .leaf ∨ (btree.nodeAt n).type = .index) :
    { btree with map := map }.nodeAt n = btree.nodeAt n := by
  have htype := h.type n hn
  simp only [BTree.nodeAt] at htree ⊢
  rw [htype]
  cases ht : (btree.map.node n).type with
  | leaf => rfl
  | index => rfl
  | header =>
    rw [ht] at htree
    exact absurd htree (by simp)
  | map =>
    rw [ht] at htree
    exact absurd htree (by simp)

/-- The tree that an insertion starts from. -/
structure Roomed (chain chain' : List ℕ) (btree t : BTree κ) : Prop where
  tree : t = { btree with map := t.map }
  extended : Extended btree.map t.map
  mapOk : NodeMapOk t.map chain'
  bit : ∀ m, btree.map.bit chain m = true → t.map.bit chain' m = true
  freeNodes : btree.treeDepth + 1 ≤ t.map.freeNodes

theorem needed_le {btree : BTree κ} {chain : List ℕ} {nodes new : ℕ} (h : NodeMapOk btree.map chain)
    (hdepth : btree.treeDepth ≤ 16)
    (hbits : calcMapBits btree btree.map.totalNodes (8 * (btree.map.nodeSize - 256)) = btree.map.totalMapBits chain)
    (hnodes : nodesNeeded btree = some nodes) (hnew : nodes ≤ new) :
    btree.treeDepth + 1 + btree.map.addedMapNodes chain new ≤
      btree.map.freeNodes + (new - btree.map.totalNodes) := by
  have hsize := h.nodeSize.1
  have hcovers := h.covers
  rw [nodesNeeded, hbits] at hnodes
  by_cases hfew : btree.map.freeNodes < btree.treeDepth + 1
  · rw [if_pos hfew] at hnodes
    obtain rfl := Option.some.inj hnodes
    rw [BTreeAllocate.BTree.addedMapNodes]
    by_cases hfit : new ≤ btree.map.totalMapBits chain
    · rw [if_pos hfit]
      split_ifs at hnew <;> omega
    · rw [if_neg hfit]
      obtain ⟨hlow, -, hcount⟩ :=
        BTreeAllocate.newMapNodes_bounds hsize h.nodeSize.2.2 (Nat.lt_of_not_le hfit)
      generalize newMapNodes btree.map.nodeSize new (btree.map.totalMapBits chain) = count at hlow hcount ⊢
      have hrecord : 100 ≤ BTreeAllocate.recordBits btree.map.nodeSize := by
        rw [BTreeAllocate.recordBits]
        omega
      have hmany := (Nat.mul_le_mul_left (count - 1) hrecord).trans hlow
      split_ifs at hnew with hmap
      · omega
      · omega
  · rw [if_neg hfew] at hnodes
    cases hnodes

theorem makeRoom_roomed [Ord κ] {agent : Agent} {btree t : BTree κ} {chain : List ℕ}
    (h : NodeMapOk btree.map chain) (hdepth : btree.treeDepth ≤ 16)
    (hbits : calcMapBits btree btree.map.totalNodes (8 * (btree.map.nodeSize - 256)) = btree.map.totalMapBits chain)
    (hgrows : Grows agent.setEndOfForkProc) (hgrants : Grants agent.setEndOfForkProc)
    (hsmall : (btree.map.totalNodes + btree.treeDepth + 2) * btree.map.nodeSize < 2 ^ 32)
    (hok : makeRoom agent btree = .ok () t) : ∃ chain', Roomed chain chain' btree t := by
  cases hnodes : nodesNeeded btree with
  | none =>
    rw [makeRoom_none hnodes] at hok
    cases hok
    refine ⟨chain, rfl, Extended.refl _, h, fun _ hbit => hbit, ?_⟩
    rw [nodesNeeded] at hnodes
    split at hnodes
    · cases hnodes
    · omega
  | some nodes =>
    rw [makeRoom_some hnodes] at hok
    obtain ⟨s', hrun, rfl⟩ := liftMap_ok hok
    have hrange : btree.map.totalNodes < nodes ∧ nodes ≤ btree.map.totalNodes + btree.treeDepth + 2 := by
      rw [nodesNeeded] at hnodes
      split at hnodes
      · have hsome := Option.some.inj hnodes
        split_ifs at hsome
        · omega
        · omega
      · cases hnodes
    have hbound : nodes * btree.map.nodeSize < 2 ^ 32 :=
      Nat.lt_of_le_of_lt (Nat.mul_le_mul_right _ hrange.2) hsmall
    obtain ⟨new, chain', hnew, hlong⟩ := NodeMapOk.extend_room (s := ⟨fun _ => true, 0, btree.map⟩) h hgrows
      hgrants hrange.1 hbound hrun
    have hextended := extended_extendBTree (s := ⟨fun _ => true, 0, btree.map⟩) h hgrows hrun
    have hneeded := needed_le h hdepth hbits hnodes hnew
    have hcount := hlong.freeNodes
    refine ⟨chain', rfl, hextended, hlong.mapOk, hlong.bit, ?_⟩
    change btree.treeDepth + 1 ≤ s'.st.freeNodes
    change s'.st.freeNodes + btree.map.addedMapNodes chain new =
      btree.map.freeNodes + (new - btree.map.totalNodes) at hcount
    omega

end Darwin.Hfs.BTreeRecords
