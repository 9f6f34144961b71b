import Darwin.Ipc.EntryInvariant

/-! # The operations on entries keep the invariant

For each operation: it returns, the space is in order afterwards, and the names and contents
have changed as they should.
-/
namespace Darwin.Ipc
open Darwin.Lib Darwin.Lib.SearchTree Function List

/-! ## Stores into entries -/

/-- The tree entries after a store. -/
def TreeMap.modify (T : TreeMap) (name : MachPort) (f : Entry → Entry) : TreeMap :=
  fun n => if n = name then (T n).map f else T n

theorem TreeMap.modify_ne_none (T : TreeMap) (name : MachPort) (f : Entry → Entry) (n : MachPort) :
    T.modify name f n ≠ none ↔ T n ≠ none := by
  unfold TreeMap.modify
  by_cases hn : n = name
  · simp [hn]
  · simp [hn]

theorem Splay.Holds.modify {tree : Splay Entry} {T : TreeMap} (h : tree.Holds T) (name : MachPort)
    (f : Entry → Entry) : (tree.modify name f).Holds (T.modify name f) := by
  have hparts : (tree.modify name f).parts.inorder = tree.parts.inorder.map (modifyAt name f) := by
    simp only [Splay.modify, Splay.parts, Parts.inorder, leftList_modify, rightList_modify,
      SearchTree.Tree.toList_modify, map_append]
  have hnil : (tree.modify name f).istRoot.isNil = tree.istRoot.isNil := by
    unfold Splay.modify
    cases tree.istRoot <;> rfl
  have hinorder : (tree.modify name f).inorder = tree.inorder.map (modifyAt name f) := by
    unfold Splay.inorder
    rw [hnil, hparts]
    split <;> rfl
  refine ⟨?_, ?_⟩
  · intro hne
    have hne' : tree.istRoot ≠ .nil := by
      rw [← SearchTree.Tree.isNil_eq_false, ← hnil, SearchTree.Tree.isNil_eq_false]
      exact hne
    have hat := h.placed hne'
    refine ⟨?_, ?_, ?_, ?_⟩
    · rw [hparts]
      exact (ordered_modify name).mpr hat.ordered
    · change Below (leftList (LeftSpine.modify name f tree.istLtree)) tree.istName
      rw [leftList_modify]
      exact (below_modify name).mpr hat.below
    · change Above (rightList (RightSpine.modify name f tree.istRtree)) tree.istName
      rw [rightList_modify]
      exact (above_modify name).mpr hat.above
    · have hs := hat.settled
      change Settled tree.istName (tree.istRoot.modify name f)
      change Settled tree.istName tree.istRoot at hs
      cases ht : tree.istRoot with
      | nil => exact absurd ht hne'
      | node l n e r =>
        rw [ht] at hs
        rcases hs with heq | ⟨hlt, rfl⟩ | ⟨hgt, rfl⟩
        · exact .inl heq
        · exact .inr (.inl ⟨hlt, rfl⟩)
        · exact .inr (.inr ⟨hgt, rfl⟩)
  · rw [hinorder]
    exact h.represents.modify name f

section space
variable {sizes : TableSizes} {s : Space} {T : TreeMap} {fl : List ℕ}

theorem Space.liveName_slot {s s' : Space} {n name : MachPort} {T : TreeMap}
    (hn : s.named name = true) (hsize : s'.isTable.size = s.isTable.size)
    (hother : ∀ i, i ≠ machPortIndex name → s'.isTable.entry i = s.isTable.entry i)
    (hgen : (s'.isTable.entry (machPortIndex name)).ieBits.gen = machPortGen name)
    (hne : n ≠ name) : s'.liveName T n = s.liveName T n := by
  by_cases hi : machPortIndex n = machPortIndex name
  · -- the slot has another generation before and after
    have hgen' : machPortGen name ≠ machPortGen n := fun hg => hne (machPort_ext hi hg.symm)
    have hs : ¬ s.named n = true := by
      intro hnamed
      have h1 := (Space.named_iff.mp hnamed).2.2.2
      rw [hi, (Space.named_iff.mp hn).2.2.2] at h1
      exact hgen' h1
    have hs' : ¬ s'.named n = true := by
      intro hnamed
      have h1 := (Space.named_iff.mp hnamed).2.2.2
      rw [hi, hgen] at h1
      exact hgen' h1
    rw [Space.liveName, Space.liveName, if_neg hs, if_neg hs']
  · exact Space.liveName_congr hsize (by rw [hother _ hi]) (by rw [hother _ hi])
      (fun _ => by rw [hother _ hi]) rfl

theorem SpaceOk.store (h : SpaceOk sizes s T fl) {name : MachPort}
    (hlive : s.liveName T name ≠ none) {c : Contents} (hc : c.type ≠ PortType.none) :
    ∃ T', SpaceOk sizes (s.store c (s.locate name)) T' fl ∧
      (s.store c (s.locate name)).liveName T' = update (s.liveName T) name (some c) := by
  by_cases hn : s.named name = true
  · obtain ⟨hpos, hlt, htype, hgen⟩ := Space.named_iff.mp hn
    rw [Space.locate, if_pos hn]
    have hself : (s.store c (.table (machPortIndex name))).isTable.entry (machPortIndex name) =
        (s.isTable.entry (machPortIndex name)).store c := update_self ..
    have hother : ∀ i, i ≠ machPortIndex name →
        (s.store c (.table (machPortIndex name))).isTable.entry i = s.isTable.entry i :=
      fun i hi => update_of_ne hi ..
    refine ⟨T, ⟨h.next_pos, h.next_le, h.size, h.holds, ?_⟩, ?_⟩
    · exact h.entries.storeSlot htype ((s.isTable.entry (machPortIndex name)).store c) hc rfl rfl
    · funext n
      by_cases hne : n = name
      · have hn' : (s.store c (.table (machPortIndex name))).named name = true :=
          Space.named_iff.mpr ⟨hpos, hlt, by rw [hself]; exact hc, by rw [hself]; exact hgen⟩
        rw [hne, update_self, Space.liveName, if_pos hn', hself]
        rfl
      · rw [update_of_ne hne]
        exact Space.liveName_slot hn rfl hother (by rw [hself]; exact hgen) hne
  · rw [Space.locate, if_neg hn]
    have hT : T name ≠ none := by
      intro hT
      rw [Space.liveName, if_neg hn, hT] at hlive
      exact hlive rfl
    have hindex : ∀ i, TreeIndex (T.modify name (Entry.store c)) i ↔ TreeIndex T i := by
      intro i
      simp only [TreeIndex, TreeMap.modify_ne_none]
    refine ⟨T.modify name (Entry.store c), ⟨h.next_pos, h.next_le, h.size, h.holds.modify _ _, ?_⟩, ?_⟩
    · apply h.entries.changeTree (i := machPortIndex name)
        (b := (s.isTable.entry (machPortIndex name)).ieBits.collision)
        (fun hi => h.entries.not_treeIndex hi ⟨name, hT, rfl⟩)
      · exact (update_eq_self _ _).symm
      · intro hi
        rw [h.entries.collision _ hi, hindex]
      · intro n hni
        unfold TreeMap.modify
        rw [if_neg]
        rintro rfl
        exact hni rfl
      · intro n hn' hni hp hl
        rw [TreeMap.modify_ne_none] at hn'
        rw [← hni]
        exact h.entries.apart n hn' (by rw [hni]; exact hp) (by rw [hni]; exact hl)
      · intro n x hx hni
        unfold TreeMap.modify at hx
        by_cases hne : n = name
        · rw [if_pos hne] at hx
          obtain ⟨y, hy, rfl⟩ := Option.map_eq_some_iff.mp hx
          obtain ⟨h1, h2, h3, -⟩ := h.entries.tree n y hy
          exact ⟨h1, h2, h3, hc⟩
        · rw [if_neg hne] at hx
          exact h.entries.tree n x hx
      · simp only [TreeMap.modify_ne_none]
        exact h.entries.total
      · simp only [hindex]
        exact h.entries.small
    · funext n
      by_cases hne : n = name
      · have hn' : ¬ (s.store c (.tree name)).named name = true := hn
        obtain ⟨x, hx⟩ := Option.ne_none_iff_exists'.mp hT
        rw [hne, update_self, Space.liveName, if_neg hn', TreeMap.modify, if_pos rfl, hx]
        rfl
      · rw [update_of_ne hne]
        refine Space.liveName_congr rfl rfl rfl (fun _ => rfl) ?_
        rw [TreeMap.modify, if_neg hne]

/-! ## Allocation in the table -/

theorem SpaceOk.lt_of_free (h : SpaceOk sizes s T fl) {i : ℕ} (hi : i ∈ fl) : i < 2 ^ 24 - 1 := by
  have h1 := ((h.entries.free i).mp hi).2.1
  have h2 := h.entries.size_le
  have h3 := h.entries.size_lt
  omega

theorem SpaceOk.allocSlot {pre post : List ℕ} {i k : ℕ} {t : Table} {x : Entry} {c : Contents}
    (h : SpaceOk sizes s T (pre ++ i :: post)) (hk : k = 0 ∨ k ∈ pre)
    (hlinked : IndexList.Linked (update (fun j => (s.isTable.entry j).ieRequest) k
      (s.isTable.entry i).ieRequest) 0 (pre ++ post))
    (hsize : t.size = s.isTable.size)
    (he : ∀ j, j ≠ i → t.entry j = if j = k then
      { s.isTable.entry j with ieRequest := (s.isTable.entry i).ieRequest }
      else s.isTable.entry j)
    (hi : t.entry i = x.store c) (hx : x.ieBits.collision = false) (hc : c.type ≠ PortType.none) :
    s.liveName T (machPortMake i x.ieBits.gen) = none ∧
    SpaceOk sizes { s with isTable := t } T (pre ++ post) ∧
    ({ s with isTable := t } : Space).liveName T =
      update (s.liveName T) (machPortMake i x.ieBits.gen) (some c) := by
  have hmem : i ∈ pre ++ i :: post := mem_append_right _ mem_cons_self
  obtain ⟨hpos, hlt, hnone⟩ := (h.entries.free i).mp hmem
  have hi24 := h.lt_of_free hmem
  have hidx : machPortIndex (machPortMake i x.ieBits.gen) = i := machPortIndex_make (by omega) _
  have hgen : machPortGen (machPortMake i x.ieBits.gen) = x.ieBits.gen := machPortGen_make (by omega) _
  have hfree : ∀ n, machPortIndex n = i → s.liveName T n = none := by
    intro n hni
    have hnamed : ¬ s.named n = true := by
      intro hn
      have := (Space.named_iff.mp hn).2.2.1
      rw [hni] at this
      exact this hnone
    have hT : T n = none := by
      by_contra hne
      exact h.entries.not_treeIndex hmem ⟨n, hne, hni⟩
    rw [Space.liveName, if_neg hnamed, hT]
    rfl
  have hkfree : (s.isTable.entry k).ieBits.type = PortType.none := by
    rcases hk with rfl | hk
    · exact h.entries.reserved.1
    · exact ((h.entries.free k).mp (mem_append_left _ hk)).2.2
  refine ⟨hfree _ hidx, ⟨h.next_pos, h.next_le, ?_, h.holds, ?_⟩, ?_⟩
  · rw [← h.size]
    exact hsize
  · have := h.entries.take hlinked he (by rw [hi]; exact hc) (by rw [hi]; exact hx)
    rw [← hsize] at this
    exact this
  · funext n
    by_cases hn : n = machPortMake i x.ieBits.gen
    · have hnamed : ({ s with isTable := t } : Space).named n = true := by
        apply Space.named_iff.mpr
        rw [hn, hidx, hgen]
        refine ⟨hpos, by rw [hsize]; exact hlt, ?_, ?_⟩
        · rw [hi]
          exact hc
        · rw [hi]
          rfl
      rw [Space.liveName, if_pos hnamed, hn, update_self, hidx, hi]
      rfl
    · rw [update_of_ne hn]
      by_cases hni : machPortIndex n = i
      · have hnamed : ¬ ({ s with isTable := t } : Space).named n = true := by
          intro hnamed
          have hg := (Space.named_iff.mp hnamed).2.2.2
          rw [hni, hi] at hg
          exact hn (machPort_ext (by rw [hni, hidx]) (by rw [hgen, ← hg]; rfl))
        have hT : T n = none := by
          by_contra hne
          exact h.entries.not_treeIndex hmem ⟨n, hne, hni⟩
        rw [hfree n hni, Space.liveName, if_neg hnamed, hT]
        rfl
      · refine Space.liveName_congr hsize ?_ ?_ ?_ rfl
        · rw [he _ hni]
          split <;> rfl
        · rw [he _ hni]
          split <;> rfl
        · intro hnamed
          rw [he _ hni, if_neg]
          rintro hk'
          have := (Space.named_iff.mp hnamed).2.2.1
          rw [hk'] at this
          exact this hkfree

/-- The entry that `ipc_entry_get` returns. -/
def Table.fresh (t : Table) (i : ℕ) : Entry :=
  { t.entry i with ieBits := Bits.ofGen ((t.entry i).ieBits.gen + 1), ieRequest := 0 }

/-- The table after `ipc_entry_get`. -/
def Table.got (t : Table) (i : ℕ) : Table :=
  (t.setEntry 0 { t.entry 0 with ieRequest := (t.entry i).ieRequest }).setEntry i (t.fresh i)

theorem SpaceOk.get (h : SpaceOk sizes s T fl) :
    (fl = [] ∧ ipcEntryGet s = some (s, none)) ∨
    ∃ i fl' name s', fl = i :: fl' ∧ ipcEntryGet s = some (s', some (name, i)) ∧
      s.liveName T name = none ∧ ∀ c : Contents, c.type ≠ PortType.none →
        SpaceOk sizes (s'.store c (.table i)) T fl' ∧
        (s'.store c (.table i)).liveName T = update (s.liveName T) name (some c) := by
  cases fl with
  | nil =>
    refine .inl ⟨rfl, ?_⟩
    unfold ipcEntryGet
    exact if_pos h.entries.linked
  | cons i fl' =>
    obtain ⟨hnext, hne, hlinked⟩ := h.entries.linked
    obtain ⟨hbits, hobj⟩ := h.entries.freeBits i mem_cons_self
    have hi24 := h.lt_of_free (mem_cons_self (a := i))
    have hvalid : machPortValid (machPortMake i ((s.isTable.entry i).ieBits.gen + 1)) = true := by
      have hval := machPortMake_val (by omega : i < 2 ^ 24) ((s.isTable.entry i).ieBits.gen + 1)
      have hg := ((s.isTable.entry i).ieBits.gen + 1).isLt
      simp only [machPortValid, decide_eq_true_eq, ne_eq, Fin.ext_iff, hval, machPortSmallest,
        machPortLargest]
      omega
    have hlinked' : IndexList.Linked (update (fun j => (s.isTable.entry j).ieRequest) 0
        (s.isTable.entry i).ieRequest) 0 ([] ++ fl') := by
      have hfl : IndexList.Linked (fun j => (s.isTable.entry j).ieRequest) 0 ([] ++ i :: fl') :=
        h.entries.linked
      obtain ⟨k, -, hk, hl⟩ := hfl.remove
        (nodup_cons.mpr ⟨h.entries.linked.not_mem_zero, h.entries.nodup⟩)
        (show List.length [] < 1 by simp)
      rcases hk with rfl | hk
      · exact hl
      · cases hk
    have hstore : ∀ c : Contents, ((s.isTable.got i).setEntry i
        (((s.isTable.got i).entry i).store c)).entry i = (s.isTable.fresh i).store c := by
      intro c
      simp [Table.got, Table.setEntry]
    have hother : ∀ c : Contents, ∀ j, j ≠ i → ((s.isTable.got i).setEntry i
        (((s.isTable.got i).entry i).store c)).entry j = if j = 0 then
          { s.isTable.entry j with ieRequest := (s.isTable.entry i).ieRequest }
          else s.isTable.entry j := by
      intro c j hj
      by_cases hj0 : j = 0
      · subst hj0
        simp [Table.got, Table.setEntry, update_of_ne hj]
      · simp [Table.got, Table.setEntry, update_of_ne hj, hj0]
    have hpre : SpaceOk sizes s T ([] ++ i :: fl') := h
    have halloc := fun c hc => hpre.allocSlot (.inl rfl) hlinked'
      (show ((s.isTable.got i).setEntry i (((s.isTable.got i).entry i).store c)).size = _ from rfl)
      (hother c) (hstore c) rfl hc
    refine .inr ⟨i, fl', machPortMake i ((s.isTable.entry i).ieBits.gen + 1),
      { s with isTable := s.isTable.got i }, rfl, ?_, ?_, fun c hc => (halloc c hc).2⟩
    · unfold ipcEntryGet
      simp only at hnext
      simp only [hnext, if_neg hne]
      rw [if_pos ⟨hbits, hvalid, hobj⟩]
      rfl
    · exact (halloc ⟨false, false, PortType.sendRight, 0, 0, 0⟩ (fun h => (by cases h))).1

theorem SpaceOk.takeFree (h : SpaceOk sizes s T fl) {name : MachPort}
    (hi : machPortIndex name ∈ fl) :
    ∃ t fl', takeFree s.isTable name = some t ∧ s.liveName T name = none ∧
      (t.entry (machPortIndex name)).ieBits.type = PortType.none ∧ t.size = s.isTable.size ∧
      ∀ c : Contents, c.type ≠ PortType.none →
        SpaceOk sizes (Space.store { s with isTable := t } c (.table (machPortIndex name))) T fl' ∧
        (Space.store { s with isTable := t } c (.table (machPortIndex name))).liveName T =
          update (s.liveName T) name (some c) := by
  obtain ⟨pre, post, rfl⟩ := append_of_mem hi
  have hobj := (h.entries.freeBits _ hi).2
  have hnodup := nodup_cons.mpr ⟨h.entries.linked.not_mem_zero, h.entries.nodup⟩
  have hlen : pre.length < s.isTable.size := by
    -- the elements of the free list are different numbers below the size
    have hsub : pre ++ machPortIndex name :: post ⊆ List.range s.isTable.size := fun j hj =>
      mem_range.mpr ((h.entries.free j).mp hj).2.1
    have := (h.entries.nodup.subperm hsub).length_le
    simp only [length_append, length_cons, length_range] at this
    omega
  obtain ⟨k, hbefore, hk, hlinked⟩ := IndexList.Linked.remove h.entries.linked hnodup hlen
  have hki : k ≠ machPortIndex name := by
    rintro rfl
    rcases hk with hk | hk
    · exact ((h.entries.free _).mp hi).1.ne' hk
    · exact (nodup_append.mp h.entries.nodup).2.2 _ hk _ mem_cons_self rfl
  let t := s.isTable.setEntry k
    { s.isTable.entry k with ieRequest := (s.isTable.entry (machPortIndex name)).ieRequest }
  have hti : t.entry (machPortIndex name) = s.isTable.entry (machPortIndex name) :=
    update_of_ne (Ne.symm hki) ..
  let x : Entry := { s.isTable.entry (machPortIndex name) with
    ieBits := Bits.ofGen (machPortGen name), ieRequest := 0 }
  have hname : machPortMake (machPortIndex name) x.ieBits.gen = name := machPortMake_index_gen name
  have hstore : ∀ c : Contents, ((t.setEntry (machPortIndex name) x).setEntry (machPortIndex name)
      (((t.setEntry (machPortIndex name) x).entry (machPortIndex name)).store c)).entry
        (machPortIndex name) = x.store c := by
    intro c
    simp [Table.setEntry]
  have hother : ∀ c : Contents, ∀ j, j ≠ machPortIndex name →
      ((t.setEntry (machPortIndex name) x).setEntry (machPortIndex name)
      (((t.setEntry (machPortIndex name) x).entry (machPortIndex name)).store c)).entry j =
        if j = k then { s.isTable.entry j with
          ieRequest := (s.isTable.entry (machPortIndex name)).ieRequest }
        else s.isTable.entry j := by
    intro c j hj
    by_cases hjk : j = k
    · subst hjk
      simp [t, Table.setEntry, update_of_ne hj]
    · simp [t, Table.setEntry, update_of_ne hj, hjk]
  have halloc := fun c hc => SpaceOk.allocSlot h hk hlinked (show ((t.setEntry (machPortIndex name)
    x).setEntry (machPortIndex name) (((t.setEntry (machPortIndex name) x).entry
      (machPortIndex name)).store c)).size = _ from rfl) (hother c) (hstore c) rfl hc
  rw [hname] at halloc
  refine ⟨t.setEntry (machPortIndex name) x, pre ++ post, ?_, ?_, ?_, rfl,
    fun c hc => (halloc c hc).2⟩
  · have hrun : freeBefore s.isTable (machPortIndex name) s.isTable.size 0 = some k := hbefore
    unfold Darwin.Ipc.takeFree
    simp only [hrun, Option.bind_some]
    change (if (t.entry (machPortIndex name)).ieObject = 0 then
      some (t.setEntry (machPortIndex name) { t.entry (machPortIndex name) with
        ieBits := Bits.ofGen (machPortGen name), ieRequest := 0 }) else none) = _
    rw [hti, if_pos hobj]
  · exact (halloc ⟨false, false, PortType.sendRight, 0, 0, 0⟩ (fun h => (by cases h))).1
  · simp [Table.setEntry, x, Bits.ofGen]

/-! ## Allocation in the tree -/

theorem Splay.Holds.find? {tree : Splay Entry} (h : tree.Holds T) (name : MachPort) :
    tree.find? name = T name := by
  unfold Splay.find?
  cases hf : tree.inorder.find? (fun p => p.1 = name) with
  | none =>
    have hnone := List.find?_eq_none.mp hf
    symm
    apply h.represents.eq_none
    intro p hp
    simpa using hnone p hp
  | some p =>
    have hmem := mem_of_find?_eq_some hf
    have hp := List.find?_some hf
    simp only [decide_eq_true_eq] at hp
    rw [← hp]
    exact ((h.represents.mem p.1 p.2).mp hmem).symm

theorem setCollision_contents (t : Table) (index : ℕ) (b : Bool) (i : ℕ) :
    ((t.setCollision index b).entry i).contents = (t.entry i).contents ∧
      ((t.setCollision index b).entry i).ieBits.gen = (t.entry i).ieBits.gen := by
  unfold Table.setCollision Table.setEntry
  by_cases hi : i = index
  · subst hi
    simp [Entry.contents]
  · simp [update_of_ne hi]

theorem TreeMap.modify_update (T : TreeMap) (name : MachPort) (x : Entry) (f : Entry → Entry) :
    TreeMap.modify (update T name (some x)) name f = update T name (some (f x)) := by
  funext n
  unfold TreeMap.modify
  by_cases hn : n = name
  · simp [hn]
  · simp [hn]

theorem EntriesOk.insertTree {size nsize : ℕ} {e e' : ℕ → Entry} {total small small' : ℕ} {b : Bool}
    {name : MachPort} {x : Entry} (h : EntriesOk size nsize e T fl total small)
    (hnot : machPortIndex name ∉ fl) (hT : T name = none) (hvalid : machPortValid name = true)
    (hslot : 0 < machPortIndex name → machPortIndex name < size →
      (e (machPortIndex name)).ieBits.gen ≠ machPortGen name)
    (hx : x.ieBits.gen = 0 ∧ x.ieBits.collision = false ∧ x.ieBits.type ≠ PortType.none)
    (he : e' = update e (machPortIndex name) { e (machPortIndex name) with
      ieBits := { (e (machPortIndex name)).ieBits with collision := b } })
    (hb : machPortIndex name < size → b = true)
    (hsmall : small' = Set.ncard {i | size ≤ i ∧ i < nsize ∧
      TreeIndex (update T name (some x)) i}) :
    EntriesOk size nsize e' (update T name (some x)) fl (total + 1) small' := by
  apply h.changeTree hnot he
  · intro hi
    exact ⟨fun _ => (treeIndex_update T name x _).mpr (.inr rfl), fun _ => hb hi⟩
  · intro n hn
    rw [update_of_ne]
    rintro rfl
    exact hn rfl
  · intro n hn hni hp hl
    by_cases hne : n = name
    · rw [hne]
      exact hslot hp hl
    · rw [update_of_ne hne] at hn
      rw [← hni]
      exact h.apart n hn (by rw [hni]; exact hp) (by rw [hni]; exact hl)
  · intro n y hn _
    by_cases hne : n = name
    · rw [hne, update_self] at hn
      cases hn
      rw [hne]
      exact ⟨hvalid, hx⟩
    · rw [update_of_ne hne] at hn
      exact h.tree n y hn
  · rw [h.total, ncard_update hT]
  · exact hsmall

theorem SpaceOk.insertTree {v : SpaceHash} (h : SpaceOk sizes v.space T fl) {name : MachPort}
    (hvalid : machPortValid name = true) (hT : T name = none)
    (hslot : 0 < machPortIndex name → machPortIndex name < v.space.isTable.size →
      (v.space.isTable.entry (machPortIndex name)).ieBits.type ≠ PortType.none ∧
      (v.space.isTable.entry (machPortIndex name)).ieBits.gen ≠ machPortGen name) :
    ∃ v', insertTreeEntry sizes v name = some v' ∧ v.space.liveName T name = none ∧
      v'.global = v.global ∧ v'.space.isTree.find? name = some Entry.zero ∧
      ∀ c : Contents, c.type ≠ PortType.none →
        SpaceOk sizes (v'.space.store c (.tree name))
          (update T name (some (Entry.zero.store c))) fl ∧
        (v'.space.store c (.tree name)).liveName
            (update T name (some (Entry.zero.store c))) =
          update (v.space.liveName T) name (some c) := by
  have hnamed : ¬ v.space.named name = true := by
    intro hn
    obtain ⟨hp, hl, -, hg⟩ := Space.named_iff.mp hn
    exact (hslot hp hl).2 hg
  have hlive : v.space.liveName T name = none := by
    rw [Space.liveName, if_neg hnamed, hT]
    rfl
  have hnot : machPortIndex name ∉ fl := by
    intro hi
    obtain ⟨hp, hl, hnone⟩ := (h.entries.free _).mp hi
    exact (hslot hp hl).1 hnone
  have hfresh : ∀ c : Contents, c.type ≠ PortType.none → (Entry.zero.store c).ieBits.gen = 0 ∧
      (Entry.zero.store c).ieBits.collision = false ∧
      (Entry.zero.store c).ieBits.type ≠ PortType.none := fun c hc => ⟨rfl, rfl, hc⟩
  -- the names after the insertion: only the collision bit of the slot has changed
  have hnames : ∀ (s' : Space) (c : Contents), s'.isTable.size = v.space.isTable.size →
      (∀ i, (s'.isTable.entry i).contents = (v.space.isTable.entry i).contents ∧
        (s'.isTable.entry i).ieBits.gen = (v.space.isTable.entry i).ieBits.gen) →
      s'.liveName (update T name (some (Entry.zero.store c))) =
        update (v.space.liveName T) name (some c) := by
    intro s' c hsize hentry
    have htype : ∀ i, (s'.isTable.entry i).ieBits.type = (v.space.isTable.entry i).ieBits.type :=
      fun i => congrArg Contents.type (hentry i).1
    funext n
    by_cases hn : n = name
    · have hnamed' : ¬ s'.named name = true := by
        unfold Space.named at hnamed ⊢
        rwa [hsize, htype, (hentry _).2]
      rw [hn, update_self, Space.liveName, if_neg hnamed', update_self]
      rfl
    · rw [update_of_ne hn]
      refine Space.liveName_congr hsize (htype _) (hentry _).2 (fun _ => (hentry _).1) ?_
      rw [update_of_ne hn]
  by_cases hlt : machPortIndex name < v.space.isTable.size
  · obtain ⟨tree, hrun, hholds⟩ := h.holds.insert hT Entry.zero
    refine ⟨⟨{ v.space with isTreeTotal := v.space.isTreeTotal + 1,
                            isTable := v.space.isTable.setCollision (machPortIndex name) true,
                            isTree := tree }, v.global⟩, ?_, hlive, rfl, ?_, ?_⟩
    · simp only [insertTreeEntry, hlt, if_true, Option.bind_some, hrun, Option.map_some]
    · change tree.find? name = _
      rw [hholds.find?, update_self]
    · intro c hc
      refine ⟨⟨h.next_pos, h.next_le, h.size, ?_, ?_⟩, ?_⟩
      · rw [← TreeMap.modify_update]
        exact hholds.modify name (Entry.store c)
      · apply h.entries.insertTree (b := true) hnot hT hvalid (fun hp hl => (hslot hp hl).2)
          (hfresh c hc) rfl (fun _ => rfl)
        change v.space.isTreeSmall = _
        rw [h.entries.small]
        symm
        apply small_same (i := machPortIndex name)
        · intro j hj
          rw [treeIndex_update]
          simp [hj]
        · intro hs _
          exact absurd hlt (Nat.not_lt.mpr hs)
      · refine hnames _ c ?_ ?_
        · rfl
        · exact setCollision_contents v.space.isTable (machPortIndex name) true
  · have hself : ∀ e : ℕ → Entry, e = update e (machPortIndex name)
        { e (machPortIndex name) with ieBits := { (e (machPortIndex name)).ieBits with
          collision := (e (machPortIndex name)).ieBits.collision } } :=
      fun e => (update_eq_self _ _).symm
    by_cases hnext : machPortIndex name < sizes.its v.space.isTableNext
    · obtain ⟨tree₁, collides, hcol, hholds₁, hcollides⟩ :=
        ipcEntryTreeCollision_spec h.holds h.valid name
      obtain ⟨tree, hrun, hholds⟩ := hholds₁.insert hT Entry.zero
      refine ⟨⟨{ v.space with isTreeTotal := v.space.isTreeTotal + 1, isTree := tree,
                              isTreeSmall := if collides then v.space.isTreeSmall
                                else v.space.isTreeSmall + 1 }, v.global⟩, ?_, hlive, rfl, ?_, ?_⟩
      · simp only [insertTreeEntry, hlt, if_false, hnext, if_true, hcol, Option.map_some,
          Option.bind_some, hrun]
      · change tree.find? name = _
        rw [hholds.find?, update_self]
      · intro c hc
        refine ⟨⟨h.next_pos, h.next_le, h.size, ?_, ?_⟩, ?_⟩
        · rw [← TreeMap.modify_update]
          exact hholds.modify name (Entry.store c)
        · apply h.entries.insertTree hnot hT hvalid (fun hp hl => (hslot hp hl).2)
            (hfresh c hc) (hself _) (fun hl => absurd hl hlt)
          change (if collides then v.space.isTreeSmall else v.space.isTreeSmall + 1) = _
          rw [h.entries.small]
          cases hb : collides with
          | true =>
            have hindex := hcollides.mp hb
            symm
            apply small_same (i := machPortIndex name)
            · intro j hj
              rw [treeIndex_update]
              simp [hj]
            · intro _ _
              rw [treeIndex_update]
              simp [hindex]
          | false =>
            have hindex : ¬ TreeIndex T (machPortIndex name) := by
              rw [← hcollides, hb]
              exact fun h => (by cases h)
            symm
            apply small_succ (i := machPortIndex name) _ (Nat.le_of_not_lt hlt) hnext hindex
            · exact (treeIndex_update T name _ _).mpr (.inr rfl)
            · intro j hj
              rw [treeIndex_update]
              simp [hj]
        · exact hnames _ c rfl fun i => ⟨rfl, rfl⟩
    · obtain ⟨tree, hrun, hholds⟩ := h.holds.insert hT Entry.zero
      refine ⟨⟨{ v.space with isTreeTotal := v.space.isTreeTotal + 1, isTree := tree }, v.global⟩,
        ?_, hlive, rfl, ?_, ?_⟩
      · simp only [insertTreeEntry, hlt, if_false, hnext, Option.bind_some, hrun, Option.map_some]
      · change tree.find? name = _
        rw [hholds.find?, update_self]
      · intro c hc
        refine ⟨⟨h.next_pos, h.next_le, h.size, ?_, ?_⟩, ?_⟩
        · rw [← TreeMap.modify_update]
          exact hholds.modify name (Entry.store c)
        · apply h.entries.insertTree hnot hT hvalid (fun hp hl => (hslot hp hl).2)
            (hfresh c hc) (hself _) (fun hl => absurd hl hlt)
          change v.space.isTreeSmall = _
          rw [h.entries.small]
          symm
          apply small_same (i := machPortIndex name)
          · intro j hj
            rw [treeIndex_update]
            simp [hj]
          · intro _ hn
            exact absurd hn hnext
        · exact hnames _ c rfl fun i => ⟨rfl, rfl⟩

/-! ## Deallocation in the tree -/

theorem EntriesOk.deleteTree {size nsize : ℕ} {e e' : ℕ → Entry} {total small small' : ℕ} {b : Bool}
    {name : MachPort} (h : EntriesOk size nsize e T fl total small) (hT : T name ≠ none)
    (he : e' = update e (machPortIndex name) { e (machPortIndex name) with
      ieBits := { (e (machPortIndex name)).ieBits with collision := b } })
    (hb : machPortIndex name < size →
      (b = true ↔ TreeIndex (update T name none) (machPortIndex name)))
    (hsmall : small' = Set.ncard {i | size ≤ i ∧ i < nsize ∧
      TreeIndex (update T name none) i}) :
    EntriesOk size nsize e' (update T name none) fl (total - 1) small' := by
  apply h.changeTree (fun hi => h.not_treeIndex hi ⟨name, hT, rfl⟩) he hb
  · intro n hn
    rw [update_of_ne]
    rintro rfl
    exact hn rfl
  · intro n hn hni hp hl
    by_cases hne : n = name
    · rw [hne, update_self] at hn
      exact absurd rfl hn
    · rw [update_of_ne hne] at hn
      rw [← hni]
      exact h.apart n hn (by rw [hni]; exact hp) (by rw [hni]; exact hl)
  · intro n y hn _
    by_cases hne : n = name
    · rw [hne, update_self] at hn
      cases hn
    · rw [update_of_ne hne] at hn
      exact h.tree n y hn
  · rw [h.total, ncard_delete hT]
  · exact hsmall

theorem SpaceOk.deallocTree (h : SpaceOk sizes s T fl) {name : MachPort} {x : Entry}
    (hT : T name = some x) (hobj : x.ieObject = 0) (hreq : x.ieRequest = 0) :
    ∃ s', deallocTree sizes s name = some s' ∧ SpaceOk sizes s' (update T name none) fl ∧
      s'.liveName (update T name none) = update (s.liveName T) name none := by
  have hne : T name ≠ none := by
    rw [hT]
    exact fun h => (by cases h)
  have hnamed : ¬ s.named name = true := fun hn => hne (h.tree_none_of_named hn)
  have htotal : s.isTreeTotal ≠ 0 := (h.total_pos hne).ne'
  obtain ⟨tree, hrun, hholds⟩ := h.holds.delete hT
  have hvalid : ∀ n y, update T name none n = some y → machPortValid n = true := by
    intro n y hn
    by_cases hnn : n = name
    · rw [hnn, update_self] at hn
      cases hn
    · rw [update_of_ne hnn] at hn
      exact h.valid n y hn
  obtain ⟨tree', collides, hcol, hholds', hcollides⟩ :=
    ipcEntryTreeCollision_spec hholds hvalid name
  have hnames : ∀ s' : Space, s'.isTable.size = s.isTable.size →
      (∀ i, (s'.isTable.entry i).contents = (s.isTable.entry i).contents ∧
        (s'.isTable.entry i).ieBits.gen = (s.isTable.entry i).ieBits.gen) →
      s'.liveName (update T name none) = update (s.liveName T) name none := by
    intro s' hsize hentry
    have htype : ∀ i, (s'.isTable.entry i).ieBits.type = (s.isTable.entry i).ieBits.type :=
      fun i => congrArg Contents.type (hentry i).1
    funext n
    by_cases hn : n = name
    · have hnamed' : ¬ s'.named name = true := by
        unfold Space.named at hnamed ⊢
        rwa [hsize, htype, (hentry _).2]
      rw [hn, update_self, Space.liveName, if_neg hnamed', update_self]
      rfl
    · rw [update_of_ne hn]
      refine Space.liveName_congr hsize (htype _) (hentry _).2 (fun _ => (hentry _).1) ?_
      rw [update_of_ne hn]
  have hself : ∀ e : ℕ → Entry, e = update e (machPortIndex name)
      { e (machPortIndex name) with ieBits := { (e (machPortIndex name)).ieBits with
        collision := (e (machPortIndex name)).ieBits.collision } } :=
    fun e => (update_eq_self _ _).symm
  unfold Darwin.Ipc.deallocTree
  simp only [h.holds.find?, hT, Option.bind_some, hobj, hreq, ne_eq, not_true, or_self, if_false,
    hrun, htotal, hcol]
  by_cases hlt : machPortIndex name < s.isTable.size
  · have hc := (h.entries.collision _ hlt).mpr ⟨name, hne, rfl⟩
    simp only [hlt, if_true, hc, Option.map_some]
    refine ⟨_, rfl, ⟨h.next_pos, h.next_le, ?_, hholds', ?_⟩, ?_⟩
    · cases collides <;> exact h.size
    · have hsmall : s.isTreeSmall = Set.ncard {i | s.isTable.size ≤ i ∧
          i < sizes.its s.isTableNext ∧ TreeIndex (update T name none) i} := by
        rw [h.entries.small]
        symm
        apply small_same (i := machPortIndex name)
        · intro j hj
          exact treeIndex_delete_of_ne hj
        · intro hs _
          exact absurd hlt (Nat.not_lt.mpr hs)
      cases hb : collides with
      | true =>
        have hsame := hself s.isTable.entry
        rw [hc] at hsame
        exact h.entries.deleteTree (b := true) hne hsame (fun _ => by rw [← hcollides, hb]) hsmall
      | false =>
        exact h.entries.deleteTree (b := false) hne rfl (fun _ => by rw [← hcollides, hb]) hsmall
    · apply hnames
      · cases collides <;> rfl
      · intro i
        cases collides with
        | true => exact ⟨rfl, rfl⟩
        | false => exact setCollision_contents _ _ _ i
  · by_cases hnext : machPortIndex name < sizes.its s.isTableNext
    · simp only [hlt, if_false, hnext, if_true]
      cases hb : collides with
      | true =>
        simp only [if_true]
        refine ⟨_, rfl, ⟨h.next_pos, h.next_le, h.size, hholds', ?_⟩, hnames _ rfl fun i => ⟨rfl, rfl⟩⟩
        apply h.entries.deleteTree hne (hself _) (fun hl => absurd hl hlt)
        change s.isTreeSmall = _
        rw [h.entries.small]
        symm
        apply small_same (i := machPortIndex name)
        · intro j hj
          exact treeIndex_delete_of_ne hj
        · intro _ _
          have := hcollides.mp hb
          exact ⟨fun _ => ⟨name, hne, rfl⟩, fun _ => this⟩
      | false =>
        have hindex : ¬ TreeIndex (update T name none) (machPortIndex name) := by
          rw [← hcollides, hb]
          exact fun h => (by cases h)
        have hthere : TreeIndex T (machPortIndex name) := ⟨name, hne, rfl⟩
        have hsucc := small_succ (fun j hj => (treeIndex_delete_of_ne hj).symm)
          (Nat.le_of_not_lt hlt) hnext hindex hthere
        have hsmall := h.entries.small
        rw [hsucc] at hsmall
        have hpos : s.isTreeSmall ≠ 0 := by omega
        simp only [Bool.false_eq_true, if_false, hpos]
        refine ⟨_, rfl, ⟨h.next_pos, h.next_le, h.size, hholds', ?_⟩, hnames _ rfl fun i => ⟨rfl, rfl⟩⟩
        apply h.entries.deleteTree hne (hself _) (fun hl => absurd hl hlt)
        change s.isTreeSmall - 1 = _
        omega
    · simp only [hlt, if_false, hnext]
      refine ⟨_, rfl, ⟨h.next_pos, h.next_le, h.size, hholds, ?_⟩, hnames _ rfl fun i => ⟨rfl, rfl⟩⟩
      apply h.entries.deleteTree hne (hself _) (fun hl => absurd hl hlt)
      change s.isTreeSmall = _
      rw [h.entries.small]
      symm
      apply small_same (i := machPortIndex name)
      · intro j hj
        exact treeIndex_delete_of_ne hj
      · intro _ hn
        exact absurd hn hnext

end space

end Darwin.Ipc
