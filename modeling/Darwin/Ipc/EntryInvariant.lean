import Darwin.Ipc.Entry

/-! # What holds of the entries of a space

The names of the table and those of the tree, the free list, the collision bits and the
counters, and what each operation does to them.
-/
namespace Darwin.Ipc
open Darwin.Lib Darwin.Lib.SearchTree Function List

/-! ## Names -/

theorem machPortIndex_lt (name : MachPort) : machPortIndex name < 2 ^ 24 := by
  unfold machPortIndex
  omega

theorem machPortMake_val {i : ℕ} (hi : i < 2 ^ 24) (g : BitVec 8) :
    (machPortMake i g).val = i * 256 + g.toNat := by
  have hg := g.isLt
  unfold machPortMake
  rw [Fin.val_ofNat]
  exact Nat.mod_eq_of_lt (by omega)

theorem machPortIndex_make {i : ℕ} (hi : i < 2 ^ 24) (g : BitVec 8) :
    machPortIndex (machPortMake i g) = i := by
  have hg := g.isLt
  unfold machPortIndex
  rw [machPortMake_val hi]
  omega

theorem machPortGen_make {i : ℕ} (hi : i < 2 ^ 24) (g : BitVec 8) :
    machPortGen (machPortMake i g) = g := by
  have hg := g.isLt
  unfold machPortGen
  rw [machPortMake_val hi]
  apply BitVec.eq_of_toNat_eq
  rw [BitVec.toNat_ofNat]
  omega

theorem machPortMake_index_gen (name : MachPort) :
    machPortMake (machPortIndex name) (machPortGen name) = name := by
  apply Fin.ext
  rw [machPortMake_val (machPortIndex_lt name)]
  unfold machPortIndex machPortGen
  rw [BitVec.toNat_ofNat]
  omega

theorem machPort_ext {name name' : MachPort} (hi : machPortIndex name = machPortIndex name')
    (hg : machPortGen name = machPortGen name') : name = name' := by
  rw [← machPortMake_index_gen name, ← machPortMake_index_gen name', hi, hg]

theorem lt_machPortMake_zero {i : ℕ} (hi : i < 2 ^ 24) (name : MachPort) :
    name < machPortMake i 0 ↔ machPortIndex name < i := by
  rw [Fin.lt_def, machPortMake_val hi]
  unfold machPortIndex
  rw [show (0 : BitVec 8).toNat = 0 from rfl]
  omega

theorem machPortIndex_mono {name name' : MachPort} (h : name ≤ name') :
    machPortIndex name ≤ machPortIndex name' :=
  Nat.div_le_div_right (Fin.le_def.mp h)

/-! ## The invariant -/

abbrev TreeMap := MachPort → Option Entry

/-- The tree has a name with the index. -/
def TreeIndex (T : TreeMap) (i : ℕ) : Prop := ∃ n, T n ≠ none ∧ machPortIndex n = i

/-- The slots `e` of a table of `size` entries that may grow to `nsize`, the tree entries `T`
and the free list `fl` are in order, and `total` and `small` are the counters of the tree. -/
structure EntriesOk (size nsize : ℕ) (e : ℕ → Entry) (T : TreeMap) (fl : List ℕ)
    (total small : ℕ) : Prop where
  size_pos : 0 < size
  size_le : size ≤ nsize
  size_lt : nsize < 2 ^ 24
  reserved : (e 0).ieBits.type = PortType.none ∧ (e 0).ieBits.gen = 255
  linked : IndexList.Linked (fun i => (e i).ieRequest) 0 fl
  nodup : fl.Nodup
  free : ∀ i, i ∈ fl ↔ 0 < i ∧ i < size ∧ (e i).ieBits.type = PortType.none
  freeBits : ∀ i ∈ fl, (e i).ieBits = Bits.ofGen (e i).ieBits.gen ∧ (e i).ieObject = 0
  collision : ∀ i < size, (e i).ieBits.collision = true ↔ TreeIndex T i
  apart : ∀ n, T n ≠ none → 0 < machPortIndex n → machPortIndex n < size →
    (e (machPortIndex n)).ieBits.gen ≠ machPortGen n
  tree : ∀ n x, T n = some x → machPortValid n = true ∧ x.ieBits.gen = 0 ∧
    x.ieBits.collision = false ∧ x.ieBits.type ≠ PortType.none
  total : total = Set.ncard {n | T n ≠ none}
  small : small = Set.ncard {i | size ≤ i ∧ i < nsize ∧ TreeIndex T i}

section change
variable {size nsize : ℕ} {e e' : ℕ → Entry} {T T' : TreeMap} {fl fl' : List ℕ}
  {total small total' small' : ℕ}

theorem EntriesOk.not_treeIndex (h : EntriesOk size nsize e T fl total small) {i : ℕ}
    (hi : i ∈ fl) : ¬ TreeIndex T i := by
  intro ht
  have hc := (h.collision i ((h.free i).mp hi).2.1).mpr ht
  rw [(h.freeBits i hi).1] at hc
  cases hc

theorem EntriesOk.changeAt (h : EntriesOk size nsize e T fl total small) (i : ℕ)
    (hbits : ∀ j, j ≠ i → (e' j).ieBits = (e j).ieBits)
    (hobj : ∀ j, j ≠ i → (e' j).ieObject = (e j).ieObject)
    (hT : ∀ n, machPortIndex n ≠ i → T' n = T n)
    (hreserved : i = 0 → (e' 0).ieBits.type = PortType.none ∧ (e' 0).ieBits.gen = 255)
    (hlinked : IndexList.Linked (fun i => (e' i).ieRequest) 0 fl') (hnodup : fl'.Nodup)
    (hmem : ∀ j, j ∈ fl' ↔ (j ≠ i ∧ j ∈ fl) ∨
      (j = i ∧ 0 < i ∧ i < size ∧ (e' i).ieBits.type = PortType.none))
    (hfree : i ∈ fl' → (e' i).ieBits = Bits.ofGen (e' i).ieBits.gen ∧ (e' i).ieObject = 0)
    (hcollision : i < size → ((e' i).ieBits.collision = true ↔ TreeIndex T' i))
    (hapart : ∀ n, T' n ≠ none → machPortIndex n = i → 0 < i → i < size →
      (e' i).ieBits.gen ≠ machPortGen n)
    (htree : ∀ n x, T' n = some x → machPortIndex n = i → machPortValid n = true ∧
      x.ieBits.gen = 0 ∧ x.ieBits.collision = false ∧ x.ieBits.type ≠ PortType.none)
    (htotal : total' = Set.ncard {n | T' n ≠ none})
    (hsmall : small' = Set.ncard {i | size ≤ i ∧ i < nsize ∧ TreeIndex T' i}) :
    EntriesOk size nsize e' T' fl' total' small' := by
  have hindex : ∀ j, j ≠ i → (TreeIndex T' j ↔ TreeIndex T j) := by
    intro j hj
    constructor
    · rintro ⟨n, hn, hnj⟩
      exact ⟨n, by rwa [← hT n (by rw [hnj]; exact hj)], hnj⟩
    · rintro ⟨n, hn, hnj⟩
      exact ⟨n, by rwa [hT n (by rw [hnj]; exact hj)], hnj⟩
  refine ⟨h.size_pos, h.size_le, h.size_lt, ?_, hlinked, hnodup, ?_, ?_, ?_, ?_, ?_, htotal, hsmall⟩
  · by_cases hi : i = 0
    · exact hreserved hi
    · rw [hbits 0 (Ne.symm hi)]
      exact h.reserved
  · intro j
    rw [hmem]
    by_cases hj : j = i
    · simp only [hj, ne_eq, not_true, false_and, true_and, false_or]
    · rw [hbits j hj]
      simp only [hj, ne_eq, not_false_eq_true, true_and, false_and, or_false]
      exact h.free j
  · intro j hjf
    by_cases hj : j = i
    · rw [hj] at hjf ⊢
      exact hfree hjf
    · rw [hbits j hj, hobj j hj]
      rcases (hmem j).mp hjf with ⟨-, hfl⟩ | ⟨hji, -⟩
      · exact h.freeBits j hfl
      · exact absurd hji hj
  · intro j hjs
    by_cases hj : j = i
    · rw [hj] at hjs ⊢
      exact hcollision hjs
    · rw [hbits j hj, hindex j hj]
      exact h.collision j hjs
  · intro n hn hpos hlt
    by_cases hj : machPortIndex n = i
    · rw [hj] at hpos hlt ⊢
      exact hapart n hn hj hpos hlt
    · rw [hbits _ hj]
      exact h.apart n (by rwa [← hT n hj]) hpos hlt
  · intro n x hn
    by_cases hj : machPortIndex n = i
    · exact htree n x hn hj
    · rw [hT n hj] at hn
      exact h.tree n x hn

end change

/-! ## The counters -/

theorem treeIndex_update (T : TreeMap) (n : MachPort) (x : Entry) (i : ℕ) :
    TreeIndex (update T n (some x)) i ↔ TreeIndex T i ∨ i = machPortIndex n := by
  constructor
  · rintro ⟨k, hk, hki⟩
    by_cases hkn : k = n
    · exact .inr (by rw [← hki, hkn])
    · rw [update_of_ne hkn] at hk
      exact .inl ⟨k, hk, hki⟩
  · rintro (⟨k, hk, hki⟩ | hi)
    · refine ⟨k, ?_, hki⟩
      by_cases hkn : k = n
      · rw [hkn, update_self]
        exact fun h => (by cases h)
      · rwa [update_of_ne hkn]
    · exact ⟨n, by rw [update_self]; exact fun h => (by cases h), hi.symm⟩

theorem treeIndex_of_delete {T : TreeMap} {n : MachPort} {i : ℕ}
    (h : TreeIndex (update T n none) i) : TreeIndex T i := by
  obtain ⟨k, hk, hki⟩ := h
  by_cases hkn : k = n
  · rw [hkn, update_self] at hk
    exact absurd rfl hk
  · rw [update_of_ne hkn] at hk
    exact ⟨k, hk, hki⟩

theorem treeIndex_delete_of_ne {T : TreeMap} {n : MachPort} {i : ℕ} (hi : i ≠ machPortIndex n) :
    TreeIndex (update T n none) i ↔ TreeIndex T i := by
  refine ⟨treeIndex_of_delete, ?_⟩
  rintro ⟨k, hk, hki⟩
  refine ⟨k, ?_, hki⟩
  rw [update_of_ne]
  · exact hk
  · rintro rfl
    exact hi hki.symm

theorem ncard_update {T : TreeMap} {n : MachPort} (hn : T n = none) (x : Entry) :
    Set.ncard {k | update T n (some x) k ≠ none} = Set.ncard {k | T k ≠ none} + 1 := by
  have hset : {k | update T n (some x) k ≠ none} = insert n {k | T k ≠ none} := by
    ext k
    by_cases hk : k = n
    · simp [hk]
    · simp [hk]
  rw [hset, Set.ncard_insert_of_notMem]
  simp [hn]

theorem ncard_delete {T : TreeMap} {n : MachPort} (hn : T n ≠ none) :
    Set.ncard {k | update T n none k ≠ none} = Set.ncard {k | T k ≠ none} - 1 := by
  have hset : {k | update T n none k ≠ none} = {k | T k ≠ none} \ {n} := by
    ext k
    by_cases hk : k = n
    · simp [hk]
    · simp [hk]
  rw [hset]
  exact Set.ncard_sdiff_singleton_of_mem hn

section small
variable {size nsize i : ℕ} {T T' : TreeMap}

theorem small_finite (size nsize : ℕ) (T : TreeMap) :
    {j | size ≤ j ∧ j < nsize ∧ TreeIndex T j}.Finite :=
  (Set.finite_Ico size nsize).subset fun _ h => ⟨h.1, h.2.1⟩

theorem small_same (h : ∀ j, j ≠ i → (TreeIndex T' j ↔ TreeIndex T j))
    (hi : size ≤ i → i < nsize → (TreeIndex T' i ↔ TreeIndex T i)) :
    Set.ncard {j | size ≤ j ∧ j < nsize ∧ TreeIndex T' j} =
      Set.ncard {j | size ≤ j ∧ j < nsize ∧ TreeIndex T j} := by
  congr 1
  ext j
  by_cases hj : j = i
  · subst hj
    constructor
    · rintro ⟨h1, h2, h3⟩
      exact ⟨h1, h2, (hi h1 h2).mp h3⟩
    · rintro ⟨h1, h2, h3⟩
      exact ⟨h1, h2, (hi h1 h2).mpr h3⟩
  · simp only [Set.mem_ofPred_eq, h j hj]

theorem small_succ (h : ∀ j, j ≠ i → (TreeIndex T' j ↔ TreeIndex T j)) (hs : size ≤ i)
    (hn : i < nsize) (hi : ¬ TreeIndex T i) (hi' : TreeIndex T' i) :
    Set.ncard {j | size ≤ j ∧ j < nsize ∧ TreeIndex T' j} =
      Set.ncard {j | size ≤ j ∧ j < nsize ∧ TreeIndex T j} + 1 := by
  have hset : {j | size ≤ j ∧ j < nsize ∧ TreeIndex T' j} =
      insert i {j | size ≤ j ∧ j < nsize ∧ TreeIndex T j} := by
    ext j
    by_cases hj : j = i
    · simp [hj, hs, hn, hi']
    · simp [hj, h j hj]
  rw [hset, Set.ncard_insert_of_notMem _ (small_finite size nsize T)]
  exact fun hmem => hi hmem.2.2

end small

/-! ## What the operations change -/

section operations
variable {size nsize : ℕ} {e e' : ℕ → Entry} {T : TreeMap} {fl pre post : List ℕ}
  {total small : ℕ}

theorem EntriesOk.not_mem_of_used (h : EntriesOk size nsize e T fl total small) {i : ℕ}
    (hused : (e i).ieBits.type ≠ PortType.none) : i ∉ fl :=
  fun hi => hused ((h.free i).mp hi).2.2

theorem EntriesOk.pos_of_used (h : EntriesOk size nsize e T fl total small) {i : ℕ}
    (hused : (e i).ieBits.type ≠ PortType.none) : 0 < i := by
  apply Nat.pos_of_ne_zero
  rintro rfl
  exact hused h.reserved.1

theorem EntriesOk.take {i k : ℕ} (h : EntriesOk size nsize e T (pre ++ i :: post) total small)
    (hlinked : IndexList.Linked (update (fun j => (e j).ieRequest) k (e i).ieRequest) 0
      (pre ++ post))
    (he : ∀ j, j ≠ i → e' j = if j = k then { e j with ieRequest := (e i).ieRequest } else e j)
    (hused : (e' i).ieBits.type ≠ PortType.none) (hcollision : (e' i).ieBits.collision = false) :
    EntriesOk size nsize e' T (pre ++ post) total small := by
  have hi : i ∈ pre ++ i :: post := mem_append_right _ mem_cons_self
  obtain ⟨hpos, hlt, -⟩ := (h.free i).mp hi
  have hnot : i ∉ pre ++ post := (nodup_middle.mp h.nodup |> nodup_cons.mp).1
  refine h.changeAt i ?_ ?_ (fun _ _ => rfl) (fun h0 => absurd h0 hpos.ne') ?_
    (nodup_middle.mp h.nodup |> nodup_cons.mp).2 ?_ (fun hm => absurd hm hnot) ?_ ?_
    (fun n x hn _ => h.tree n x hn) h.total h.small
  · intro j hj
    rw [he j hj]
    split <;> rfl
  · intro j hj
    rw [he j hj]
    split <;> rfl
  · apply hlinked.congr
    intro j hj
    have hji : j ≠ i := by
      rintro rfl
      rcases hj with hj | hj
      · exact hpos.ne' hj
      · exact hnot hj
    rw [he j hji]
    by_cases hjk : j = k
    · rw [if_pos hjk, hjk, update_self]
    · rw [if_neg hjk, update_of_ne hjk]
  · intro j
    constructor
    · intro hj
      refine .inl ⟨?_, ?_⟩
      · rintro rfl
        exact hnot hj
      · rcases mem_append.mp hj with hj | hj
        · exact mem_append_left _ hj
        · exact mem_append_right _ (mem_cons_of_mem _ hj)
    · rintro (⟨hji, hj⟩ | ⟨-, -, -, hnone⟩)
      · rcases mem_append.mp hj with hj | hj
        · exact mem_append_left _ hj
        · rcases mem_cons.mp hj with hj | hj
          · exact absurd hj hji
          · exact mem_append_right _ hj
      · exact absurd hnone hused
  · intro _
    rw [hcollision]
    exact ⟨fun h => (by cases h), fun ht => absurd ht (h.not_treeIndex hi)⟩
  · intro n hn hni _ _
    exact absurd ⟨n, hn, hni⟩ (h.not_treeIndex hi)

theorem EntriesOk.release {i : ℕ} (h : EntriesOk size nsize e T fl total small)
    (hused : (e i).ieBits.type ≠ PortType.none) (hi : i < size) (hc : ¬ TreeIndex T i)
    (hother : ∀ j, j ≠ i → j ≠ 0 → e' j = e j)
    (hzero : e' 0 = { e 0 with ieRequest := i })
    (hbits : (e' i).ieBits = Bits.ofGen (e i).ieBits.gen) (hobj : (e' i).ieObject = 0)
    (hnext : (e' i).ieRequest = (e 0).ieRequest) :
    EntriesOk size nsize e' T (i :: fl) total small := by
  have hpos := h.pos_of_used hused
  have hnot := h.not_mem_of_used hused
  have hother' : ∀ j, j ≠ i → (e' j).ieBits = (e j).ieBits ∧ (e' j).ieObject = (e j).ieObject := by
    intro j hj
    by_cases hj0 : j = 0
    · rw [hj0, hzero]
      exact ⟨rfl, rfl⟩
    · rw [hother j hj hj0]
      exact ⟨rfl, rfl⟩
  refine h.changeAt i (fun j hj => (hother' j hj).1) (fun j hj => (hother' j hj).2)
    (fun _ _ => rfl) (fun h0 => absurd h0 hpos.ne') ?_ (nodup_cons.mpr ⟨hnot, h.nodup⟩) ?_
    (fun _ => ⟨by rw [hbits]; rfl, hobj⟩) ?_ ?_ (fun n x hn _ => h.tree n x hn) h.total h.small
  · apply (h.linked.push hpos.ne' hpos.ne' hnot h.linked.not_mem_zero).congr
    intro j _
    by_cases hj0 : j = 0
    · rw [hj0, update_self, hzero]
    · rw [update_of_ne hj0]
      by_cases hji : j = i
      · rw [hji, update_self]
        exact hnext
      · rw [update_of_ne hji, hother j hji hj0]
  · intro j
    rw [mem_cons]
    constructor
    · rintro (rfl | hj)
      · exact .inr ⟨rfl, hpos, hi, by rw [hbits]; rfl⟩
      · refine .inl ⟨?_, hj⟩
        rintro rfl
        exact hnot hj
    · rintro (⟨-, hj⟩ | ⟨hj, -⟩)
      · exact .inr hj
      · exact .inl hj
  · intro _
    rw [hbits]
    exact ⟨fun h => (by cases h), fun ht => absurd ht hc⟩
  · intro n hn hni _ _
    exact absurd ⟨n, hn, hni⟩ hc

theorem EntriesOk.storeSlot {i : ℕ} (h : EntriesOk size nsize e T fl total small)
    (hused : (e i).ieBits.type ≠ PortType.none) (x : Entry) (hx : x.ieBits.type ≠ PortType.none)
    (hgen : x.ieBits.gen = (e i).ieBits.gen) (hc : x.ieBits.collision = (e i).ieBits.collision) :
    EntriesOk size nsize (update e i x) T fl total small := by
  have hpos := h.pos_of_used hused
  have hnot := h.not_mem_of_used hused
  refine h.changeAt i (fun j hj => by rw [update_of_ne hj])
    (fun j hj => by rw [update_of_ne hj]) (fun _ _ => rfl)
    (fun h0 => absurd h0 hpos.ne') ?_ h.nodup ?_ (fun hm => absurd hm hnot) ?_ ?_
    (fun n x hn _ => h.tree n x hn) h.total h.small
  · apply h.linked.congr
    intro j hj
    rw [update_of_ne]
    rintro rfl
    rcases hj with hj | hj
    · exact hpos.ne' hj
    · exact hnot hj
  · intro j
    rw [update_self]
    constructor
    · intro hj
      refine .inl ⟨?_, hj⟩
      rintro rfl
      exact hnot hj
    · rintro (⟨-, hj⟩ | ⟨-, -, -, hnone⟩)
      · exact hj
      · exact absurd hnone hx
  · intro hi
    rw [update_self, hc]
    exact h.collision i hi
  · intro n hn hni hp hl
    rw [update_self, hgen, ← hni]
    exact h.apart n hn (by rwa [hni]) (by rwa [hni])

theorem EntriesOk.changeTree {i : ℕ} {b : Bool} {T' : TreeMap} {total' small' : ℕ}
    (h : EntriesOk size nsize e T fl total small) (hnot : i ∉ fl)
    (he : e' = update e i
      { e i with ieBits := { (e i).ieBits with collision := b } })
    (hb : i < size → (b = true ↔ TreeIndex T' i)) (hT : ∀ n, machPortIndex n ≠ i → T' n = T n)
    (hapart : ∀ n, T' n ≠ none → machPortIndex n = i → 0 < i → i < size →
      (e i).ieBits.gen ≠ machPortGen n)
    (htree : ∀ n x, T' n = some x → machPortIndex n = i → machPortValid n = true ∧
      x.ieBits.gen = 0 ∧ x.ieBits.collision = false ∧ x.ieBits.type ≠ PortType.none)
    (htotal : total' = Set.ncard {n | T' n ≠ none})
    (hsmall : small' = Set.ncard {i | size ≤ i ∧ i < nsize ∧ TreeIndex T' i}) :
    EntriesOk size nsize e' T' fl total' small' := by
  subst he
  refine h.changeAt i (fun j hj => by rw [update_of_ne hj])
    (fun j hj => by rw [update_of_ne hj]) hT ?_ ?_ h.nodup ?_ (fun hm => absurd hm hnot)
    ?_ ?_ htree htotal hsmall
  · rintro rfl
    rw [update_self]
    exact h.reserved
  · apply h.linked.congr
    intro j _
    by_cases hj : j = i
    · rw [hj, update_self]
    · rw [update_of_ne hj]
  · intro j
    rw [update_self]
    constructor
    · intro hj
      refine .inl ⟨?_, hj⟩
      rintro rfl
      exact hnot hj
    · rintro (⟨-, hj⟩ | ⟨-, hpos, hlt, hnone⟩)
      · exact hj
      · exact absurd ((h.free i).mpr ⟨hpos, hlt, hnone⟩) hnot
  · intro hi
    rw [update_self]
    exact hb hi
  · intro n hn hni hp hl
    rw [update_self]
    exact hapart n hn hni hp hl

theorem EntriesOk.pull {n : MachPort} {x : Entry} {i : ℕ}
    (h : EntriesOk size nsize e T fl total small) (hused : (e i).ieBits.type ≠ PortType.none)
    (hi : i < size) (hn : T n = some x) (hni : machPortIndex n = i) (y : Entry)
    (hgen : y.ieBits.gen = machPortGen n) (htype : y.ieBits.type ≠ PortType.none)
    (hc : y.ieBits.collision = true ↔ TreeIndex (update T n none) i) :
    EntriesOk size nsize (update e i y) (update T n none) fl (total - 1) small := by
  have hpos := h.pos_of_used hused
  have hnot := h.not_mem_of_used hused
  have hT : ∀ k, k ≠ n → update T n none k = T k := fun k hk => update_of_ne hk _ _
  refine h.changeAt i (fun j hj => by rw [update_of_ne hj])
    (fun j hj => by rw [update_of_ne hj]) ?_ (fun h0 => absurd h0 hpos.ne') ?_ h.nodup ?_
    (fun hm => absurd hm hnot) ?_ ?_ ?_ ?_ ?_
  · intro k hk
    apply hT
    rintro rfl
    exact hk hni
  · apply h.linked.congr
    intro j hj
    rw [update_of_ne]
    rintro rfl
    rcases hj with hj | hj
    · exact hpos.ne' hj
    · exact hnot hj
  · intro j
    rw [update_self]
    constructor
    · intro hj
      refine .inl ⟨?_, hj⟩
      rintro rfl
      exact hnot hj
    · rintro (⟨-, hj⟩ | ⟨-, -, -, hnone⟩)
      · exact hj
      · exact absurd hnone htype
  · intro _
    rw [update_self]
    exact hc
  · intro k hk hki _ _
    rw [update_self, hgen]
    intro heq
    have hkn : k = n := machPort_ext (by rw [hki, hni]) heq.symm
    rw [hkn, update_self] at hk
    exact hk rfl
  · intro k z hk _
    by_cases hkn : k = n
    · rw [hkn, update_self] at hk
      cases hk
    · rw [hT k hkn] at hk
      exact h.tree k z hk
  · rw [h.total, ncard_delete (by rw [hn]; exact fun h => (by cases h))]
  · rw [h.small]
    apply (small_same (i := i) ?_ ?_).symm
    · intro j hj
      exact treeIndex_delete_of_ne (by rw [hni]; exact hj)
    · intro hs _
      exact absurd hi (Nat.not_lt.mpr hs)

end operations

theorem ipcEntryTreeCollision_spec {tree : Splay Entry} {T : TreeMap} (h : tree.Holds T)
    (hvalid : ∀ n x, T n = some x → machPortValid n = true) (name : MachPort) :
    ∃ tree' b, ipcEntryTreeCollision tree name = some (tree', b) ∧ tree'.Holds T ∧
      (b = true ↔ TreeIndex T (machPortIndex name)) := by
  obtain ⟨tree', lower, upper, hrun, hholds, hlower, hupper⟩ := h.bounds name
  refine ⟨tree', _, by rw [ipcEntryTreeCollision, hrun, Option.map_some], hholds, ?_⟩
  simp only [decide_eq_true_eq]
  constructor
  · rintro (⟨hne, hidx⟩ | ⟨hne, hidx⟩)
    · rcases hlower with ⟨⟨x, hx⟩, -⟩ | ⟨heq, -⟩
      · exact ⟨lower, by rw [hx]; exact fun h => (by cases h), hidx⟩
      · exact absurd heq hne
    · rcases hupper with ⟨⟨x, hx⟩, -⟩ | ⟨heq, -⟩
      · exact ⟨upper, by rw [hx]; exact fun h => (by cases h), hidx⟩
      · exact absurd heq hne
  · rintro ⟨n, hn, hidx⟩
    obtain ⟨x, hx⟩ := Option.ne_none_iff_exists'.mp hn
    rcases le_total n name with hle | hge
    · rcases hlower with ⟨⟨y, hy⟩, hlo, hmax⟩ | ⟨-, hnone⟩
      · refine .inl ⟨?_, ?_⟩
        · have := hvalid lower y hy
          simp only [machPortValid, decide_eq_true_eq] at this
          exact this.2
        · have h1 := machPortIndex_mono (hmax n x hx hle)
          have h2 := machPortIndex_mono hlo
          omega
      · exact absurd hle (hnone n x hx)
    · rcases hupper with ⟨⟨y, hy⟩, hup, hmin⟩ | ⟨-, hnone⟩
      · refine .inr ⟨?_, ?_⟩
        · have := hvalid upper y hy
          simp only [machPortValid, decide_eq_true_eq] at this
          exact this.1
        · have h1 := machPortIndex_mono (hmin n x hx hge)
          have h2 := machPortIndex_mono hup
          omega
      · exact absurd hge (hnone n x hx)

/-! ## The invariant of a space -/

structure SpaceOk (sizes : TableSizes) (s : Space) (T : TreeMap) (fl : List ℕ) : Prop where
  next_pos : 0 < s.isTableNext
  next_le : s.isTableNext ≤ sizes.last + 1
  size : s.isTable.size = sizes.its (s.isTableNext - 1)
  holds : s.isTree.Holds T
  entries : EntriesOk s.isTable.size (sizes.its s.isTableNext) s.isTable.entry T fl s.isTreeTotal
    s.isTreeSmall

/-- The contents of the entry that has the name. -/
def Space.liveName (s : Space) (T : TreeMap) (name : MachPort) : Option Contents :=
  if s.named name then some (s.isTable.entry (machPortIndex name)).contents
  else (T name).map Entry.contents

theorem Space.named_iff {s : Space} {name : MachPort} : s.named name = true ↔
    0 < machPortIndex name ∧ machPortIndex name < s.isTable.size ∧
      (s.isTable.entry (machPortIndex name)).ieBits.type ≠ PortType.none ∧
      (s.isTable.entry (machPortIndex name)).ieBits.gen = machPortGen name := by
  simp only [Space.named, decide_eq_true_eq]

theorem PortType.isNone_eq_false {t : PortType} : t.isNone = false ↔ t ≠ PortType.none := by
  simp [PortType.isNone]

theorem PortType.isNone_eq_true {t : PortType} : t.isNone = true ↔ t = PortType.none := by
  simp [PortType.isNone]

theorem Space.liveName_congr {s s' : Space} {T T' : TreeMap} {n : MachPort}
    (hsize : s'.isTable.size = s.isTable.size)
    (htype : (s'.isTable.entry (machPortIndex n)).ieBits.type =
      (s.isTable.entry (machPortIndex n)).ieBits.type)
    (hgen : (s'.isTable.entry (machPortIndex n)).ieBits.gen =
      (s.isTable.entry (machPortIndex n)).ieBits.gen)
    (hcontents : s.named n = true → (s'.isTable.entry (machPortIndex n)).contents =
      (s.isTable.entry (machPortIndex n)).contents)
    (hT : (T' n).map Entry.contents = (T n).map Entry.contents) :
    s'.liveName T' n = s.liveName T n := by
  have hnamed : s'.named n = s.named n := by
    unfold Space.named
    rw [hsize, htype, hgen]
  unfold Space.liveName
  rw [hnamed]
  by_cases hn : s.named n = true
  · rw [if_pos hn, if_pos hn, hcontents hn]
  · rw [if_neg hn, if_neg hn, hT]

section space
variable {sizes : TableSizes} {s : Space} {T : TreeMap} {fl : List ℕ}

theorem SpaceOk.tree_none_of_named (h : SpaceOk sizes s T fl) {name : MachPort}
    (hn : s.named name = true) : T name = none := by
  by_contra hT
  obtain ⟨hpos, hlt, -, hgen⟩ := Space.named_iff.mp hn
  exact h.entries.apart name hT hpos hlt hgen

theorem SpaceOk.valid (h : SpaceOk sizes s T fl) : ∀ n x, T n = some x → machPortValid n = true :=
  fun n x hn => (h.entries.tree n x hn).1

theorem SpaceOk.total_pos (h : SpaceOk sizes s T fl) {n : MachPort} (hn : T n ≠ none) :
    0 < s.isTreeTotal := by
  rw [h.entries.total]
  exact (Set.ncard_pos).mpr ⟨n, hn⟩

theorem SpaceOk.setTree (h : SpaceOk sizes s T fl) {tree : Splay Entry} (ht : tree.Holds T) :
    SpaceOk sizes { s with isTree := tree } T fl :=
  ⟨h.next_pos, h.next_le, h.size, ht, h.entries⟩

/-- The name of the first slot with the generation the slot is made with. -/
def reservedName : MachPort := machPortMake 0 255

theorem SpaceOk.treeLookup (h : SpaceOk sizes s T fl) (name : MachPort) :
    ∃ tree, tree.Holds T ∧ treeLookup s name =
      some ({ s with isTree := tree }, (T name).map (fun _ => EntryRef.tree name)) := by
  obtain ⟨tree, hrun, hholds⟩ := h.holds.lookup name
  refine ⟨tree, hholds, ?_⟩
  rw [Darwin.Ipc.treeLookup, hrun, Option.bind_some]
  cases hT : T name with
  | none => rfl
  | some x =>
    have htype := (h.entries.tree name x hT).2.2.2
    simp [PortType.isNone_eq_false.mpr htype]

theorem SpaceOk.lookup (h : SpaceOk sizes s T fl) (name : MachPort) :
    ∃ tree, tree.Holds T ∧ ipcEntryLookup s name = some ({ s with isTree := tree },
      if name = reservedName then none
      else (s.liveName T name).map (fun _ => s.locate name)) := by
  have hkeep : ∀ r : Option EntryRef, ∃ tree, tree.Holds T ∧ some (s, r) =
      some (({ s with isTree := tree } : Space), r) := fun r => ⟨s.isTree, h.holds, rfl⟩
  have hreserved : machPortIndex reservedName = 0 ∧ machPortGen reservedName = 255 :=
    ⟨machPortIndex_make (by omega) _, machPortGen_make (by omega) _⟩
  unfold ipcEntryLookup
  by_cases hlt : machPortIndex name < s.isTable.size
  · simp only [hlt, if_true]
    by_cases hgen : (s.isTable.entry (machPortIndex name)).ieBits.gen = machPortGen name
    · simp only [hgen, ne_eq, not_true, if_false]
      by_cases htype : (s.isTable.entry (machPortIndex name)).ieBits.type = PortType.none
      · rw [if_pos (PortType.isNone_eq_true.mpr htype)]
        by_cases hr : name = reservedName
        · rw [if_pos hr]
          exact hkeep none
        · rw [if_neg hr]
          -- only the first slot is free and not in the free list
          have hpos : 0 < machPortIndex name := by
            apply Nat.pos_of_ne_zero
            intro h0
            apply hr
            apply machPort_ext
            · rw [h0, hreserved.1]
            · rw [← hgen, h0, h.entries.reserved.2, hreserved.2]
          have hfree := (h.entries.free _).mpr ⟨hpos, hlt, htype⟩
          have hT : T name = none := by
            by_contra hne
            exact h.entries.not_treeIndex hfree ⟨name, hne, rfl⟩
          have hnamed : ¬ s.named name = true := fun hn => (Space.named_iff.mp hn).2.2.1 htype
          rw [Space.liveName, if_neg hnamed, hT]
          exact hkeep none
      · rw [if_neg (by rw [PortType.isNone_eq_true]; exact htype)]
        have hpos := h.entries.pos_of_used htype
        have hr : name ≠ reservedName := by
          rintro rfl
          rw [hreserved.1] at hpos
          exact absurd hpos (Nat.lt_irrefl _)
        have hnamed : s.named name = true := Space.named_iff.mpr ⟨hpos, hlt, htype, hgen⟩
        rw [if_neg hr, Space.liveName, if_pos hnamed, Option.map_some, Space.locate, if_pos hnamed]
        exact hkeep _
    · simp only [ne_eq, hgen, not_false_eq_true, if_true]
      have hr : name ≠ reservedName := by
        rintro rfl
        rw [hreserved.1, hreserved.2] at hgen
        exact hgen h.entries.reserved.2
      have hnamed : ¬ s.named name = true := fun hn => hgen (Space.named_iff.mp hn).2.2.2
      rw [if_neg hr, Space.liveName, if_neg hnamed, Space.locate, if_neg hnamed]
      by_cases hc : (s.isTable.entry (machPortIndex name)).ieBits.collision = true
      · obtain ⟨n, hn, -⟩ := (h.entries.collision _ hlt).mp hc
        rw [if_pos hc, if_pos (h.total_pos hn), Option.map_map]
        exact h.treeLookup name
      · have hT : T name = none := by
          by_contra hne
          exact hc ((h.entries.collision _ hlt).mpr ⟨name, hne, rfl⟩)
        rw [if_neg hc, hT]
        exact hkeep none
  · simp only [hlt, if_false]
    have hr : name ≠ reservedName := by
      rintro rfl
      rw [hreserved.1] at hlt
      exact hlt h.entries.size_pos
    have hnamed : ¬ s.named name = true := fun hn => hlt (Space.named_iff.mp hn).2.1
    rw [if_neg hr, Space.liveName, if_neg hnamed, Space.locate, if_neg hnamed]
    by_cases htotal : s.isTreeTotal = 0
    · have hT : T name = none := by
        by_contra hne
        have := h.total_pos hne
        omega
      rw [if_pos htotal, hT]
      exact hkeep none
    · rw [if_neg htotal, Option.map_map]
      exact h.treeLookup name

end space

end Darwin.Ipc
