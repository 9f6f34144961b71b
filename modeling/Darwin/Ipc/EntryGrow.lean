import Darwin.Ipc.EntryDealloc

/-! # Growing the table keeps the invariant

The new slots are empty at first. The tree entries that belong there move in one after the
other, and the slots that stay empty get into the free list.
-/
namespace Darwin.Ipc
open Darwin.Lib Darwin.Lib.SearchTree Function List

/-! ## While tree entries move into the new slots -/

/-- A table that has grown from `osize` to `size` entries; the tree entries of which `pending`
holds are still to be looked at. -/
structure GrowOk (osize size : ℕ) (e : ℕ → Entry) (T : TreeMap) (fl : List ℕ)
    (pending : MachPort → Prop) (total : ℕ) : Prop where
  osize_pos : 0 < osize
  osize_le : osize ≤ size
  size_lt : size < 2 ^ 24
  reserved : (e 0).ieBits.type = PortType.none ∧ (e 0).ieBits.gen = 255
  linked : IndexList.Linked (fun i => (e i).ieRequest) 0 fl
  nodup : fl.Nodup
  free : ∀ i, i ∈ fl ↔ 0 < i ∧ i < osize ∧ (e i).ieBits.type = PortType.none
  freeBits : ∀ i ∈ fl, (e i).ieBits = Bits.ofGen (e i).ieBits.gen ∧ (e i).ieObject = 0
  blank : ∀ i, osize ≤ i → i < size → (e i).ieBits.type = PortType.none →
    (e i).ieBits = Bits.ofGen 0 ∧ (e i).ieObject = 0
  blankTree : ∀ i, osize ≤ i → i < size → (e i).ieBits.type = PortType.none →
    ∀ n, T n ≠ none → machPortIndex n = i → pending n
  collision : ∀ i < size, (e i).ieBits.collision = true ↔
    ∃ n, T n ≠ none ∧ machPortIndex n = i ∧ ¬ pending n
  apart : ∀ n, T n ≠ none → 0 < machPortIndex n → machPortIndex n < size →
    (e (machPortIndex n)).ieBits.type ≠ PortType.none →
    (e (machPortIndex n)).ieBits.gen ≠ machPortGen n
  tree : ∀ n x, T n = some x → machPortValid n = true ∧ x.ieBits.gen = 0 ∧
    x.ieBits.collision = false ∧ x.ieBits.type ≠ PortType.none
  total : total = Set.ncard {n | T n ≠ none}
  pending_new : ∀ n, pending n → osize ≤ machPortIndex n ∧ machPortIndex n < size

section grow
variable {osize size : ℕ} {e e' : ℕ → Entry} {T : TreeMap} {fl : List ℕ}
  {pending : MachPort → Prop} {total : ℕ}

theorem GrowOk.congr_old (h : GrowOk osize size e T fl pending total) {i : ℕ} (hi : osize ≤ i)
    (he : ∀ j, j ≠ i → (e' j).ieRequest = (e j).ieRequest) :
    IndexList.Linked (fun i => (e' i).ieRequest) 0 fl := by
  apply h.linked.congr
  intro j hj
  apply he
  rintro rfl
  rcases hj with hj | hj
  · have := h.osize_pos
    omega
  · have := ((h.free j).mp hj).2.1
    omega

theorem GrowOk.keep (h : GrowOk osize size e T fl pending total) {n : MachPort} (hn : pending n)
    (hT : T n ≠ none) (hused : (e (machPortIndex n)).ieBits.type ≠ PortType.none)
    (he : ∀ j, j ≠ machPortIndex n → e' j = e j)
    (hself : e' (machPortIndex n) = { e (machPortIndex n) with
      ieBits := { (e (machPortIndex n)).ieBits with collision := true } }) :
    GrowOk osize size e' T fl (fun k => pending k ∧ k ≠ n) total := by
  obtain ⟨hge, hlt⟩ := h.pending_new n hn
  have htype : ∀ j, (e' j).ieBits.type = (e j).ieBits.type := by
    intro j
    by_cases hj : j = machPortIndex n
    · rw [hj, hself]
    · rw [he j hj]
  have hbits : ∀ j, (e j).ieBits.type = PortType.none ∨ j < osize → e' j = e j := by
    intro j hj
    apply he
    rintro rfl
    rcases hj with hj | hj
    · exact hused hj
    · omega
  refine ⟨h.osize_pos, h.osize_le, h.size_lt, ?_, ?_, h.nodup, ?_, ?_, ?_, ?_, ?_, ?_, h.tree, h.total,
    fun k hk => h.pending_new k hk.1⟩
  · rw [hbits 0 (.inr h.osize_pos)]
    exact h.reserved
  · exact h.congr_old hge fun j hj => by rw [he j hj]
  · intro i
    rw [htype]
    exact h.free i
  · intro i hi
    rw [hbits i (.inr ((h.free i).mp hi).2.1)]
    exact h.freeBits i hi
  · intro i h1 h2 h3
    rw [htype] at h3
    rw [hbits i (.inl h3)]
    exact h.blank i h1 h2 h3
  · intro i h1 h2 h3 k hk hki
    rw [htype] at h3
    refine ⟨h.blankTree i h1 h2 h3 k hk hki, ?_⟩
    rintro rfl
    rw [hki] at hused
    exact hused h3
  · intro i hi
    by_cases hin : i = machPortIndex n
    · rw [hin, hself]
      exact ⟨fun _ => ⟨n, hT, rfl, fun hp => hp.2 rfl⟩, fun _ => rfl⟩
    · rw [he i hin, h.collision i hi]
      constructor
      · rintro ⟨k, hk, hki, hp⟩
        exact ⟨k, hk, hki, fun hp' => hp hp'.1⟩
      · rintro ⟨k, hk, hki, hp⟩
        refine ⟨k, hk, hki, fun hp' => hp ⟨hp', ?_⟩⟩
        rintro rfl
        exact hin hki.symm
  · intro k hk hp hl ht
    rw [htype] at ht
    have hgen : (e' (machPortIndex k)).ieBits.gen = (e (machPortIndex k)).ieBits.gen := by
      by_cases hj : machPortIndex k = machPortIndex n
      · rw [hj, hself]
      · rw [he _ hj]
    rw [hgen]
    exact h.apart k hk hp hl ht

theorem GrowOk.move (h : GrowOk osize size e T fl pending total) {n : MachPort} {x : Entry}
    (hn : pending n) (hT : T n = some x)
    (hblank : (e (machPortIndex n)).ieBits.type = PortType.none)
    (he : ∀ j, j ≠ machPortIndex n → (e' j).ieBits = (e j).ieBits ∧
      (e' j).ieObject = (e j).ieObject ∧ (e' j).ieRequest = (e j).ieRequest)
    (hbits : (e' (machPortIndex n)).ieBits = { x.ieBits with gen := machPortGen n }) :
    GrowOk osize size e' (update T n none) fl (fun k => pending k ∧ k ≠ n) (total - 1) := by
  obtain ⟨hge, hlt⟩ := h.pending_new n hn
  obtain ⟨hvalid, hg, hc, ht⟩ := h.tree n x hT
  have hTne : T n ≠ none := by
    rw [hT]
    exact fun h => (by cases h)
  have hupdate : ∀ k, update T n none k ≠ none ↔ k ≠ n ∧ T k ≠ none := by
    intro k
    by_cases hk : k = n
    · simp [hk]
    · simp [hk]
  have hold : ∀ j, j < osize → (e' j).ieBits = (e j).ieBits ∧ (e' j).ieObject = (e j).ieObject ∧
      (e' j).ieRequest = (e j).ieRequest := fun j hj => he j (by omega)
  refine ⟨h.osize_pos, h.osize_le, h.size_lt, ?_, ?_, h.nodup, ?_, ?_, ?_, ?_, ?_, ?_, ?_, ?_,
    fun k hk => h.pending_new k hk.1⟩
  · rw [(hold 0 h.osize_pos).1]
    exact h.reserved
  · exact h.congr_old hge fun j hj => (he j hj).2.2
  · intro i
    rw [h.free i]
    constructor
    · rintro ⟨h1, h2, h3⟩
      exact ⟨h1, h2, by rw [(hold i h2).1]; exact h3⟩
    · rintro ⟨h1, h2, h3⟩
      rw [(hold i h2).1] at h3
      exact ⟨h1, h2, h3⟩
  · intro i hi
    obtain ⟨-, h2, -⟩ := (h.free i).mp hi
    rw [(hold i h2).1, (hold i h2).2.1]
    exact h.freeBits i hi
  · intro i h1 h2 h3
    by_cases hin : i = machPortIndex n
    · rw [hin, hbits] at h3
      exact absurd h3 ht
    · rw [(he i hin).1] at h3 ⊢
      rw [(he i hin).2.1]
      exact h.blank i h1 h2 h3
  · intro i h1 h2 h3 k hk hki
    have hin : i ≠ machPortIndex n := by
      rintro rfl
      rw [hbits] at h3
      exact ht h3
    rw [(he i hin).1] at h3
    obtain ⟨hkn, hk⟩ := (hupdate k).mp hk
    exact ⟨h.blankTree i h1 h2 h3 k hk hki, hkn⟩
  · intro i hi
    by_cases hin : i = machPortIndex n
    · rw [hin, hbits]
      simp only [hc]
      constructor
      · exact fun h => (by cases h)
      · rintro ⟨k, hk, hki, hp⟩
        obtain ⟨hkn, hk⟩ := (hupdate k).mp hk
        exact absurd ⟨h.blankTree _ hge hlt hblank k hk hki, hkn⟩ hp
    · rw [(he i hin).1, h.collision i hi]
      constructor
      · rintro ⟨k, hk, hki, hp⟩
        refine ⟨k, (hupdate k).mpr ⟨?_, hk⟩, hki, fun hp' => hp hp'.1⟩
        rintro rfl
        exact hin hki.symm
      · rintro ⟨k, hk, hki, hp⟩
        obtain ⟨hkn, hk⟩ := (hupdate k).mp hk
        exact ⟨k, hk, hki, fun hp' => hp ⟨hp', hkn⟩⟩
  · intro k hk hp hl hused
    obtain ⟨hkn, hk⟩ := (hupdate k).mp hk
    by_cases hki : machPortIndex k = machPortIndex n
    · rw [hki, hbits]
      exact fun heq => hkn (machPort_ext hki heq.symm)
    · rw [(he _ hki).1] at hused ⊢
      exact h.apart k hk hp hl hused
  · intro k y hk
    by_cases hkn : k = n
    · rw [hkn, update_self] at hk
      cases hk
    · rw [update_of_ne hkn] at hk
      exact h.tree k y hk
  · rw [h.total, ncard_delete hTne]

end grow

/-- A space in the middle of the growth. -/
def SpaceGrow (osize : ℕ) (s : Space) (T : TreeMap) (fl : List ℕ) (pending : MachPort → Prop) : Prop :=
  GrowOk osize s.isTable.size s.isTable.entry T fl pending s.isTreeTotal

/-- What the migration leaves alone. -/
structure SameFrame (s s' : Space) : Prop where
  self : s'.self = s.self
  size : s'.isTable.size = s.isTable.size
  next : s'.isTableNext = s.isTableNext
  small : s'.isTreeSmall = s.isTreeSmall
  tree : s'.isTree = s.isTree

theorem SameFrame.refl (s : Space) : SameFrame s s := ⟨rfl, rfl, rfl, rfl, rfl⟩

theorem SameFrame.trans {s s' s'' : Space} (h : SameFrame s s') (h' : SameFrame s' s'') :
    SameFrame s s'' :=
  ⟨h'.self.trans h.self, h'.size.trans h.size, h'.next.trans h.next, h'.small.trans h.small,
    h'.tree.trans h.tree⟩

section move
variable {osize : ℕ} {v v' : SpaceHash} {T : TreeMap} {fl : List ℕ} {pending : MachPort → Prop}

theorem moveEntry_spec {n : MachPort} {x : Entry} {del : Bool}
    (h : SpaceGrow osize v.space T fl pending) (hn : pending n) (hT : T n = some x)
    (hrun : moveEntry osize v n x = some (v', del)) :
    SpaceGrow osize v'.space (if del then update T n none else T) fl
        (fun k => pending k ∧ k ≠ n) ∧
      v'.space.liveName (if del then update T n none else T) = v.space.liveName T ∧
      SameFrame v.space v'.space := by
  obtain ⟨hge, hlt⟩ := h.pending_new n hn
  have hTne : T n ≠ none := by
    rw [hT]
    exact fun h => (by cases h)
  obtain ⟨hvalid, hg, hc, ht⟩ := h.tree n x hT
  unfold moveEntry at hrun
  simp only [hge, hlt, true_and, if_true] at hrun
  split at hrun
  · next hbits =>
    split at hrun
    · next hused =>
      cases hrun
      have htype := PortType.isNone_eq_false.mp hused.1
      refine ⟨?_, ?_, ⟨rfl, rfl, rfl, rfl, rfl⟩⟩
      · exact h.keep hn hTne htype (fun j hj => update_of_ne hj ..) (update_self ..)
      · funext k
        have hs := setCollision_contents v.space.isTable (machPortIndex n) true (machPortIndex k)
        exact Space.liveName_congr rfl (congrArg Contents.type hs.1) hs.2 (fun _ => hs.1) rfl
    · cases hrun
  · next hbits =>
    have hblank : (v.space.isTable.entry (machPortIndex n)).ieBits.type = PortType.none := by
      rw [not_not.mp hbits]
      rfl
    rw [if_neg (by rw [PortType.isNone_eq_true]; exact ht)] at hrun
    obtain ⟨v₁, hhome, heq⟩ := Option.map_eq_some_iff.mp hrun
    cases heq
    have hsame := rehome_same hhome
    have hother : ∀ j, j ≠ machPortIndex n →
        (v₁.space.isTable.entry j).ieBits = (v.space.isTable.entry j).ieBits ∧
        (v₁.space.isTable.entry j).ieObject = (v.space.isTable.entry j).ieObject ∧
        (v₁.space.isTable.entry j).ieRequest = (v.space.isTable.entry j).ieRequest := by
      intro j hj
      rw [hsame.table.bits, hsame.table.object, hsame.table.request]
      simp [SpaceHash.setTable, Table.setEntry, update_of_ne hj]
    have hself : (v₁.space.isTable.entry (machPortIndex n)).ieBits =
          { x.ieBits with gen := machPortGen n } ∧
        (v₁.space.isTable.entry (machPortIndex n)).ieObject = x.ieObject ∧
        (v₁.space.isTable.entry (machPortIndex n)).ieRequest = x.ieRequest := by
      rw [hsame.table.bits, hsame.table.object, hsame.table.request]
      simp [SpaceHash.setTable, Table.setEntry, hg]
    have hsize : v₁.space.isTable.size = v.space.isTable.size := hsame.table.size
    refine ⟨?_, ?_, ⟨hsame.self, hsize, hsame.next, hsame.small, hsame.tree⟩⟩
    · have hmove := h.move hn hT hblank hother hself.1
      have htotal : v₁.space.isTreeTotal = v.space.isTreeTotal := hsame.total
      unfold SpaceGrow
      rw [if_pos rfl]
      change GrowOk osize v₁.space.isTable.size _ _ _ _ (v₁.space.isTreeTotal - 1)
      rw [hsize, htotal]
      exact hmove
    · rw [if_pos rfl]
      funext k
      by_cases hki : machPortIndex k = machPortIndex n
      · have hpos : 0 < machPortIndex n := lt_of_lt_of_le h.osize_pos hge
        have hnot : ¬ v.space.named k = true := by
          intro hnamed
          have := (Space.named_iff.mp hnamed).2.2.1
          rw [hki] at this
          exact this hblank
        have hslot : ({ v₁.space with isTreeTotal := v₁.space.isTreeTotal - 1 } : Space).named k = true ↔
            k = n := by
          rw [Space.named_iff, hki, hsize]
          simp only [hself.1]
          constructor
          · rintro ⟨-, -, -, hgen⟩
            exact machPort_ext hki hgen.symm
          · rintro rfl
            exact ⟨hpos, hlt, ht, rfl⟩
        by_cases hkn : k = n
        · rw [Space.liveName, if_pos (hslot.mpr hkn), Space.liveName, if_neg hnot, hkn, hT]
          unfold Entry.contents
          simp only [hself.1, hself.2.1, hself.2.2, Option.map_some]
        · rw [Space.liveName, if_neg (fun hh => hkn (hslot.mp hh)), Space.liveName, if_neg hnot,
            update_of_ne hkn]
      · have hkn : k ≠ n := by
          rintro rfl
          exact hki rfl
        refine Space.liveName_congr hsize (by rw [(hother _ hki).1]) (by rw [(hother _ hki).1]) ?_ ?_
        · intro _
          unfold Entry.contents
          simp only [(hother _ hki).1, (hother _ hki).2.1, (hother _ hki).2.2]
        · rw [update_of_ne hkn]

theorem visit_moveEntry : ∀ {ys kept : List (MachPort × Entry)} {v v' : SpaceHash} {T : TreeMap}
    {pending : MachPort → Prop}, SpaceGrow osize v.space T fl pending →
    (∀ n, pending n ↔ n ∈ ys.map Prod.fst) → (∀ n x, (n, x) ∈ ys → T n = some x) →
    (ys.map Prod.fst).Nodup → visit (moveEntry osize) ys v = some (v', kept) →
    ∃ T', SpaceGrow osize v'.space T' fl (fun _ => False) ∧
      v'.space.liveName T' = v.space.liveName T ∧ SameFrame v.space v'.space ∧
      (∀ n, n ∉ ys.map Prod.fst → T' n = T n) ∧
      (∀ n ∈ ys.map Prod.fst, ∀ x, T' n = some x ↔ (n, x) ∈ kept) := by
  intro ys
  induction ys with
  | nil =>
    intro kept v v' T pending h hp _ _ hrun
    cases hrun
    have hfalse : pending = fun _ => False := by
      funext n
      simp [hp n]
    rw [hfalse] at h
    exact ⟨T, h, rfl, SameFrame.refl _, fun _ _ => rfl, fun _ hn => (by cases hn)⟩
  | cons q ys ih =>
    intro kept v v' T pending h hp hys hnodup hrun
    obtain ⟨n, x⟩ := q
    obtain ⟨⟨v₁, del⟩, hbody, hrun⟩ := Option.bind_eq_some_iff.mp hrun
    obtain ⟨⟨v₂, kept'⟩, hrest, heq⟩ := Option.map_eq_some_iff.mp hrun
    cases heq
    have hnodup' := nodup_cons.mp hnodup
    have hT := hys n x mem_cons_self
    obtain ⟨h₁, hlive₁, hframe₁⟩ := moveEntry_spec h ((hp n).mpr (by simp)) hT hbody
    have hne : ∀ k ∈ ys.map Prod.fst, k ≠ n := by
      rintro k hk rfl
      exact hnodup'.1 hk
    have hT₁ : ∀ k, k ≠ n → (if del then update T n none else T) k = T k := by
      intro k hk
      cases del with
      | true => exact update_of_ne hk ..
      | false => rfl
    obtain ⟨T', h', hlive', hframe', hother', hkept'⟩ := ih h₁ (by
        intro k
        rw [hp k]
        simp only [map_cons, mem_cons]
        constructor
        · rintro ⟨hk | hk, hkn⟩
          · exact absurd hk hkn
          · exact hk
        · intro hk
          exact ⟨.inr hk, hne k hk⟩) (by
        intro k y hky
        rw [hT₁ k (hne k (mem_map_of_mem hky))]
        exact hys k y (mem_cons_of_mem _ hky)) hnodup'.2 hrest
    refine ⟨T', h', hlive'.trans hlive₁, hframe₁.trans hframe', ?_, ?_⟩
    · intro k hk
      simp only [map_cons, mem_cons, not_or] at hk
      rw [hother' k hk.2, hT₁ k hk.1]
    · intro k hk y
      rcases mem_cons.mp hk with rfl | hk
      · -- the entry itself is as the body left it
        have hsub := visit_sublist hrest
        have hnot : ∀ z, (k, z) ∉ kept' := fun z hz =>
          hnodup'.1 (mem_map.mpr ⟨(k, z), hsub.subset hz, rfl⟩)
        rw [hother' _ hnodup'.1]
        cases del with
        | true => simp [hnot y]
        | false => simp [hT, hnot y, eq_comm]
      · rw [hkept' k hk y]
        cases del with
        | true => simp
        | false => simp [hne k hk]

end move

/-! ## The indices of the third region -/

theorem visit_countIndex : ∀ {xs : List (MachPort × Entry)} {c idx : ℕ}, Ordered xs →
    (∀ p ∈ xs, idx ≤ machPortIndex p.1) →
    ∃ idx', visit countIndex xs (c, idx) =
      some ((c + Set.ncard {i | i ≠ idx ∧ ∃ p ∈ xs, machPortIndex p.1 = i}, idx'), xs) := by
  intro xs
  induction xs with
  | nil =>
    intro c idx _ _
    exact ⟨idx, by simp [visit]⟩
  | cons q xs ih =>
    intro c idx ho hle
    obtain ⟨hq, ho'⟩ := pairwise_cons.mp ho
    have hmono : ∀ p ∈ xs, machPortIndex q.1 ≤ machPortIndex p.1 :=
      fun p hp => machPortIndex_mono (hq p hp).le
    by_cases hidx : machPortIndex q.1 = idx
    · obtain ⟨idx', hrest⟩ := @ih c idx ho' (fun p hp => hle p (mem_cons_of_mem _ hp))
      refine ⟨idx', ?_⟩
      have hset : {i | i ≠ idx ∧ ∃ p ∈ q :: xs, machPortIndex p.1 = i} =
          {i | i ≠ idx ∧ ∃ p ∈ xs, machPortIndex p.1 = i} := by
        ext i
        constructor
        · rintro ⟨hi, p, hp, hpi⟩
          rcases mem_cons.mp hp with rfl | hp
          · exact absurd (hpi.symm.trans hidx) hi
          · exact ⟨hi, p, hp, hpi⟩
        · rintro ⟨hi, p, hp, hpi⟩
          exact ⟨hi, p, mem_cons_of_mem _ hp, hpi⟩
      rw [hset]
      simp [visit, countIndex, hidx, hrest]
    · have hlt : idx < machPortIndex q.1 := lt_of_le_of_ne (hle q mem_cons_self) (Ne.symm hidx)
      obtain ⟨idx', hrest⟩ := @ih (c + 1) (machPortIndex q.1) ho' hmono
      refine ⟨idx', ?_⟩
      have hset : {i | i ≠ idx ∧ ∃ p ∈ q :: xs, machPortIndex p.1 = i} =
          insert (machPortIndex q.1)
            {i | i ≠ machPortIndex q.1 ∧ ∃ p ∈ xs, machPortIndex p.1 = i} := by
        ext i
        constructor
        · rintro ⟨hi, p, hp, hpi⟩
          by_cases hiq : i = machPortIndex q.1
          · exact .inl hiq
          · rcases mem_cons.mp hp with rfl | hp
            · exact absurd hpi.symm hiq
            · exact .inr ⟨hiq, p, hp, hpi⟩
        · rintro (rfl | ⟨-, p, hp, rfl⟩)
          · exact ⟨hlt.ne', q, mem_cons_self, rfl⟩
          · exact ⟨(hlt.trans_le (hmono p hp)).ne', p, mem_cons_of_mem _ hp, rfl⟩
      have hfin : {i | i ≠ machPortIndex q.1 ∧ ∃ p ∈ xs, machPortIndex p.1 = i}.Finite := by
        apply ((xs.map (fun p => machPortIndex p.1)).finite_toSet).subset
        rintro i ⟨-, p, hp, hpi⟩
        exact mem_map.mpr ⟨p, hp, hpi⟩
      rw [hset, Set.ncard_insert_of_notMem (fun hmem => hmem.1 rfl) hfin]
      simp only [visit, countIndex, ne_eq, hidx, not_false_eq_true, if_true, Option.bind_some, hrest,
        Option.map_some, Bool.false_eq_true, if_false]
      rw [Nat.add_assoc c 1, Nat.add_comm 1]

theorem split_regions {tree : Splay Entry} {T : TreeMap} (h : tree.Holds T) {osize size nsize : ℕ}
    (h1 : osize ≤ size) (h2 : size ≤ nsize) (h3 : nsize < 2 ^ 24) :
    ∃ upper small₀ small move₀ move ignore,
      ipcSplayTreeSplit tree (machPortMake nsize 0) Splay.raw = some (upper, small₀) ∧
      ipcSplayTreeSplit small₀ (machPortMake size 0) Splay.raw = some (small, move₀) ∧
      ipcSplayTreeSplit move₀ (machPortMake osize 0) Splay.raw = some (move, ignore) ∧
      upper.Holds (fun n => if nsize ≤ machPortIndex n then T n else none) ∧
      small.Holds (fun n => if size ≤ machPortIndex n ∧ machPortIndex n < nsize then T n else none) ∧
      move.Holds (fun n => if osize ≤ machPortIndex n ∧ machPortIndex n < size then T n else none) ∧
      ignore.Holds (fun n => if machPortIndex n < osize then T n else none) := by
  obtain ⟨upper, small₀, hs1, hupper, hsmall₀⟩ := h.split (machPortMake nsize 0) Splay.raw
  obtain ⟨small, move₀, hs2, hsmall, hmove₀⟩ := hsmall₀.split (machPortMake size 0) Splay.raw
  obtain ⟨move, ignore, hs3, hmove, hignore⟩ := hmove₀.split (machPortMake osize 0) Splay.raw
  have l1 := fun n => lt_machPortMake_zero h3 n
  have l2 := fun n => lt_machPortMake_zero (lt_of_le_of_lt h2 h3) n
  have l3 := fun n => lt_machPortMake_zero (lt_of_le_of_lt (h1.trans h2) h3) n
  simp only [l1, l2, l3] at hupper hsmall hmove hignore
  refine ⟨upper, small₀, small, move₀, move, ignore, hs1, hs2, hs3, ?_, ?_, ?_, ?_⟩
  · convert hupper using 1
    funext n
    split_ifs <;> first | rfl | omega
  · convert hsmall using 1
    funext n
    split_ifs <;> first | rfl | omega
  · convert hmove using 1
    funext n
    split_ifs <;> first | rfl | omega
  · convert hignore using 1
    funext n
    split_ifs <;> first | rfl | omega

theorem migrate_spec {osize size nsize : ℕ} {v v' : SpaceHash} {T : TreeMap} {fl : List ℕ}
    (h : SpaceGrow osize v.space T fl (fun n => T n ≠ none ∧ osize ≤ machPortIndex n ∧
      machPortIndex n < size)) (hholds : v.space.isTree.Holds T)
    (hsize : v.space.isTable.size = size) (hn : size ≤ nsize) (hn' : nsize < 2 ^ 24)
    (hrun : migrate osize size nsize v = some v') :
    ∃ T', SpaceGrow osize v'.space T' fl (fun _ => False) ∧ v'.space.isTree.Holds T' ∧
      v'.space.liveName T' = v.space.liveName T ∧ v'.space.self = v.space.self ∧
      v'.space.isTable.size = size ∧ v'.space.isTableNext = v.space.isTableNext ∧
      v'.space.isTreeSmall = Set.ncard {i | size ≤ i ∧ i < nsize ∧ TreeIndex T' i} := by
  have hos : osize ≤ size := by
    rw [← hsize]
    exact h.osize_le
  obtain ⟨upper, small₀, small, move₀, move, ignore, hs1, hs2, hs3, hupper, hsmall, hmove, hignore⟩ :=
    split_regions hholds hos hn hn'
  unfold migrate at hrun
  simp only [hs1, hs2, hs3, Option.bind_some] at hrun
  obtain ⟨⟨v₁, move'⟩, htrav, hrun⟩ := Option.bind_eq_some_iff.mp hrun
  obtain ⟨⟨⟨nosmall, idx⟩, small'⟩, hcount, hrun⟩ := Option.bind_eq_some_iff.mp hrun
  simp only at hrun
  split at hrun
  swap
  · cases hrun
  -- the traversal of the second region
  have hkeys : ∀ n, n ∈ move.inorder.map Prod.fst ↔
      T n ≠ none ∧ osize ≤ machPortIndex n ∧ machPortIndex n < size := by
    intro n
    rw [mem_map]
    constructor
    · rintro ⟨⟨k, x⟩, hmem, rfl⟩
      have := (hmove.represents.mem k x).mp hmem
      split_ifs at this with hin
      · exact ⟨by rw [this]; exact fun h => (by cases h), hin⟩
    · rintro ⟨hne, hin⟩
      obtain ⟨x, hx⟩ := Option.ne_none_iff_exists'.mp hne
      exact ⟨(n, x), (hmove.represents.mem n x).mpr (by rw [if_pos hin]; exact hx), rfl⟩
  obtain ⟨kept, hvisit, hmove'⟩ := hmove.of_traverse htrav
  obtain ⟨T', h', hlive, hframe, hother, hkept⟩ := visit_moveEntry h (fun n => (hkeys n).symm) (by
      intro n x hmem
      have := (hmove.represents.mem n x).mp hmem
      split_ifs at this
      exact this) hmove.represents.nodup hvisit
  have houtside : ∀ n, ¬ (osize ≤ machPortIndex n ∧ machPortIndex n < size) → T' n = T n :=
    fun n hout => hother n fun hmem => hout ((hkeys n).mp hmem).2
  have hnew : ∀ n, T' n ≠ none → T n ≠ none := by
    intro n hne hT
    by_cases hk : n ∈ move.inorder.map Prod.fst
    · exact ((hkeys n).mp hk).1 hT
    · rw [hother n hk] at hne
      exact hne hT
  have hmoveT : move'.Holds (fun n => if osize ≤ machPortIndex n ∧ machPortIndex n < size then T' n
      else none) := by
    apply hmove'
    refine ⟨hmove.represents.ordered.sublist (visit_sublist hvisit), ?_⟩
    intro n x
    by_cases hk : n ∈ move.inorder.map Prod.fst
    · rw [← hkept n hk x, if_pos ((hkeys n).mp hk).2]
    · constructor
      · intro hmem
        exact absurd (mem_map_of_mem ((visit_sublist hvisit).subset hmem)) hk
      · intro hx
        split_ifs at hx with hin
        rw [hother n hk] at hx
        exact absurd ((hkeys n).mpr ⟨by rw [hx]; exact fun h => (by cases h), hin⟩) hk
  -- the traversal of the third region
  obtain ⟨idx', hvisit'⟩ := @visit_countIndex small.inorder 0 0 hsmall.represents.ordered
    (fun _ _ => Nat.zero_le _)
  obtain ⟨small'', hcount', hsmall'⟩ := hsmall.traverse hvisit'
  rw [hcount'] at hcount
  cases hcount
  have hsmallT := hsmall' _ hsmall.represents
  have hsmallSet : {i | i ≠ 0 ∧ ∃ p ∈ small.inorder, machPortIndex p.1 = i} =
      {i | size ≤ i ∧ i < nsize ∧ TreeIndex T' i} := by
    ext i
    constructor
    · rintro ⟨-, ⟨n, x⟩, hmem, rfl⟩
      have hx := (hsmall.represents.mem n x).mp hmem
      split_ifs at hx with hin
      exact ⟨hin.1, hin.2, n, by rw [houtside n (by omega), hx]; exact fun h => (by cases h), rfl⟩
    · rintro ⟨hge, hlt, n, hne, rfl⟩
      rw [houtside n (by omega)] at hne
      obtain ⟨x, hx⟩ := Option.ne_none_iff_exists'.mp hne
      have hpos := h.osize_pos
      refine ⟨by omega, (n, x), (hsmall.represents.mem n x).mpr ?_, rfl⟩
      rw [if_pos ⟨hge, hlt⟩]
      exact hx
  -- the tree is put together
  obtain ⟨tree₁, r₁, hj1, htree₁, -⟩ := hupper.join hsmallT (by
    intro k k' hk hk'
    split_ifs at hk hk' with ha hb
    · by_contra hge
      have := machPortIndex_mono (not_lt.mp hge)
      omega
    all_goals first | exact absurd rfl hk | exact absurd rfl hk')
  obtain ⟨tree₂, r₂, hj2, htree₂, -⟩ := htree₁.join hmoveT (by
    intro k k' hk hk'
    by_contra hge
    have hmono := machPortIndex_mono (not_lt.mp hge)
    split_ifs at hk with ha
    · apply hk'
      unfold union
      simp only
      rw [if_neg (by omega), if_neg (by omega)]
      rfl
    · exact hk rfl)
  obtain ⟨tree₃, r₃, hj3, htree₃, -⟩ := htree₂.join hignore (by
    intro k k' hk hk'
    by_contra hge
    have hmono := machPortIndex_mono (not_lt.mp hge)
    split_ifs at hk with ha
    · apply hk'
      unfold union
      simp only
      rw [if_neg (by omega), if_neg (by omega), if_neg (by omega)]
      rfl
    · exact hk rfl)
  simp only [hj1, hj2, hj3, Option.bind_some, Option.map_some, Option.some.injEq] at hrun
  subst hrun
  refine ⟨T', h', ?_, hlive, hframe.self, hframe.size.trans hsize, hframe.next, ?_⟩
  · convert htree₃ using 1
    funext n
    unfold union
    simp only
    by_cases hr1 : machPortIndex n < osize
    · rw [if_pos hr1, if_neg (by omega), if_neg (by omega), if_neg (by omega), houtside n (by omega)]
      simp
    · by_cases hr2 : machPortIndex n < size
      · rw [if_neg hr1, if_pos (by omega), if_neg (by omega), if_neg (by omega)]
        simp
      · rw [if_neg hr1, if_neg (by omega), houtside n (by omega)]
        by_cases hr3 : machPortIndex n < nsize
        · rw [if_pos (by omega), if_neg (by omega)]
          simp
        · rw [if_neg (by omega), if_pos (by omega)]
          simp
  · change 0 + Set.ncard {i | i ≠ 0 ∧ ∃ p ∈ small.inorder, machPortIndex p.1 = i} = _
    rw [Nat.zero_add, hsmallSet]

/-! ## The new free entries -/

/-- The slot is still as the growth made it. -/
def Table.blank (t : Table) (i : ℕ) : Bool := (t.entry i).ieBits = Bits.ofGen 0

theorem addFree_spec : ∀ {m a : ℕ} {t : Table} {f : ℕ} {l : List ℕ}, 0 < a → (∀ j ∈ l, j < a) →
    IndexList.Linked (update (fun i => (t.entry i).ieRequest) 0 f) 0 l →
    ∃ t' f', (List.range' a m).foldr (fun i c => addFree c i) (t, f) = (t', f') ∧ t'.size = t.size ∧
      IndexList.Linked (update (fun i => (t'.entry i).ieRequest) 0 f') 0
        ((List.range' a m).filter t.blank ++ l) ∧
      ∀ j, (t'.entry j).ieIndex = (t.entry j).ieIndex ∧
        (t'.entry j).ieObject = (t.entry j).ieObject ∧
        if j ∈ List.range' a m ∧ t.blank j then (t'.entry j).ieBits = Bits.ofGen 255
        else t'.entry j = t.entry j := by
  intro m
  induction m with
  | zero =>
    intro a t f l _ _ hl
    refine ⟨t, f, rfl, rfl, hl, ?_⟩
    intro j
    simp
  | succ m ih =>
    intro a t f l ha hla hl
    obtain ⟨t₁, f₁, hfold, hsize, hlinked, hentry⟩ := @ih (a + 1) t f l (by omega)
      (fun j hj => by have := hla j hj; omega) hl
    have hnot : a ∉ List.range' (a + 1) m := by
      intro hmem
      have := (mem_range'_1.mp hmem).1
      omega
    have hta : t₁.entry a = t.entry a := by
      have := (hentry a).2.2
      rwa [if_neg (fun hh => hnot hh.1)] at this
    rw [List.range'_succ, foldr_cons, hfold]
    by_cases hb : t.blank a = true
    · have hbits : (t₁.entry a).ieBits = Bits.ofGen 0 := by
        rw [hta]
        simpa [Table.blank] using hb
      refine ⟨t₁.setEntry a { t₁.entry a with ieBits := Bits.ofGen 255, ieRequest := f₁ }, a, ?_,
        hsize, ?_, ?_⟩
      · rw [addFree, if_pos hbits]
      · rw [filter_cons_of_pos hb, cons_append]
        have hnotl : a ∉ (List.range' (a + 1) m).filter t.blank ++ l := by
          intro hmem
          rcases mem_append.mp hmem with hmem | hmem
          · exact hnot (mem_filter.mp hmem).1
          · exact absurd (hla a hmem) (Nat.lt_irrefl _)
        apply (hlinked.push ha.ne' ha.ne' hnotl hlinked.not_mem_zero).congr
        intro j _
        by_cases hj0 : j = 0
        · rw [hj0, update_self, update_self]
        · rw [update_of_ne hj0, update_of_ne hj0]
          by_cases hja : j = a
          · subst hja
            simp [Table.setEntry]
          · rw [update_of_ne hja, update_of_ne hj0]
            simp [Table.setEntry, update_of_ne hja]
      · intro j
        by_cases hja : j = a
        · subst hja
          simp [Table.setEntry, hb, hta]
        · obtain ⟨h1, h2, h3⟩ := hentry j
          simp only [Table.setEntry, update_of_ne hja]
          refine ⟨h1, h2, ?_⟩
          simpa [hja] using h3
    · have hbits : (t₁.entry a).ieBits ≠ Bits.ofGen 0 := by
        rw [hta]
        simpa [Table.blank] using hb
      refine ⟨t₁, f₁, ?_, hsize, ?_, ?_⟩
      · rw [addFree, if_neg hbits]
      · rw [filter_cons_of_neg hb]
        exact hlinked
      · intro j
        obtain ⟨h1, h2, h3⟩ := hentry j
        refine ⟨h1, h2, ?_⟩
        by_cases hja : j = a
        · subst hja
          simp [hb, hta]
        · simpa [hja] using h3

section free
variable {osize nsize : ℕ} {s : Space} {T : TreeMap} {fl : List ℕ}

theorem addFreeEntries_spec (h : SpaceGrow osize s T fl (fun _ => False))
    (hn : s.isTable.size ≤ nsize) (hn' : nsize < 2 ^ 24)
    (hsmall : s.isTreeSmall = Set.ncard {i | s.isTable.size ≤ i ∧ i < nsize ∧ TreeIndex T i}) :
    (∃ fl', EntriesOk s.isTable.size nsize (addFreeEntries osize s.isTable).entry T fl' s.isTreeTotal
      s.isTreeSmall) ∧ (addFreeEntries osize s.isTable).size = s.isTable.size ∧
    (∀ j, ((addFreeEntries osize s.isTable).entry j).ieIndex = (s.isTable.entry j).ieIndex) ∧
    ({ s with isTable := addFreeEntries osize s.isTable } : Space).liveName T = s.liveName T := by
  have hlinked : IndexList.Linked (update (fun i => (s.isTable.entry i).ieRequest) 0
      (s.isTable.entry 0).ieRequest) 0 fl := by
    rw [update_eq_self]
    exact h.linked
  obtain ⟨t, f, hfold, hsize, hl, hentry⟩ := @addFree_spec (s.isTable.size - osize) osize s.isTable
    (s.isTable.entry 0).ieRequest fl h.osize_pos (fun j hj => ((h.free j).mp hj).2.1) hlinked
  have hrun : addFreeEntries osize s.isTable =
      t.setEntry 0 { t.entry 0 with ieRequest := f } := by
    unfold addFreeEntries
    rw [foldl_reverse, hfold]
  have hmem : ∀ j, j ∈ List.range' osize (s.isTable.size - osize) ↔
      osize ≤ j ∧ j < s.isTable.size := by
    intro j
    rw [mem_range'_1]
    have := h.osize_le
    omega
  -- the slots of the new part that are free now, and the others
  have hnew : ∀ j, osize ≤ j → j < s.isTable.size →
      (s.isTable.entry j).ieBits.type = PortType.none →
      (t.entry j).ieBits = Bits.ofGen 255 ∧ (t.entry j).ieObject = 0 := by
    intro j h1 h2 h3
    obtain ⟨hb, ho⟩ := h.blank j h1 h2 h3
    have hblank : s.isTable.blank j = true := by simp [Table.blank, hb]
    have hj := (hentry j).2.2
    rw [if_pos ⟨(hmem j).mpr ⟨h1, h2⟩, hblank⟩] at hj
    exact ⟨hj, by rw [(hentry j).2.1]; exact ho⟩
  have hold : ∀ j, (j < osize ∨ s.isTable.size ≤ j ∨
      (s.isTable.entry j).ieBits.type ≠ PortType.none) → t.entry j = s.isTable.entry j := by
    intro j hj
    have hj' := (hentry j).2.2
    rwa [if_neg] at hj'
    rintro ⟨hr, hb⟩
    obtain ⟨h1, h2⟩ := (hmem j).mp hr
    simp only [Table.blank, decide_eq_true_eq] at hb
    rcases hj with hj | hj | hj
    · omega
    · omega
    · rw [hb] at hj
      exact hj rfl
  have htype : ∀ j, (t.entry j).ieBits.type = (s.isTable.entry j).ieBits.type := by
    intro j
    by_cases hj : j < osize ∨ s.isTable.size ≤ j ∨ (s.isTable.entry j).ieBits.type ≠ PortType.none
    · rw [hold j hj]
    · simp only [not_or, not_lt, not_le, ne_eq, not_not] at hj
      rw [(hnew j hj.1 hj.2.1 hj.2.2).1, hj.2.2]
      rfl
  have hzero : ∀ j, j ≠ 0 → ((addFreeEntries osize s.isTable).entry j) = t.entry j := by
    intro j hj
    rw [hrun]
    exact update_of_ne hj ..
  have hbits : ∀ j, ((addFreeEntries osize s.isTable).entry j).ieBits = (t.entry j).ieBits := by
    intro j
    by_cases hj : j = 0
    · subst hj
      rw [hrun]
      simp [Table.setEntry]
    · rw [hzero j hj]
  have hobj : ∀ j, ((addFreeEntries osize s.isTable).entry j).ieObject = (t.entry j).ieObject := by
    intro j
    by_cases hj : j = 0
    · subst hj
      rw [hrun]
      simp [Table.setEntry]
    · rw [hzero j hj]
  have hfilter : ∀ j, j ∈ (List.range' osize (s.isTable.size - osize)).filter s.isTable.blank ↔
      osize ≤ j ∧ j < s.isTable.size ∧ (s.isTable.entry j).ieBits.type = PortType.none := by
    intro j
    rw [mem_filter, hmem]
    constructor
    · rintro ⟨⟨h1, h2⟩, hb⟩
      simp only [Table.blank, decide_eq_true_eq] at hb
      exact ⟨h1, h2, by rw [hb]; rfl⟩
    · rintro ⟨h1, h2, h3⟩
      exact ⟨⟨h1, h2⟩, by simp [Table.blank, (h.blank j h1 h2 h3).1]⟩
  refine ⟨⟨(List.range' osize (s.isTable.size - osize)).filter s.isTable.blank ++ fl, ?_⟩, ?_, ?_, ?_⟩
  · refine ⟨lt_of_lt_of_le h.osize_pos h.osize_le, hn, hn', ?_, ?_, ?_, ?_, ?_, ?_, ?_, h.tree, h.total,
      hsmall⟩
    · rw [hbits, hold 0 (.inl h.osize_pos)]
      exact h.reserved
    · apply hl.congr
      intro j _
      by_cases hj : j = 0
      · subst hj
        rw [hrun]
        simp [Table.setEntry]
      · rw [hzero j hj, update_of_ne hj]
    · refine nodup_append.mpr ⟨(nodup_range').filter _, h.nodup, ?_⟩
      rintro j hj k hk rfl
      have h1 := ((hfilter j).mp hj).1
      have h2 := ((h.free j).mp hk).2.1
      omega
    · intro j
      rw [mem_append, hfilter, h.free, hbits, htype]
      have hle := h.osize_le
      have hpos := h.osize_pos
      constructor
      · rintro (⟨h1, h2, h3⟩ | ⟨h1, h2, h3⟩)
        · exact ⟨by omega, h2, h3⟩
        · exact ⟨h1, by omega, h3⟩
      · rintro ⟨h1, h2, h3⟩
        by_cases hj : j < osize
        · exact .inr ⟨h1, hj, h3⟩
        · exact .inl ⟨by omega, h2, h3⟩
    · intro j hj
      rw [hbits, hobj]
      rcases mem_append.mp hj with hj | hj
      · obtain ⟨h1, h2, h3⟩ := (hfilter j).mp hj
        obtain ⟨hb, ho⟩ := hnew j h1 h2 h3
        exact ⟨by rw [hb]; rfl, ho⟩
      · rw [hold j (.inl ((h.free j).mp hj).2.1)]
        exact h.freeBits j hj
    · intro j hj
      have hc := h.collision j hj
      rw [hbits]
      have hindex : (∃ n, T n ≠ none ∧ machPortIndex n = j ∧ ¬ False) ↔ TreeIndex T j := by
        simp [TreeIndex]
      rw [hindex] at hc
      rw [← hc]
      by_cases hj' : j < osize ∨ s.isTable.size ≤ j ∨
          (s.isTable.entry j).ieBits.type ≠ PortType.none
      · rw [hold j hj']
      · simp only [not_or, not_lt, not_le, ne_eq, not_not] at hj'
        rw [(hnew j hj'.1 hj'.2.1 hj'.2.2).1, (h.blank j hj'.1 hj'.2.1 hj'.2.2).1]
        exact Iff.rfl
    · intro n hT hp hlt
      have hused : (s.isTable.entry (machPortIndex n)).ieBits.type ≠ PortType.none := by
        intro hnone
        by_cases hlo : machPortIndex n < osize
        · have hfree := (h.free _).mpr ⟨hp, hlo, hnone⟩
          have hc := (h.collision _ hlt).mpr ⟨n, hT, rfl, fun hf => hf⟩
          rw [(h.freeBits _ hfree).1] at hc
          cases hc
        · exact h.blankTree _ (Nat.le_of_not_lt hlo) hlt hnone n hT rfl
      rw [hbits, hold _ (.inr (.inr hused))]
      exact h.apart n hT hp hlt hused
  · rw [hrun]
    exact hsize
  · intro j
    rw [← (hentry j).1]
    by_cases hj : j = 0
    · subst hj
      rw [hrun]
      simp [Table.setEntry]
    · rw [hzero j hj]
  · funext n
    by_cases hnamed : s.named n = true
    · obtain ⟨hp, -, hused, -⟩ := Space.named_iff.mp hnamed
      have heq : (addFreeEntries osize s.isTable).entry (machPortIndex n) =
          s.isTable.entry (machPortIndex n) := by
        rw [hzero _ hp.ne', hold _ (.inr (.inr hused))]
      refine Space.liveName_congr ?_ (by rw [heq]) (by rw [heq]) (fun _ => by rw [heq]) rfl
      rw [hrun]
      exact hsize
    · have hnamed' : ¬ ({ s with isTable := addFreeEntries osize s.isTable } : Space).named n = true := by
        intro hh
        obtain ⟨hp, hlt, hused, hg⟩ := Space.named_iff.mp hh
        simp only [hbits, htype] at hused hg
        rw [hold _ (.inr (.inr hused))] at hg
        apply hnamed
        apply Space.named_iff.mpr
        refine ⟨hp, ?_, hused, hg⟩
        rw [hrun] at hlt
        rw [← hsize]
        exact hlt
      rw [Space.liveName, if_neg hnamed', Space.liveName, if_neg hnamed]

end free

/-! ## The whole growth -/

theorem TableSizes.le_last (sizes : TableSizes) {i : ℕ} (hi : i ≤ sizes.last + 1) :
    sizes.its i ≤ sizes.its sizes.last := by
  have hmono : ∀ d, d ≤ sizes.last → sizes.its (sizes.last - d) ≤ sizes.its sizes.last := by
    intro d
    induction d with
    | zero => exact fun _ => Nat.le_refl _
    | succ d ih =>
      intro hd
      have hstep := sizes.strict (sizes.last - (d + 1)) (by omega)
      rw [show sizes.last - (d + 1) + 1 = sizes.last - d by omega] at hstep
      have := ih (by omega)
      omega
  by_cases hl : i = sizes.last + 1
  · rw [hl, sizes.final]
  · have := hmono (sizes.last - i) (by omega)
    rwa [show sizes.last - (sizes.last - i) = i by omega] at this

theorem TableSizes.lt_bound (sizes : TableSizes) {i : ℕ} (hi : i ≤ sizes.last + 1) :
    sizes.its i < 2 ^ 24 :=
  lt_of_le_of_lt (sizes.le_last hi) sizes.bound

theorem TableSizes.le_succ (sizes : TableSizes) {i : ℕ} (hi : i ≤ sizes.last) :
    sizes.its i ≤ sizes.its (i + 1) := by
  by_cases hl : i = sizes.last
  · rw [hl, sizes.final]
  · exact (sizes.strict i (by omega)).le

theorem rehash_same {osize : ℕ} {t t' : Table} (h : rehash osize t = some t') : SameEntries t t' := by
  unfold rehash at h
  generalize List.range osize = is at h
  induction is generalizing t with
  | nil =>
    cases h
    exact SameEntries.refl _
  | cons i is ih =>
    rw [foldlM_cons] at h
    obtain ⟨t₁, ht₁, h⟩ := Option.bind_eq_some_iff.mp h
    refine SameEntries.trans ?_ (ih h)
    split at ht₁
    · exact ipcHashLocalInsert_same ht₁
    · cases ht₁
      exact SameEntries.refl _

section table
variable {sizes : TableSizes} {v v' : SpaceHash} {T : TreeMap} {fl : List ℕ}

theorem SpaceOk.grown {s s' : Space} (h : SpaceOk sizes s T fl) {size : ℕ}
    (hle : s.isTable.size ≤ size) (hlt : size < 2 ^ 24)
    (htable : SameEntries (s.isTable.grown size) s'.isTable)
    (htotal : s'.isTreeTotal = s.isTreeTotal) :
    SpaceGrow s.isTable.size s' T fl (fun n => T n ≠ none ∧ s.isTable.size ≤ machPortIndex n ∧
      machPortIndex n < size) ∧ s'.liveName T = s.liveName T := by
  have hsize : s'.isTable.size = size := htable.size
  have hold : ∀ i, i < s.isTable.size → (s'.isTable.entry i).ieBits = (s.isTable.entry i).ieBits ∧
      (s'.isTable.entry i).ieObject = (s.isTable.entry i).ieObject ∧
      (s'.isTable.entry i).ieRequest = (s.isTable.entry i).ieRequest := by
    intro i hi
    rw [htable.bits, htable.object, htable.request]
    simp [Table.grown, hi]
  have hnew : ∀ i, s.isTable.size ≤ i → i < size → (s'.isTable.entry i).ieBits = Bits.ofGen 0 ∧
      (s'.isTable.entry i).ieObject = 0 := by
    intro i hi hi'
    rw [htable.bits, htable.object]
    simp [Table.grown, Nat.not_lt.mpr hi, hi', Entry.zero, Bits.ofGen]
  refine ⟨?_, ?_⟩
  · unfold SpaceGrow
    rw [hsize, htotal]
    refine ⟨h.entries.size_pos, hle, hlt, ?_, ?_, h.entries.nodup, ?_, ?_, ?_, ?_, ?_, ?_,
      h.entries.tree, h.entries.total, fun n hn => hn.2⟩
    · rw [(hold 0 h.entries.size_pos).1]
      exact h.entries.reserved
    · apply h.entries.linked.congr
      intro j hj
      apply (hold j _).2.2
      rcases hj with rfl | hj
      · exact h.entries.size_pos
      · exact ((h.entries.free j).mp hj).2.1
    · intro i
      rw [h.entries.free]
      constructor
      · rintro ⟨h1, h2, h3⟩
        exact ⟨h1, h2, by rw [(hold i h2).1]; exact h3⟩
      · rintro ⟨h1, h2, h3⟩
        rw [(hold i h2).1] at h3
        exact ⟨h1, h2, h3⟩
    · intro i hi
      have hi' := ((h.entries.free i).mp hi).2.1
      rw [(hold i hi').1, (hold i hi').2.1]
      exact h.entries.freeBits i hi
    · intro i h1 h2 _
      exact hnew i h1 h2
    · rintro i h1 h2 _ n hn rfl
      exact ⟨hn, h1, h2⟩
    · intro i hi
      by_cases hi' : i < s.isTable.size
      · rw [(hold i hi').1, h.entries.collision i hi']
        constructor
        · rintro ⟨n, hn, hni⟩
          exact ⟨n, hn, hni, fun hp => by omega⟩
        · rintro ⟨n, hn, hni, -⟩
          exact ⟨n, hn, hni⟩
      · rw [(hnew i (Nat.le_of_not_lt hi') hi).1]
        constructor
        · exact fun h => (by cases h)
        · rintro ⟨n, hn, hni, hp⟩
          exact absurd ⟨hn, by omega, by omega⟩ hp
    · intro n hn hp hl hused
      by_cases hi' : machPortIndex n < s.isTable.size
      · rw [(hold _ hi').1]
        exact h.entries.apart n hn hp hi'
      · rw [(hnew _ (Nat.le_of_not_lt hi') hl).1] at hused
        exact absurd rfl hused
  · funext n
    have hnamed : s'.named n = true ↔ s.named n = true := by
      rw [Space.named_iff, Space.named_iff, hsize]
      by_cases hi' : machPortIndex n < s.isTable.size
      · rw [(hold _ hi').1]
        constructor
        · rintro ⟨h1, -, h3⟩
          exact ⟨h1, hi', h3⟩
        · rintro ⟨h1, -, h3⟩
          exact ⟨h1, by omega, h3⟩
      · constructor
        · rintro ⟨-, h2, h3, -⟩
          rw [(hnew _ (Nat.le_of_not_lt hi') h2).1] at h3
          exact absurd rfl h3
        · rintro ⟨-, h2, -⟩
          exact absurd h2 hi'
    unfold Space.liveName
    by_cases hn : s.named n = true
    · have hi' := (Space.named_iff.mp hn).2.1
      rw [if_pos hn, if_pos (hnamed.mpr hn)]
      unfold Entry.contents
      rw [(hold _ hi').1, (hold _ hi').2.1, (hold _ hi').2.2]
    · rw [if_neg hn, if_neg (fun hh => hn (hnamed.mp hh))]

theorem growTo_spec (h : SpaceOk sizes v.space T fl) {its : ℕ} (hits : its ≤ sizes.last)
    (hle : v.space.isTable.size ≤ sizes.its its) (hrun : growTo sizes v its = some v') :
    ∃ T' fl', SpaceOk sizes v'.space T' fl' ∧ v'.space.liveName T' = v.space.liveName T ∧
      v'.space.isTableNext = its + 1 := by
  have hsize24 := sizes.lt_bound (show its ≤ sizes.last + 1 by omega)
  have hnsize24 := sizes.lt_bound (show its + 1 ≤ sizes.last + 1 by omega)
  have hnext := sizes.le_succ hits
  unfold growTo at hrun
  simp only at hrun
  obtain ⟨t, hrehash, hrun⟩ := Option.bind_eq_some_iff.mp hrun
  have htable := rehash_same hrehash
  obtain ⟨v₁, hmig, rfl⟩ := Option.map_eq_some_iff.mp hrun
  have htotal : ({ v.space with isTable := t, isTableNext := its + 1 } : Space).isTreeTotal =
      v.space.isTreeTotal := rfl
  obtain ⟨hgrow, hlive⟩ := h.grown hle hsize24 htable htotal
  have hsize : t.size = sizes.its its := htable.size
  have hmoved : ∃ T', SpaceGrow v.space.isTable.size v₁.space T' fl (fun _ => False) ∧
      v₁.space.isTree.Holds T' ∧ v₁.space.liveName T' = v.space.liveName T ∧
      v₁.space.isTable.size = sizes.its its ∧ v₁.space.isTableNext = its + 1 ∧
      v₁.space.isTreeSmall = Set.ncard {i | sizes.its its ≤ i ∧ i < sizes.its (its + 1) ∧
        TreeIndex T' i} := by
    split at hmig
    · obtain ⟨T', h1, h2, h3, -, h5, h6, h7⟩ := migrate_spec
        (v := ⟨{ v.space with isTable := t, isTableNext := its + 1 }, v.global⟩) hgrow h.holds hsize
        hnext hnsize24 hmig
      exact ⟨T', h1, h2, h3.trans hlive, h5, h6, h7⟩
    · next hzero =>
      cases hmig
      have hnone : ∀ n, T n = none := by
        intro n
        by_contra hne
        exact hzero (h.total_pos hne)
      have hpending : (fun n => T n ≠ none ∧ v.space.isTable.size ≤ machPortIndex n ∧
          machPortIndex n < sizes.its its) = fun _ => False := by
        funext n
        simp [hnone n]
      rw [hpending] at hgrow
      refine ⟨T, hgrow, h.holds, hlive, hsize, rfl, ?_⟩
      have hindex : ∀ i, ¬ TreeIndex T i := fun i hi => by
        obtain ⟨n, hn, -⟩ := hi
        exact hn (hnone n)
      change v.space.isTreeSmall = _
      rw [h.entries.small]
      simp [hindex]
  obtain ⟨T', hg, hholds, hlive', hsize', hnext', hsmall⟩ := hmoved
  have hle' : v.space.isTable.size ≤ v₁.space.isTable.size := hg.osize_le
  have hnsize : v₁.space.isTable.size ≤ sizes.its (its + 1) := by
    rw [hsize']
    exact hnext
  obtain ⟨⟨fl', hok⟩, hfsize, -, hflive⟩ := addFreeEntries_spec hg hnsize hnsize24
    (by rw [hsize']; exact hsmall)
  refine ⟨T', fl', ⟨?_, ?_, ?_, hholds, ?_⟩, ?_, hnext'⟩
  · change 0 < v₁.space.isTableNext
    omega
  · change v₁.space.isTableNext ≤ _
    omega
  · change _ = sizes.its (v₁.space.isTableNext - 1)
    rw [hnext']
    exact hfsize.trans hsize'
  · change EntriesOk (addFreeEntries v.space.isTable.size v₁.space.isTable).size
      (sizes.its v₁.space.isTableNext) _ _ _ _ _
    rw [hnext', hfsize]
    exact hok
  · exact hflive.trans hlive'

theorem findSize_spec (target : ℕ) : ∀ {fuel its psize : ℕ}, 0 < its → its ≤ sizes.last + 1 →
    sizes.last + 1 < its + fuel → psize = sizes.its (its - 1) →
    ∃ its', (findSize sizes target fuel psize its).2 = its' ∧ its' ≤ sizes.last + 1 ∧
      (findSize sizes target fuel psize its).1 = sizes.its (its' - 1) ∧
      (sizes.its (its' - 1) ≠ sizes.its its' → target ≤ sizes.its its') := by
  intro fuel
  induction fuel with
  | zero =>
    intro its psize _ hle hfuel _
    omega
  | succ fuel ih =>
    intro its psize hpos hle hfuel hp
    rw [findSize]
    split
    · next hcond =>
      have hne : its ≠ sizes.last + 1 := by
        rintro rfl
        rw [sizes.final] at hcond
        exact hcond.1 hp
      exact @ih (its + 1) (sizes.its its) (by omega) (by omega) (by omega) rfl
    · next hcond =>
      exact ⟨its, rfl, hle, hp, fun hne => Nat.not_lt.mp fun hlt => hcond ⟨hp ▸ hne, hlt⟩⟩

/-- A round of `ipc_entry_grow_table` changes nothing, or it grows the table to a size of the
array, and another round may follow. The size is the next one, or it holds the target. -/
theorem growTable_round {mem : ℕ → Bool} {target : Option ℕ} {fuel : ℕ} {kr : KernReturn}
    (h : SpaceOk sizes v.space T fl)
    (hrun : ipcEntryGrowTable sizes mem target (fuel + 1) v = some (v', kr)) :
    (v' = v ∧ (kr = .success → ∃ n, target = some n ∧ n ≤ v.space.isTable.size)) ∨
    ∃ its v₁, its ≤ sizes.last ∧ v.space.isTable.size < sizes.its its ∧
      (target = none → its = v.space.isTableNext) ∧ (∀ n, target = some n → n ≤ sizes.its its) ∧
      growTo sizes v its = some v₁ ∧
      (v' = v₁ ∨ ipcEntryGrowTable sizes mem target fuel v₁ = some (v', kr)) := by
  have hpos := h.next_pos
  have hsearch : ∃ its psize, chooseSize sizes target v.space.isTableNext = (psize, its) ∧
      its ≤ sizes.last + 1 ∧ psize = sizes.its (its - 1) ∧ (target = none → its = v.space.isTableNext) ∧
      ∀ n, target = some n → psize ≠ sizes.its its → n ≤ sizes.its its := by
    cases target with
    | none => exact ⟨_, _, rfl, h.next_le, rfl, fun _ => rfl, fun n hn => by cases hn⟩
    | some target =>
      obtain ⟨its, h1, h2, h3, h4⟩ := @findSize_spec sizes target (sizes.last + 2)
        v.space.isTableNext _ hpos h.next_le (by omega) rfl
      refine ⟨its, _, Prod.ext rfl h1, h2, h3, fun hn => (by cases hn), fun n hn hne => ?_⟩
      cases hn
      exact h4 (h3 ▸ hne)
  obtain ⟨its, psize, hfind, hle, hpsize, hnext, htarget⟩ := hsearch
  rw [ipcEntryGrowTable, hfind] at hrun
  by_cases hany : target.any (· ≤ sizes.its (v.space.isTableNext - 1)) = true
  · rw [if_pos hany] at hrun
    cases hrun
    obtain ⟨n, hn, hn'⟩ := (Option.any_eq_true _ _).mp hany
    exact .inl ⟨rfl, fun _ => ⟨n, hn, h.size ▸ of_decide_eq_true hn'⟩⟩
  rw [if_neg hany] at hrun
  by_cases hpne : target.isSome = true ∧ psize = sizes.its its
  · rw [if_pos hpne] at hrun
    cases hrun
    exact .inl ⟨rfl, fun hkr => by cases hkr⟩
  rw [if_neg hpne] at hrun
  by_cases hsne : sizes.its (v.space.isTableNext - 1) = sizes.its its
  · rw [if_pos hsne] at hrun
    cases hrun
    exact .inl ⟨rfl, fun hkr => by cases hkr⟩
  rw [if_neg hsne] at hrun
  by_cases hbounds : ¬ (sizes.its (v.space.isTableNext - 1) < sizes.its its ∧ sizes.its its ≤ sizes.its (its + 1))
  · rw [if_pos hbounds] at hrun
    cases hrun
  rw [if_neg hbounds] at hrun
  by_cases hmem : mem its = false
  · rw [if_pos hmem] at hrun
    cases hrun
    exact .inl ⟨rfl, fun hkr => by cases hkr⟩
  rw [if_neg hmem] at hrun
  by_cases hcur : v.space.isTable.size ≠ sizes.its (v.space.isTableNext - 1)
  · rw [if_pos hcur] at hrun
    cases hrun
  rw [if_neg hcur] at hrun
  obtain ⟨v₁, hgrow, hrun⟩ := Option.bind_eq_some_iff.mp hrun
  have hcur' : v.space.isTable.size = sizes.its (v.space.isTableNext - 1) := not_not.mp hcur
  have hlast : its ≤ sizes.last := by
    by_contra hgt
    have hits : its = sizes.last + 1 := by omega
    have hp : psize = sizes.its its := by
      rw [hpsize, hits, sizes.final]
      rfl
    cases target with
    | none =>
      cases hfind
      exact hsne hp
    | some target => exact hpne ⟨rfl, hp⟩
  have hbounds' := not_not.mp hbounds
  refine .inr ⟨its, v₁, hlast, by omega, hnext,
    fun n hn => htarget n hn (fun hp => hpne ⟨by rw [hn]; rfl, hp⟩), hgrow, ?_⟩
  split at hrun
  · exact .inr hrun
  · cases hrun
    exact .inl rfl

theorem SpaceOk.growTable {mem : ℕ → Bool} {target : Option ℕ} : ∀ {fuel : ℕ} {v v' : SpaceHash}
    {T : TreeMap} {fl : List ℕ} {kr : KernReturn}, SpaceOk sizes v.space T fl →
    ipcEntryGrowTable sizes mem target fuel v = some (v', kr) →
    ∃ T' fl', SpaceOk sizes v'.space T' fl' ∧ v'.space.liveName T' = v.space.liveName T := by
  intro fuel
  induction fuel with
  | zero =>
    intro v v' T fl kr _ hrun
    cases hrun
  | succ fuel ih =>
    intro v v' T fl kr h hrun
    rcases growTable_round h hrun with ⟨rfl, -⟩ | ⟨its, v₁, hits, hlt, -, -, hgrow, hrest⟩
    · exact ⟨T, fl, h, rfl⟩
    · obtain ⟨T₁, fl₁, hok₁, hlive₁, -⟩ := growTo_spec h hits (Nat.le_of_lt hlt) hgrow
      rcases hrest with rfl | hrest
      · exact ⟨T₁, fl₁, hok₁, hlive₁⟩
      · obtain ⟨T', fl', hok', hlive'⟩ := ih hok₁ hrest
        exact ⟨T', fl', hok', hlive'.trans hlive₁⟩

theorem SpaceOk.growTable_size {mem : ℕ → Bool} {target : Option ℕ} : ∀ {fuel : ℕ} {v v' : SpaceHash}
    {T : TreeMap} {fl : List ℕ}, SpaceOk sizes v.space T fl →
    ipcEntryGrowTable sizes mem target fuel v = some (v', .success) →
    (target = none → v.space.isTable.size < v'.space.isTable.size ∧
      sizes.its v.space.isTableNext ≤ v'.space.isTable.size) ∧
    ∀ n, target = some n → n ≤ v'.space.isTable.size := by
  intro fuel
  induction fuel with
  | zero =>
    intro v v' T fl _ hrun
    cases hrun
  | succ fuel ih =>
    intro v v' T fl h hrun
    rcases growTable_round h hrun with ⟨rfl, hkr⟩ | ⟨its, v₁, hits, hlt, hnext, htarget, hgrow, hrest⟩
    · obtain ⟨n, rfl, hn⟩ := hkr rfl
      refine ⟨fun hnone => (by cases hnone), fun n' hn' => ?_⟩
      cases hn'
      exact hn
    · obtain ⟨T₁, fl₁, hok₁, -, hnext₁⟩ := growTo_spec h hits (Nat.le_of_lt hlt) hgrow
      have hsize : v₁.space.isTable.size = sizes.its its := by
        rw [hok₁.size, hnext₁, Nat.add_sub_cancel]
      rcases hrest with rfl | hrest
      · rw [hsize]
        exact ⟨fun hnone => ⟨hlt, by rw [hnext hnone]⟩, htarget⟩
      · obtain ⟨hgrown, hheld⟩ := ih hok₁ hrest
        refine ⟨fun hnone => ?_, hheld⟩
        have hmore := (hgrown hnone).1
        rw [hsize] at hmore
        rw [hnext hnone] at hlt hmore
        exact ⟨by omega, by omega⟩

end table

end Darwin.Ipc
