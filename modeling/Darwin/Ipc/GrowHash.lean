import Darwin.Ipc.EntryRuns
import Darwin.Ipc.ReverseHash

/-! # Growing the table keeps the reverse hash

The local hash table is built again for the old entries, and each tree entry that moves into
a new slot takes its place in the local hash table instead of the global one.
-/
namespace Darwin.Ipc
open Darwin.Lib Darwin.Lib.SearchTree Function List

section rehash
variable {sizes : TableSizes} {s s' : Space} {T : TreeMap} {fl : List ℕ} {rev : RevMap} {size : ℕ}

theorem grown_named (hle : s.isTable.size ≤ size)
    (htable : SameEntries (s.isTable.grown size) s'.isTable) : s'.named = s.named := by
  rw [SameEntries.named (s := { s with isTable := s.isTable.grown size }) htable]
  funext n
  rw [Bool.eq_iff_iff, Space.named_iff, Space.named_iff]
  change 0 < machPortIndex n ∧ machPortIndex n < size ∧ _ ↔ _
  by_cases hi : machPortIndex n < s.isTable.size
  · simp only [Table.grown, hi, if_true, true_and]
    constructor
    · rintro ⟨h1, -, h2⟩
      exact ⟨h1, h2⟩
    · rintro ⟨h1, h2⟩
      exact ⟨h1, lt_of_lt_of_le hi hle, h2⟩
  · by_cases hi' : machPortIndex n < size
    · simp [Table.grown, hi, hi', Entry.zero]
    · simp [hi, hi']

theorem SendOk.slot (hs : SendOk (s.liveName T) rev) (h : SpaceOk sizes s T fl) {i : ℕ}
    (hi : i < s.isTable.size) (htype : (s.isTable.entry i).ieBits.type = PortType.sendRight) :
    0 < i ∧ (s.isTable.entry i).ieObject ≠ 0 ∧ ∃ n, rev (s.isTable.entry i).ieObject = some n ∧
      s.named n = true ∧ machPortIndex n = i := by
  have hne : (s.isTable.entry i).ieBits.type ≠ PortType.none := by
    rw [htype]
    decide
  have hpos := h.entries.pos_of_used hne
  have h24 : i < 2 ^ 24 := by
    have h1 := h.entries.size_le
    have h2 := h.entries.size_lt
    omega
  have hidx := machPortIndex_make h24 (s.isTable.entry i).ieBits.gen
  have hnamed : s.named (machPortMake i (s.isTable.entry i).ieBits.gen) = true := by
    rw [Space.named_iff, hidx, machPortGen_make h24]
    exact ⟨hpos, hi, hne, rfl⟩
  have hlive : s.liveName T (machPortMake i (s.isTable.entry i).ieBits.gen) =
      some (s.isTable.entry i).contents := by
    rw [Space.liveName, if_pos hnamed, hidx]
  exact ⟨hpos, hs.notNull _ _ hlive htype, _, (hs.mem _ _).mpr ⟨_, hlive, htype, rfl⟩, hnamed, hidx⟩

theorem SendOk.type_of_slot (hs : SendOk (s.liveName T) rev) {o i : ℕ}
    (hi : s.slotOf rev o = some i) : (s.isTable.entry i).ieBits.type = PortType.sendRight ∧
      (s.isTable.entry i).ieObject = o ∧ i < s.isTable.size := by
  obtain ⟨n, hn, hnamed, rfl⟩ := slotOf_eq_some.mp hi
  obtain ⟨c, hc, htype, hobj⟩ := (hs.mem o n).mp hn
  rw [Space.liveName, if_pos hnamed] at hc
  cases hc
  exact ⟨htype, hobj, (Space.named_iff.mp hnamed).2.1⟩

theorem rehash_prefix (h : SpaceOk sizes s T fl) (hs : SendOk (s.liveName T) rev)
    (hle : s.isTable.size ≤ size) : ∀ k ≤ s.isTable.size, ∃ t,
      (List.range k).foldlM (fun t i =>
        if (t.entry i).ieBits.type = PortType.sendRight then
          ipcHashLocalInsert t (t.entry i).ieObject i
        else some t) (s.isTable.grown size) = some t ∧ SameEntries (s.isTable.grown size) t ∧
      HashOk t (fun o => (s.slotOf rev o).filter (fun i => i < k)) := by
  intro k
  induction k with
  | zero =>
    intro _
    refine ⟨_, rfl, SameEntries.refl _, ?_⟩
    have hfresh : HashState.Fresh ⟨s.isTable.grown size, fun o => (s.slotOf rev o).filter (fun i => i < 0)⟩ := by
      refine ⟨lt_of_lt_of_le h.entries.size_pos hle, ?_, ?_⟩
      · intro i hi
        change ((s.isTable.grown size).entry i).ieIndex = 0
        have hi' : i < size := hi
        by_cases hold : i < s.isTable.size
        · simp [Table.grown, hold]
        · simp [Table.grown, hold, hi', Entry.zero]
      · intro o
        simp
    exact hfresh.hashOk
  | succ k ih =>
    intro hk
    obtain ⟨t, hrun, hsame, hok⟩ := ih (by omega)
    have hkold : k < s.isTable.size := hk
    have hbits : (t.entry k).ieBits = (s.isTable.entry k).ieBits ∧
        (t.entry k).ieObject = (s.isTable.entry k).ieObject := by
      rw [hsame.bits, hsame.object]
      simp [Table.grown, hkold]
    rw [range_succ, foldlM_append, hrun]
    simp only [foldlM_cons, foldlM_nil, Option.bind_eq_bind, Option.bind_some]
    rw [hbits.1, hbits.2]
    by_cases htype : (s.isTable.entry k).ieBits.type = PortType.sendRight
    · obtain ⟨hpos, hnull, n, hn, hnamed, hni⟩ := hs.slot h hkold htype
      have hslot : s.slotOf rev (s.isTable.entry k).ieObject = some k :=
        slotOf_eq_some.mpr ⟨n, hn, hnamed, hni⟩
      obtain ⟨t', hins, hsame', hok'⟩ := hok.insert
        (⟨hnull, hpos, by rw [hsame.size]; exact lt_of_lt_of_le hkold hle, hbits.2, by
          simp [hslot]⟩ : HashState.Inserts _ (s.isTable.entry k).ieObject k)
      refine ⟨t', ?_, hsame.trans hsame', ?_⟩
      · rw [if_pos htype, hins]
        rfl
      · convert hok' using 1
        funext o
        by_cases ho : o = (s.isTable.entry k).ieObject
        · rw [ho, update_self, hslot]
          simp
        · rw [update_of_ne ho]
          cases hi : s.slotOf rev o with
          | none => rfl
          | some i =>
            -- the index is the one of another object
            have hik : i ≠ k := by
              rintro rfl
              exact ho (hs.type_of_slot hi).2.1.symm
            have hlt : (i < k + 1) = (i < k) := by
              rw [eq_iff_iff]
              omega
            simp only [Option.filter_some, hlt]
    · refine ⟨t, ?_, hsame, ?_⟩
      · rw [if_neg htype]
        rfl
      · convert hok using 1
        funext o
        cases hi : s.slotOf rev o with
        | none => rfl
        | some i =>
          have hik : i ≠ k := by
            rintro rfl
            exact htype (hs.type_of_slot hi).1
          have hlt : (i < k + 1) = (i < k) := by
            rw [eq_iff_iff]
            omega
          simp only [Option.filter_some, hlt]

theorem rehash_spec (h : SpaceOk sizes s T fl) (hs : SendOk (s.liveName T) rev)
    (hle : s.isTable.size ≤ size) : ∃ t, rehash s.isTable.size (s.isTable.grown size) = some t ∧
      SameEntries (s.isTable.grown size) t ∧ HashOk t (s.slotOf rev) := by
  obtain ⟨t, hrun, hsame, hok⟩ := rehash_prefix h hs hle _ (Nat.le_refl _)
  refine ⟨t, hrun, hsame, ?_⟩
  convert hok using 1
  funext o
  cases hi : s.slotOf rev o with
  | none => rfl
  | some i =>
    have hlt := (hs.type_of_slot hi).2.2
    simp only [Option.filter_some, hlt, decide_true, if_true]

end rehash

/-! ## The tree entries that move -/

section move
variable {osize : ℕ} {v : SpaceHash} {T : TreeMap} {fl : List ℕ} {pending : MachPort → Prop}
  {rev : RevMap}

theorem setCollision_slots (t : Table) (index : ℕ) (b : Bool) :
    (t.setCollision index b).slots = t.slots := by
  funext i
  by_cases hi : i = index
  · subst hi
    simp [Table.setCollision, Table.setEntry, Table.slots]
  · simp [Table.setCollision, Table.setEntry, Table.slots, update_of_ne hi]

theorem setCollision_named (v : SpaceHash) (index : ℕ) (b : Bool) :
    (v.setTable (v.space.isTable.setCollision index b)).space.named = v.space.named := by
  funext n
  have hs := setCollision_contents v.space.isTable index b (machPortIndex n)
  unfold Space.named
  rw [show ((v.setTable (v.space.isTable.setCollision index b)).space.isTable.entry
      (machPortIndex n)).ieBits.type = _ from congrArg Contents.type hs.1,
    show ((v.setTable (v.space.isTable.setCollision index b)).space.isTable.entry
      (machPortIndex n)).ieBits.gen = _ from hs.2]
  rfl

theorem ReverseOk.setCollision (h : ReverseOk v rev) (index : ℕ) (b : Bool) :
    ReverseOk (v.setTable (v.space.isTable.setCollision index b)) rev := by
  refine h.change rfl rfl rfl rfl (setCollision_slots _ _ _)
    (fun _ n _ => by rw [setCollision_named]) ?_
  intro _ n _ _
  exact congrArg Contents.object (setCollision_contents v.space.isTable index b (machPortIndex n)).1

theorem moveEntry_hash {n : MachPort} {x : Entry} (h : SpaceGrow osize v.space T fl pending)
    (hn : pending n) (hT : T n = some x) (hs : SendOk (v.space.liveName T) rev)
    (hr : ReverseOk v rev) : ∃ v' del, moveEntry osize v n x = some (v', del) ∧ ReverseOk v' rev := by
  obtain ⟨hge, hlt⟩ := h.pending_new n hn
  have hpos : 0 < machPortIndex n := lt_of_lt_of_le h.osize_pos hge
  have hTne : T n ≠ none := by
    rw [hT]
    exact fun h => (by cases h)
  obtain ⟨hvalid, hg, hc, ht⟩ := h.tree n x hT
  have hnot : ¬ v.space.named n = true := by
    intro hnamed
    obtain ⟨h1, h2, h3, h4⟩ := Space.named_iff.mp hnamed
    exact h.apart n hTne h1 h2 h3 h4
  have hlive : v.space.liveName T n = some x.contents := by
    rw [Space.liveName, if_neg hnot, hT]
    rfl
  unfold moveEntry
  simp only [hge, hlt, true_and, if_true]
  by_cases hbits : (v.space.isTable.entry (machPortIndex n)).ieBits = Bits.ofGen 0
  · have hblank : (v.space.isTable.entry (machPortIndex n)).ieBits.type = PortType.none := by
      rw [hbits]
      rfl
    rw [if_neg (not_not.mpr hbits), if_neg (by rw [PortType.isNone_eq_true]; exact ht)]
    -- the slot with the entry in it
    obtain ⟨t, ht'⟩ : ∃ t, t = v.space.isTable.setEntry (machPortIndex n)
        { v.space.isTable.entry (machPortIndex n) with
          ieBits := { x.ieBits with gen := x.ieBits.gen ||| machPortGen n },
          ieObject := x.ieObject, ieRequest := x.ieRequest } := ⟨_, rfl⟩
    have hother : ∀ i, i ≠ machPortIndex n → t.entry i = v.space.isTable.entry i := by
      intro i hi
      rw [ht']
      exact update_of_ne hi ..
    have hself : (t.entry (machPortIndex n)).ieBits = { x.ieBits with gen := machPortGen n } ∧
        (t.entry (machPortIndex n)).ieObject = x.ieObject ∧
        (t.entry (machPortIndex n)).ieIndex = (v.space.isTable.entry (machPortIndex n)).ieIndex := by
      rw [ht']
      simp [Table.setEntry, hg]
    have hsize : t.size = v.space.isTable.size := by
      rw [ht']
      rfl
    obtain ⟨v', hhome, hok⟩ := hr.rehome hsize
      (by
        funext i
        by_cases hi : i = machPortIndex n
        · rw [hi]
          exact hself.2.2
        · unfold Table.slots
          rw [hother i hi])
      (by
        intro o k _ hkn
        by_cases hki : machPortIndex k = machPortIndex n
        · have h1 : ¬ v.space.named k = true := by
            intro hnamed
            have := (Space.named_iff.mp hnamed).2.2.1
            rw [hki] at this
            exact this hblank
          have h2 : ¬ (v.setTable t).space.named k = true := by
            intro hnamed
            have hgen := (Space.named_iff.mp hnamed).2.2.2
            rw [hki, show (v.setTable t).space.isTable = t from rfl, hself.1] at hgen
            exact hkn (machPort_ext hki hgen.symm)
          rw [Bool.not_eq_true] at h1 h2
          rw [h1, h2]
        · unfold Space.named
          rw [show (v.setTable t).space.isTable = t from rfl, hother _ hki, hsize])
      (by
        intro o k _ hnamed
        rw [hother]
        intro hki
        have := (Space.named_iff.mp hnamed).2.2.1
        rw [hki] at this
        exact this hblank)
      hnot
      (by
        refine Space.named_iff.mpr ⟨hpos, ?_, ?_, ?_⟩
        · change machPortIndex n < t.size
          rw [hsize]
          exact hlt
        · rw [show (v.setTable t).space.isTable = t from rfl, hself.1]
          exact ht
        · rw [show (v.setTable t).space.isTable = t from rfl, hself.1])
      hself.2.1 (hs.notNull n _ hlive)
      (fun htype => (hs.mem _ n).mpr ⟨_, hlive, htype, rfl⟩)
      (by
        intro htype o ho
        obtain ⟨c, hc, hct, -⟩ := (hs.mem o n).mp ho
        rw [hlive] at hc
        cases hc
        exact htype hct)
    rw [← ht', hhome]
    exact ⟨_, _, rfl, hok.table, hok.tree, hok.inj, hok.count⟩
  · have hused : (v.space.isTable.entry (machPortIndex n)).ieBits.type ≠ PortType.none :=
      fun hnone => hbits (h.blank _ hge hlt hnone).1
    rw [if_pos hbits, if_pos ⟨PortType.isNone_eq_false.mpr hused, h.apart n hTne hpos hlt hused⟩]
    exact ⟨_, _, rfl, hr.setCollision _ _⟩

theorem visit_moveEntry_hash : ∀ {ys : List (MachPort × Entry)} {v : SpaceHash} {T : TreeMap}
    {pending : MachPort → Prop}, SpaceGrow osize v.space T fl pending →
    (∀ n, pending n ↔ n ∈ ys.map Prod.fst) → (∀ n x, (n, x) ∈ ys → T n = some x) →
    (ys.map Prod.fst).Nodup → SendOk (v.space.liveName T) rev → ReverseOk v rev →
    ∃ v' kept, visit (moveEntry osize) ys v = some (v', kept) ∧ ReverseOk v' rev := by
  intro ys
  induction ys with
  | nil =>
    intro v T pending _ _ _ _ _ hr
    exact ⟨v, [], rfl, hr⟩
  | cons q ys ih =>
    intro v T pending h hp hys hnodup hs hr
    obtain ⟨n, x⟩ := q
    have hnodup' := nodup_cons.mp hnodup
    have hT := hys n x mem_cons_self
    have hn : pending n := (hp n).mpr (by simp)
    obtain ⟨v₁, del, hbody, hr₁⟩ := moveEntry_hash h hn hT hs hr
    obtain ⟨h₁, hlive₁, -⟩ := moveEntry_spec h hn hT hbody
    have hne : ∀ k ∈ ys.map Prod.fst, k ≠ n := by
      rintro k hk rfl
      exact hnodup'.1 hk
    obtain ⟨v', kept, hrest, hr'⟩ := ih h₁ (by
        intro k
        rw [hp k]
        simp only [map_cons, mem_cons]
        constructor
        · rintro ⟨hk | hk, hkn⟩
          · exact absurd hk hkn
          · exact hk
        · intro hk
          exact ⟨.inr hk, hne k hk⟩) (by
        intro k y hky
        have hkn := hne k (mem_map_of_mem hky)
        have hTk := hys k y (mem_cons_of_mem _ hky)
        cases del with
        | true =>
          rw [if_pos rfl, update_of_ne hkn]
          exact hTk
        | false => exact hTk) hnodup'.2 (by rw [hlive₁]; exact hs) hr₁
    refine ⟨v', if del then kept else (n, x) :: kept, ?_, hr'⟩
    rw [visit, hbody, Option.bind_some, hrest]
    rfl

theorem migrate_hash {size nsize : ℕ} {v' : SpaceHash}
    (h : SpaceGrow osize v.space T fl (fun n => T n ≠ none ∧ osize ≤ machPortIndex n ∧
      machPortIndex n < size)) (hholds : v.space.isTree.Holds T)
    (hsize : v.space.isTable.size = size) (hn : size ≤ nsize) (hn' : nsize < 2 ^ 24)
    (hs : SendOk (v.space.liveName T) rev) (hr : ReverseOk v rev)
    (hrun : migrate osize size nsize v = some v') : ReverseOk v' rev := by
  have hos : osize ≤ size := by
    rw [← hsize]
    exact h.osize_le
  obtain ⟨upper, small₀, small, move₀, move, ignore, hs1, hs2, hs3, -, -, hmove, -⟩ :=
    split_regions hholds hos hn hn'
  unfold migrate at hrun
  simp only [hs1, hs2, hs3, Option.bind_some] at hrun
  obtain ⟨⟨v₁, move'⟩, htrav, hrun⟩ := Option.bind_eq_some_iff.mp hrun
  obtain ⟨⟨⟨nosmall, idx⟩, small'⟩, -, hrun⟩ := Option.bind_eq_some_iff.mp hrun
  obtain ⟨kept, hvisit, -⟩ := hmove.of_traverse htrav
  have hregion : ∀ n x, (n, x) ∈ move.inorder ↔
      (osize ≤ machPortIndex n ∧ machPortIndex n < size) ∧ T n = some x := by
    intro n x
    rw [hmove.represents.mem]
    by_cases hin : osize ≤ machPortIndex n ∧ machPortIndex n < size
    · simp [hin]
    · simp [hin]
  obtain ⟨v₁', kept', hvisit', hr₁⟩ := visit_moveEntry_hash h
    (by
      intro n
      rw [mem_map, Option.ne_none_iff_exists']
      constructor
      · rintro ⟨⟨x, hx⟩, hin⟩
        exact ⟨(n, x), (hregion n x).mpr ⟨hin, hx⟩, rfl⟩
      · rintro ⟨⟨k, x⟩, hmem, rfl⟩
        obtain ⟨hin, hx⟩ := (hregion k x).mp hmem
        exact ⟨⟨x, hx⟩, hin⟩)
    (fun n x hmem => ((hregion n x).mp hmem).2) hmove.represents.nodup hs hr
  rw [hvisit] at hvisit'
  cases hvisit'
  simp only at hrun
  split at hrun
  · obtain ⟨⟨tree₁, r₁⟩, -, hrun⟩ := Option.bind_eq_some_iff.mp hrun
    obtain ⟨⟨tree₂, r₂⟩, -, hrun⟩ := Option.bind_eq_some_iff.mp hrun
    obtain ⟨⟨tree₃, r₃⟩, -, rfl⟩ := Option.map_eq_some_iff.mp hrun
    exact ⟨hr₁.table, hr₁.tree, hr₁.inj, hr₁.count⟩
  · cases hrun

end move

/-! ## The whole growth -/

/-- The new free entries: the hash table, the objects and the used entries stay. -/
structure FreedFrom (t t' : Table) : Prop where
  size : t'.size = t.size
  object : ∀ i, (t'.entry i).ieObject = (t.entry i).ieObject
  index : ∀ i, (t'.entry i).ieIndex = (t.entry i).ieIndex
  type : ∀ i, (t'.entry i).ieBits.type = (t.entry i).ieBits.type
  used : ∀ i, (t.entry i).ieBits.type ≠ PortType.none → (t'.entry i).ieBits = (t.entry i).ieBits

theorem FreedFrom.refl (t : Table) : FreedFrom t t :=
  ⟨rfl, fun _ => rfl, fun _ => rfl, fun _ => rfl, fun _ _ => rfl⟩

theorem FreedFrom.trans {t t' t'' : Table} (h : FreedFrom t t') (h' : FreedFrom t' t'') :
    FreedFrom t t'' :=
  ⟨h'.size.trans h.size, fun i => (h'.object i).trans (h.object i),
    fun i => (h'.index i).trans (h.index i), fun i => (h'.type i).trans (h.type i),
    fun i hi => (h'.used i (by rw [h.type]; exact hi)).trans (h.used i hi)⟩

theorem FreedFrom.setEntry (t : Table) (i : ℕ) {e : Entry} (hobj : e.ieObject = (t.entry i).ieObject)
    (hidx : e.ieIndex = (t.entry i).ieIndex) (htype : e.ieBits.type = (t.entry i).ieBits.type)
    (hused : (t.entry i).ieBits.type ≠ PortType.none → e.ieBits = (t.entry i).ieBits) :
    FreedFrom t (t.setEntry i e) := by
  have hself : (t.setEntry i e).entry i = e := update_self ..
  have hother : ∀ j, j ≠ i → (t.setEntry i e).entry j = t.entry j :=
    fun j hj => update_of_ne hj ..
  have hcase : ∀ P : Entry → Entry → Prop, P e (t.entry i) → (∀ x, P x x) →
      ∀ j, P ((t.setEntry i e).entry j) (t.entry j) := by
    intro P hi hrefl j
    by_cases hj : j = i
    · rw [hj, hself]
      exact hi
    · rw [hother j hj]
      exact hrefl _
  exact ⟨rfl, hcase (fun x y => x.ieObject = y.ieObject) hobj fun _ => rfl,
    hcase (fun x y => x.ieIndex = y.ieIndex) hidx fun _ => rfl,
    hcase (fun x y => x.ieBits.type = y.ieBits.type) htype fun _ => rfl,
    hcase (fun x y => y.ieBits.type ≠ PortType.none → x.ieBits = y.ieBits) hused fun _ _ => rfl⟩

theorem addFree_freed (c : Table × ℕ) (i : ℕ) : FreedFrom c.1 (addFree c i).1 := by
  unfold addFree
  split
  · next hbits =>
    refine FreedFrom.setEntry c.1 i rfl rfl ?_ ?_
    · rw [hbits]
      rfl
    · intro hne
      rw [hbits] at hne
      exact absurd rfl hne
  · exact FreedFrom.refl _

theorem addFreeEntries_freed (osize : ℕ) (t : Table) : FreedFrom t (addFreeEntries osize t) := by
  have hfold : ∀ (l : List ℕ) (c : Table × ℕ), FreedFrom c.1 (l.foldl addFree c).1 := by
    intro l
    induction l with
    | nil => exact fun c => FreedFrom.refl _
    | cons i l ih => exact fun c => (addFree_freed c i).trans (ih _)
  have hlast : ∀ c : Table × ℕ, FreedFrom c.1 (c.1.setEntry 0 { c.1.entry 0 with ieRequest := c.2 }) :=
    fun c => FreedFrom.setEntry c.1 0 rfl rfl rfl (fun _ => rfl)
  exact (hfold _ (t, (t.entry 0).ieRequest)).trans (hlast _)

theorem FreedFrom.named {s s' : Space} (h : FreedFrom s.isTable s'.isTable) : s'.named = s.named := by
  funext n
  rw [Bool.eq_iff_iff, Space.named_iff, Space.named_iff, h.size, h.type]
  constructor
  · rintro ⟨h1, h2, h3, h4⟩
    rw [h.used _ h3] at h4
    exact ⟨h1, h2, h3, h4⟩
  · rintro ⟨h1, h2, h3, h4⟩
    rw [h.used _ h3]
    exact ⟨h1, h2, h3, h4⟩

theorem ReverseOk.freed {v : SpaceHash} {rev : RevMap} (h : ReverseOk v rev) {t : Table}
    (ht : FreedFrom v.space.isTable t) : ReverseOk (v.setTable t) rev :=
  h.change rfl rfl rfl ht.size (funext fun i => ht.index i)
    (fun _ n _ => congrFun (FreedFrom.named ht) n) (fun _ _ _ _ => ht.object _)

section table
variable {sizes : TableSizes} {v v' : SpaceHash} {T : TreeMap} {fl : List ℕ} {rev : RevMap}

theorem growTo_hash (h : SpaceOk sizes v.space T fl) {its : ℕ} (hits : its ≤ sizes.last)
    (hle : v.space.isTable.size ≤ sizes.its its) (hs : SendOk (v.space.liveName T) rev)
    (hr : ReverseOk v rev) (hrun : growTo sizes v its = some v') : ReverseOk v' rev := by
  have hsize24 := sizes.lt_bound (show its ≤ sizes.last + 1 by omega)
  have hnsize24 := sizes.lt_bound (show its + 1 ≤ sizes.last + 1 by omega)
  unfold growTo at hrun
  simp only at hrun
  obtain ⟨t, hrehash, hrun⟩ := Option.bind_eq_some_iff.mp hrun
  obtain ⟨t', hrehash', htable, hok⟩ := rehash_spec h hs hle
  rw [hrehash'] at hrehash
  cases hrehash
  obtain ⟨v₁, hmig, rfl⟩ := Option.map_eq_some_iff.mp hrun
  obtain ⟨s, hsdef⟩ : ∃ s : Space, s = { v.space with isTable := t, isTableNext := its + 1 } :=
    ⟨_, rfl⟩
  have hst : SameEntries (v.space.isTable.grown (sizes.its its)) s.isTable := by
    rw [hsdef]
    exact htable
  obtain ⟨hgrow, hlive⟩ := h.grown hle hsize24 hst (by rw [hsdef])
  have hnamed := grown_named hle hst
  have hr₀ : ReverseOk ⟨s, v.global⟩ rev := by
    refine ⟨?_, ?_, hr.inj, ?_⟩
    · rw [slotOf_congr hnamed, hsdef]
      exact hok
    · rw [treeNameOf_congr hnamed, hsdef]
      exact hr.tree
    · rw [treeNameOf_congr hnamed, hsdef]
      exact hr.count
  have hr₁ : ReverseOk v₁ rev := by
    rw [← hsdef] at hmig
    split at hmig
    · refine migrate_hash hgrow ?_ hst.size (sizes.le_succ hits) hnsize24 (by rw [hlive]; exact hs)
        hr₀ hmig
      rw [hsdef]
      exact h.holds
    · cases hmig
      exact hr₀
  exact hr₁.freed (addFreeEntries_freed _ _)

theorem growTable_hash {mem : ℕ → Bool} {target : Option ℕ} : ∀ {fuel : ℕ} {v v' : SpaceHash}
    {T : TreeMap} {fl : List ℕ} {kr : KernReturn}, SpaceOk sizes v.space T fl →
    SendOk (v.space.liveName T) rev → ReverseOk v rev →
    ipcEntryGrowTable sizes mem target fuel v = some (v', kr) →
    ∃ T' fl', SpaceOk sizes v'.space T' fl' ∧ v'.space.liveName T' = v.space.liveName T ∧
      ReverseOk v' rev := by
  intro fuel
  induction fuel with
  | zero =>
    intro v v' T fl kr _ _ _ hrun
    cases hrun
  | succ fuel ih =>
    intro v v' T fl kr h hs hr hrun
    rcases growTable_round h hrun with ⟨rfl, -⟩ | ⟨its, v₁, hits, hlt, -, -, hgrow, hrest⟩
    · exact ⟨T, fl, h, rfl, hr⟩
    · have hle := Nat.le_of_lt hlt
      obtain ⟨T₁, fl₁, hok₁, hlive₁, -⟩ := growTo_spec h hits hle hgrow
      have hr₁ := growTo_hash h hits hle hs hr hgrow
      rcases hrest with rfl | hrest
      · exact ⟨T₁, fl₁, hok₁, hlive₁, hr₁⟩
      · obtain ⟨T', fl', hok', hlive', hr'⟩ := ih hok₁ (by rw [hlive₁]; exact hs) hr₁ hrest
        exact ⟨T', fl', hok', hlive'.trans hlive₁, hr'⟩

end table

/-! ## What the holders of rights see -/

/-- What `ipc_entry_lookup` shows of a name. -/
def Space.resolve (s : Space) (name : MachPort) : Option (Option Contents) :=
  (ipcEntryLookup s name).map (fun r => r.2.bind (fun ref => (r.1.deref ref).map Entry.contents))

/-- What `ipc_hash_lookup` shows of an object. -/
def SpaceHash.reverse (v : SpaceHash) (obj : ℕ) : Option (Option MachPort) :=
  (ipcHashLookup v obj).map (fun r => r.2.map Prod.fst)

section holders
variable {sizes : TableSizes} {v : SpaceHash} {T : TreeMap} {fl : List ℕ} {rev : RevMap}

theorem SpaceOk.resolve {s : Space} (h : SpaceOk sizes s T fl) (name : MachPort) :
    s.resolve name = some (if name = reservedName then none else s.liveName T name) := by
  obtain ⟨tree, hholds, hlook⟩ := h.lookup name
  have hok := h.setTree hholds
  have hderef := hok.deref_locate name
  rw [Space.resolve, hlook, Option.map_some]
  congr 1
  by_cases hname : name = reservedName
  · simp only [hname, if_true, Option.bind_none]
  · simp only [hname, if_false]
    cases hl : s.liveName T name with
    | none => rfl
    | some c => exact hderef.trans hl

theorem ReverseOk.reverse (h : ReverseOk v rev) (obj : ℕ) : v.reverse obj = some (rev obj) := by
  obtain ⟨g, hlook, -⟩ := h.lookup obj
  rw [SpaceHash.reverse, hlook, Option.map_some]
  cases hn : rev obj with
  | none => rfl
  | some n => rfl

end holders

/-- Growing the table keeps every right: the contents of every name, what a lookup finds for
every name and for every object, and the reverse hash; and no tree entry is left whose index
has a free slot. The table has the next size, or one that holds the target, or a later one. -/
theorem growth_keeps_rights {sizes : TableSizes} {mem : ℕ → Bool} {target : Option ℕ} {fuel : ℕ}
    {v v' : SpaceHash} {T : TreeMap} {fl : List ℕ} {rev : RevMap}
    (h : SpaceOk sizes v.space T fl) (hs : SendOk (v.space.liveName T) rev) (hr : ReverseOk v rev)
    (hrun : ipcEntryGrowTable sizes mem target fuel v = some (v', .success)) :
    (∃ T' fl', SpaceOk sizes v'.space T' fl' ∧ v'.space.liveName T' = v.space.liveName T ∧
      ReverseOk v' rev) ∧
    (∀ name, v'.space.resolve name = v.space.resolve name) ∧
    (∀ obj name, v.reverse obj = some (some name) → v'.reverse obj = some (some name)) ∧
    ((target = none → v.space.isTable.size < v'.space.isTable.size ∧
        sizes.its v.space.isTableNext ≤ v'.space.isTable.size) ∧
      ∀ n, target = some n → n ≤ v'.space.isTable.size) ∧
    ∀ i, 0 < i → i < v'.space.isTable.size →
      (v'.space.isTable.entry i).ieBits.type = PortType.none →
      ∀ n ∈ v'.space.treeNames, machPortIndex n ≠ i := by
  obtain ⟨T', fl', hok, hlive, hr'⟩ := growTable_hash h hs hr hrun
  refine ⟨⟨T', fl', hok, hlive, hr'⟩, ?_, ?_, h.growTable_size hrun, hok.inOrder.apart⟩
  · intro name
    rw [hok.resolve, h.resolve, hlive]
  · intro obj name hfound
    rw [hr.reverse] at hfound
    rw [hr'.reverse, hfound]

/-! ## A send right that moves into the table -/

theorem reverseOk_empty {v : SpaceHash} (hpos : 0 < v.space.isTable.size)
    (hslots : ∀ i < v.space.isTable.size, v.space.isTable.slots i = 0)
    (hglobal : ∀ b, v.global.bucket b = []) (hcount : v.space.isTreeHash = 0) :
    ReverseOk v (fun _ => none) := by
  have hslot : v.space.slotOf (fun _ => none) = fun _ => none := rfl
  have htree : v.space.treeNameOf (fun _ => none) = fun _ => none := rfl
  refine ⟨?_, ⟨?_, ?_, ?_⟩, ?_, ?_⟩
  · rw [hslot]
    exact HashState.Fresh.hashOk (s := ⟨v.space.isTable, fun _ => none⟩)
      ⟨hpos, hslots, fun _ => rfl⟩
  · intro b x hx
    rw [hglobal] at hx
    cases hx
  · intro obj n hn
    cases hn
  · intro b
    rw [hglobal]
    exact nodup_nil
  · intro o o' n hn
    cases hn
  · rw [hcount, htree]
    simp

def sendRight (obj : ℕ) : Contents := ⟨false, false, PortType.sendRight, 1, obj, 0⟩

/-- A send right with a name of the tree whose index the next table has. -/
def treeSend : List NameEvent := [.allocName (fun _ => true) true (machPortMake 5 5) (sendRight 128)]

theorem treeSend_run :
    (runNames ipcTableEntries 16 0 ⟨0, fun _ => []⟩ treeSend).isSome = true := by
  decide +kernel

def treeSendState : NameState :=
  (runNames ipcTableEntries 16 0 ⟨0, fun _ => []⟩ treeSend).get treeSend_run

theorem treeSendState_insert :
    (ipcHashInsert treeSendState.v 128 (machPortMake 5 5) (.tree (machPortMake 5 5))).isSome = true := by
  decide +kernel

/-- The right is also in the global hash table. -/
def treeSendHash : SpaceHash :=
  (ipcHashInsert treeSendState.v 128 (machPortMake 5 5) (.tree (machPortMake 5 5))).get
    treeSendState_insert

theorem treeSendHash_grows :
    (ipcEntryGrowTable ipcTableEntries (fun _ => true) none 2 treeSendHash).map
      (fun r => (r.2, r.1.space.named 0x505, r.1.space.isTreeTotal)) = some (.success, true, 0) := by
  decide +kernel

theorem treeSendState_live :
    treeSendState.live = update (fun _ => none) 0x505 (some (sendRight 128)) := by
  rfl

theorem treeSendHash_reverse :
    ReverseOk treeSendHash (update (fun _ => none) 128 (some 0x505)) := by
  have hempty : ReverseOk treeSendState.v (fun _ => none) := by
    apply reverseOk_empty
    · decide +kernel
    · decide +kernel
    · intro b
      rfl
    · decide +kernel
  obtain ⟨v', hins, hr⟩ := @ReverseOk.insertTree treeSendState.v _ 128 0x505 hempty rfl
    (fun _ h => (by cases h)) (by decide +kernel) (by decide +kernel)
  have hv : treeSendHash = v' := by
    apply Option.get_of_eq_some
    exact hins
  rw [hv]
  exact hr

theorem treeSend_sendOk :
    SendOk treeSendState.live (update (fun _ => none) 128 (some 0x505)) := by
  rw [treeSendState_live]
  constructor
  · intro obj n
    simp only [update_apply]
    constructor
    · intro h
      split_ifs at h with hobj
      cases h
      exact ⟨_, rfl, rfl, hobj.symm⟩
    · rintro ⟨c, hc, -, hobj⟩
      split_ifs at hc with hn
      cases hc
      have hobj' : obj = 128 := hobj.symm
      rw [if_pos hobj', hn]
  · intro n c hc _
    rw [update_apply] at hc
    split_ifs at hc
    cases hc
    decide

theorem growth_keeps_rights_moved : ∃ v',
    ipcEntryGrowTable ipcTableEntries (fun _ => true) none 2 treeSendHash = some (v', .success) ∧
    treeSendHash.reverse 128 = some (some 0x505) ∧ v'.reverse 128 = some (some 0x505) ∧
    v'.space.named 0x505 = true := by
  have hok : treeSendState.Ok ipcTableEntries :=
    NameRun.ok (Nat.zero_le _) (NameRun.of_isSome treeSend_run)
  have hstep : treeSendState.step ipcTableEntries
      (.hashInsert 128 (machPortMake 5 5) (.tree (machPortMake 5 5))) =
      some ⟨treeSendHash, treeSendState.live⟩ := by
    rw [NameState.step, ← Option.some_get treeSendState_insert]
    rfl
  obtain ⟨T, fl, hspace, hlive⟩ := hok.step hstep
  obtain ⟨⟨v', kr⟩, hrun, hgrown⟩ := Option.map_eq_some_iff.mp treeSendHash_grows
  simp only [Prod.mk.injEq] at hgrown
  obtain ⟨rfl, hnamed, -⟩ := hgrown
  have hs : SendOk (treeSendHash.space.liveName T)
      (update (fun _ => none) 128 (some 0x505)) := by
    change treeSendHash.space.liveName T = treeSendState.live at hlive
    rw [hlive]
    exact treeSend_sendOk
  have hfound := treeSendHash_reverse.reverse 128
  exact ⟨v', hrun, hfound,
    (growth_keeps_rights hspace hs treeSendHash_reverse hrun).2.2.1 128 0x505 hfound, hnamed⟩

end Darwin.Ipc
