import Darwin.Ipc.EntryOps

/-! # Deallocation of a slot of the table

The slot gets into the free list, or a tree entry with the same index moves in.
-/
namespace Darwin.Ipc
open Darwin.Lib Darwin.Lib.SearchTree Function Option

/-! ## The hash tables do not touch the entries -/

theorem ipcHashLocalInsert_same {t t' : Table} {obj index : ℕ}
    (h : ipcHashLocalInsert t obj index = some t') : SameEntries t t' := by
  obtain ⟨hindex, -, rfl⟩ := map_eq_some_iff.mp h
  exact setIndex_same t hindex index

theorem closeHole_same : ∀ {fuel : ℕ} {t t' : Table} {hole : ℕ}, closeHole fuel t hole = some t' →
    SameEntries t t' := by
  intro fuel
  induction fuel with
  | zero =>
    intro t t' hole h
    cases h
  | succ fuel ih =>
    intro t t' hole h
    obtain ⟨dindex, -, h⟩ := bind_eq_some_iff.mp h
    simp only at h
    split at h
    · cases h
    · split at h
      · cases h
        exact setIndex_same t hole 0
      · split at h
        · cases h
        · exact (setIndex_same t hole _).trans (ih h)

theorem ipcHashLocalDelete_same {t t' : Table} {obj index : ℕ}
    (h : ipcHashLocalDelete t obj index = some t') : SameEntries t t' := by
  obtain ⟨hindex, -, h⟩ := bind_eq_some_iff.mp h
  exact closeHole_same h

/-- The spaces differ in the hash tables only. -/
structure SpaceSame (s s' : Space) : Prop where
  self : s'.self = s.self
  table : SameEntries s.isTable s'.isTable
  next : s'.isTableNext = s.isTableNext
  tree : s'.isTree = s.isTree
  total : s'.isTreeTotal = s.isTreeTotal
  small : s'.isTreeSmall = s.isTreeSmall

theorem SpaceSame.refl (s : Space) : SpaceSame s s := ⟨rfl, SameEntries.refl _, rfl, rfl, rfl, rfl⟩

theorem SpaceSame.trans {s s' s'' : Space} (h : SpaceSame s s') (h' : SpaceSame s' s'') :
    SpaceSame s s'' :=
  ⟨h'.self.trans h.self, h.table.trans h'.table, h'.next.trans h.next, h'.tree.trans h.tree,
    h'.total.trans h.total, h'.small.trans h.small⟩

theorem SameEntries.contents {t t' : Table} (h : SameEntries t t') (i : ℕ) :
    (t'.entry i).contents = (t.entry i).contents := by
  unfold Entry.contents
  rw [h.bits, h.object, h.request]

theorem EntriesOk.same {size nsize : ℕ} {e e' : ℕ → Entry} {T : TreeMap} {fl : List ℕ}
    {total small : ℕ} (h : EntriesOk size nsize e T fl total small)
    (hbits : ∀ i, (e' i).ieBits = (e i).ieBits) (hobj : ∀ i, (e' i).ieObject = (e i).ieObject)
    (hreq : ∀ i, (e' i).ieRequest = (e i).ieRequest) :
    EntriesOk size nsize e' T fl total small := by
  refine ⟨h.size_pos, h.size_le, h.size_lt, ?_, ?_, h.nodup, ?_, ?_, ?_, ?_, h.tree, h.total, h.small⟩
  · rw [hbits]
    exact h.reserved
  · exact h.linked.congr fun i _ => hreq i
  · intro i
    rw [hbits]
    exact h.free i
  · intro i
    rw [hbits, hobj]
    exact h.freeBits i
  · intro i
    rw [hbits]
    exact h.collision i
  · intro n
    rw [hbits]
    exact h.apart n

section same
variable {sizes : TableSizes} {s s' : Space} {T : TreeMap} {fl : List ℕ}

theorem SpaceOk.same (h : SpaceOk sizes s T fl) (hs : SpaceSame s s') : SpaceOk sizes s' T fl := by
  refine ⟨by rw [hs.next]; exact h.next_pos, by rw [hs.next]; exact h.next_le, ?_,
    by rw [hs.tree]; exact h.holds, ?_⟩
  · rw [hs.table.size, hs.next]
    exact h.size
  · rw [hs.table.size, hs.next, hs.total, hs.small]
    exact h.entries.same hs.table.bits hs.table.object hs.table.request

theorem SpaceSame.liveName (hs : SpaceSame s s') (T : TreeMap) : s'.liveName T = s.liveName T := by
  funext n
  exact Space.liveName_congr hs.table.size (by rw [hs.table.bits]) (by rw [hs.table.bits])
    (fun _ => hs.table.contents _) rfl

end same

theorem SpaceSame.setTable {v : SpaceHash} {t : Table} (h : SameEntries v.space.isTable t) :
    SpaceSame v.space (v.setTable t).space := ⟨rfl, h, rfl, rfl, rfl, rfl⟩

theorem ipcHashGlobalInsert_same {v v' : SpaceHash} {obj : ℕ} {name : MachPort}
    (h : ipcHashGlobalInsert v obj name = some v') : SpaceSame v.space v'.space := by
  unfold ipcHashGlobalInsert at h
  simp only at h
  split at h
  · cases h
    exact ⟨rfl, SameEntries.refl _, rfl, rfl, rfl, rfl⟩
  · cases h

theorem ipcHashGlobalDelete_same {v v' : SpaceHash} {obj : ℕ} {name : MachPort}
    (h : ipcHashGlobalDelete v obj name = some v') : SpaceSame v.space v'.space := by
  unfold ipcHashGlobalDelete at h
  simp only at h
  split at h
  · cases h
    exact ⟨rfl, SameEntries.refl _, rfl, rfl, rfl, rfl⟩
  · cases h

theorem ipcHashInsert_same {v v' : SpaceHash} {obj : ℕ} {name : MachPort} {ref : EntryRef}
    (h : ipcHashInsert v obj name ref = some v') : SpaceSame v.space v'.space := by
  unfold ipcHashInsert at h
  split at h
  · obtain ⟨t, ht, rfl⟩ := map_eq_some_iff.mp h
    exact SpaceSame.setTable (ipcHashLocalInsert_same ht)
  · exact ipcHashGlobalInsert_same h

theorem ipcHashDelete_same {v v' : SpaceHash} {obj : ℕ} {name : MachPort} {ref : EntryRef}
    (h : ipcHashDelete v obj name ref = some v') : SpaceSame v.space v'.space := by
  unfold ipcHashDelete at h
  split at h
  · obtain ⟨t, ht, rfl⟩ := map_eq_some_iff.mp h
    exact SpaceSame.setTable (ipcHashLocalDelete_same ht)
  · exact ipcHashGlobalDelete_same h

theorem ipcHashLookup_same {v v' : SpaceHash} {obj : ℕ} {r : Option (MachPort × EntryRef)}
    (h : ipcHashLookup v obj = some (v', r)) : v'.space = v.space := by
  obtain ⟨x, -, hx⟩ := map_eq_some_iff.mp h
  cases x with
  | some index =>
    cases hx
    rfl
  | none =>
    simp only at hx
    split at hx
    · cases hx
      rfl
    · cases hx
      rfl

theorem rehome_same {v v' : SpaceHash} {tentry : Entry} {name : MachPort}
    (h : rehome v tentry name = some v') : SpaceSame v.space v'.space := by
  unfold rehome at h
  split at h
  · obtain ⟨v₁, hdel, h⟩ := bind_eq_some_iff.mp h
    obtain ⟨t, hins, rfl⟩ := map_eq_some_iff.mp h
    exact (ipcHashGlobalDelete_same hdel).trans (SpaceSame.setTable (ipcHashLocalInsert_same hins))
  · cases h
    exact SpaceSame.refl _

section release
variable {sizes : TableSizes} {s : Space} {T : TreeMap} {fl : List ℕ}

theorem SpaceOk.release (h : SpaceOk sizes s T fl) {name : MachPort} (hn : s.named name = true)
    (hc : (s.isTable.entry (machPortIndex name)).ieBits.collision = false)
    (hobj : (s.isTable.entry (machPortIndex name)).ieObject = 0) {t : Table}
    (hsize : t.size = s.isTable.size)
    (hother : ∀ j, j ≠ machPortIndex name → j ≠ 0 → t.entry j = s.isTable.entry j)
    (hzero : t.entry 0 = { s.isTable.entry 0 with ieRequest := machPortIndex name })
    (hself : t.entry (machPortIndex name) = { s.isTable.entry (machPortIndex name) with
      ieBits := Bits.ofGen (s.isTable.entry (machPortIndex name)).ieBits.gen,
      ieRequest := (s.isTable.entry 0).ieRequest }) :
    SpaceOk sizes { s with isTable := t } T (machPortIndex name :: fl) ∧
    ({ s with isTable := t } : Space).liveName T = update (s.liveName T) name none := by
  obtain ⟨hpos, hlt, htype, hgen⟩ := Space.named_iff.mp hn
  have hindex : ¬ TreeIndex T (machPortIndex name) := by
    rw [← h.entries.collision _ hlt, hc]
    exact fun h => (by cases h)
  refine ⟨⟨h.next_pos, h.next_le, by rw [← h.size]; exact hsize, h.holds, ?_⟩, ?_⟩
  · have := h.entries.release htype hlt hindex hother hzero (by rw [hself]) (by rw [hself]; exact hobj)
      (by rw [hself])
    rw [← hsize] at this
    exact this
  · funext n
    by_cases hni : machPortIndex n = machPortIndex name
    · have hT : T n = none := by
        by_contra hne
        exact hindex ⟨n, hne, hni⟩
      have hnamed' : ¬ ({ s with isTable := t } : Space).named n = true := by
        intro hnamed
        have := (Space.named_iff.mp hnamed).2.2.1
        rw [hni, hself] at this
        exact this rfl
      rw [Space.liveName, if_neg hnamed', hT]
      by_cases hne : n = name
      · rw [hne, update_self]
        rfl
      · have hnamed : ¬ s.named n = true := by
          intro hnamed
          have hg := (Space.named_iff.mp hnamed).2.2.2
          rw [hni, hgen] at hg
          exact hne (machPort_ext hni hg.symm)
        rw [update_of_ne hne, Space.liveName, if_neg hnamed, hT]
    · rw [update_of_ne (fun hne => hni (by rw [hne]))]
      by_cases h0 : machPortIndex n = 0
      · refine Space.liveName_congr hsize ?_ ?_ ?_ rfl
        · rw [h0, hzero]
        · rw [h0, hzero]
        · intro hnamed
          exact absurd (Space.named_iff.mp hnamed).1 (by omega)
      · refine Space.liveName_congr hsize ?_ ?_ ?_ rfl
        · rw [hother _ hni h0]
        · rw [hother _ hni h0]
        · intro _
          rw [hother _ hni h0]

end release

section pull
variable {sizes : TableSizes} {v v' : SpaceHash} {T : TreeMap} {fl : List ℕ}

theorem split_index {tree : Splay Entry} (h : tree.Holds T) {i : ℕ} (hi : i + 1 < 2 ^ 24) :
    ∃ upper rest same lower, ipcSplayTreeSplit tree (machPortMake (i + 1) 0) Splay.raw =
        some (upper, rest) ∧
      ipcSplayTreeSplit rest (machPortMake i 0) Splay.raw = some (same, lower) ∧
      upper.Holds (fun n => if machPortIndex n < i + 1 then none else T n) ∧
      same.Holds (fun n => if machPortIndex n = i then T n else none) ∧
      lower.Holds (fun n => if machPortIndex n < i then T n else none) := by
  obtain ⟨upper, rest, hrun, hupper, hrest⟩ := h.split (machPortMake (i + 1) 0) Splay.raw
  obtain ⟨same, lower, hrun', hsame, hlower⟩ := hrest.split (machPortMake i 0) Splay.raw
  simp only [lt_machPortMake_zero hi] at hupper hrest
  simp only [lt_machPortMake_zero hi, lt_machPortMake_zero (by omega : i < 2 ^ 24)] at hsame hlower
  refine ⟨upper, rest, same, lower, hrun, hrun', hupper, ?_, ?_⟩
  · have heq : (fun n => if machPortIndex n < i then none else
        if machPortIndex n < i + 1 then T n else none) =
        (fun n => if machPortIndex n = i then T n else none) := by
      funext n
      split_ifs <;> first | rfl | omega
    rwa [heq] at hsame
  · have heq : (fun n => if machPortIndex n < i then if machPortIndex n < i + 1 then T n else none
        else none) = (fun n => if machPortIndex n < i then T n else none) := by
      funext n
      split_ifs <;> first | rfl | omega
    rwa [heq] at hlower

theorem SpaceOk.pulled {s s' : Space} {name tname : MachPort} {tentry : Entry} {b : Bool}
    (h : SpaceOk sizes s T fl) (hn : s.named name = true) (hT : T tname = some tentry)
    (htni : machPortIndex tname = machPortIndex name)
    (hb : b = true ↔ TreeIndex (update T tname none) (machPortIndex name))
    (hsize : s'.isTable.size = s.isTable.size) (hnext : s'.isTableNext = s.isTableNext)
    (htree : s'.isTree.Holds (update T tname none))
    (htotal : s'.isTreeTotal = s.isTreeTotal - 1) (hsmall : s'.isTreeSmall = s.isTreeSmall)
    (hother : ∀ j, j ≠ machPortIndex name → (s'.isTable.entry j).ieBits = (s.isTable.entry j).ieBits ∧
      (s'.isTable.entry j).ieObject = (s.isTable.entry j).ieObject ∧
      (s'.isTable.entry j).ieRequest = (s.isTable.entry j).ieRequest)
    (hself : (s'.isTable.entry (machPortIndex name)).ieBits =
        { tentry.ieBits with gen := machPortGen tname, collision := b } ∧
      (s'.isTable.entry (machPortIndex name)).ieObject = tentry.ieObject ∧
      (s'.isTable.entry (machPortIndex name)).ieRequest = tentry.ieRequest) :
    SpaceOk sizes s' (update T tname none) fl ∧
      s'.liveName (update T tname none) = update (s.liveName T) name none := by
  obtain ⟨hpos, hlt, htype, hgen⟩ := Space.named_iff.mp hn
  have hTne : T tname ≠ none := by
    rw [hT]
    exact fun h => (by cases h)
  have hgen' : machPortGen name ≠ machPortGen tname := by
    have := h.entries.apart tname hTne (by rw [htni]; exact hpos) (by rw [htni]; exact hlt)
    rwa [htni, hgen] at this
  have hnt : name ≠ tname := by
    rintro rfl
    exact hgen' rfl
  obtain ⟨hself1, hself2, hself3⟩ := hself
  refine ⟨⟨by rw [hnext]; exact h.next_pos, by rw [hnext]; exact h.next_le,
    by rw [hsize, hnext]; exact h.size, htree, ?_⟩, ?_⟩
  · have hpull := h.entries.pull htype hlt hT htni
      (s'.isTable.entry (machPortIndex name)) (by rw [hself1])
      (by rw [hself1]; exact (h.entries.tree tname tentry hT).2.2.2) (by rw [hself1]; exact hb)
    rw [hsize, hnext, htotal, hsmall]
    apply hpull.same
    all_goals
      intro j
      by_cases hj : j = machPortIndex name
      · rw [hj, update_self]
      · rw [update_of_ne hj]
        first
        | exact (hother j hj).1
        | exact (hother j hj).2.1
        | exact (hother j hj).2.2
  · funext n
    by_cases hni : machPortIndex n = machPortIndex name
    · have hslot : s'.named n = true ↔ n = tname := by
        rw [Space.named_iff, hni, hself1, hsize]
        constructor
        · rintro ⟨-, -, -, hg⟩
          exact machPort_ext (by rw [hni, htni]) hg.symm
        · rintro rfl
          exact ⟨hpos, hlt, (h.entries.tree n tentry hT).2.2.2, rfl⟩
      have hslot' : s.named n = true ↔ n = name := by
        rw [Space.named_iff, hni, hgen]
        constructor
        · rintro ⟨-, -, -, hg⟩
          exact machPort_ext hni hg.symm
        · rintro rfl
          exact ⟨hpos, hlt, htype, rfl⟩
      by_cases hn1 : n = tname
      · have hne : n ≠ name := by
          rintro rfl
          exact hnt hn1
        rw [Space.liveName, if_pos (hslot.mpr hn1), update_of_ne hne, Space.liveName,
          if_neg (fun hh => hne (hslot'.mp hh)), hn1, hT, htni]
        unfold Entry.contents
        rw [hself1, hself2, hself3]
        rfl
      · rw [Space.liveName, if_neg (fun hh => hn1 (hslot.mp hh)), update_of_ne hn1]
        by_cases hn2 : n = name
        · rw [hn2, update_self, h.tree_none_of_named hn]
          rfl
        · rw [update_of_ne hn2, Space.liveName, if_neg (fun hh => hn2 (hslot'.mp hh))]
    · have hn1 : n ≠ tname := by
        rintro rfl
        exact hni htni
      rw [update_of_ne (fun hne => hni (by rw [hne]))]
      refine Space.liveName_congr hsize (by rw [(hother _ hni).1]) (by rw [(hother _ hni).1]) ?_ ?_
      · intro _
        unfold Entry.contents
        rw [(hother _ hni).1, (hother _ hni).2.1, (hother _ hni).2.2]
      · rw [update_of_ne hn1]

theorem SpaceOk.pull (h : SpaceOk sizes v.space T fl) {name : MachPort}
    (hn : v.space.named name = true)
    (hrun : pullEntry v (machPortIndex name) = some v') :
    ∃ T', SpaceOk sizes v'.space T' fl ∧
      v'.space.liveName T' = update (v.space.liveName T) name none := by
  obtain ⟨hpos, hlt, htype, hgen⟩ := Space.named_iff.mp hn
  have hi24 : machPortIndex name + 1 < 2 ^ 24 := by
    have h2 := h.entries.size_le
    have h3 := h.entries.size_lt
    omega
  obtain ⟨upper, rest, same, lower, hs1, hs2, hupper, hsame, hlower⟩ := split_index h.holds hi24
  unfold pullEntry at hrun
  simp only [hs1, hs2, bind_some] at hrun
  obtain ⟨⟨tname, tentry⟩, hpick, hrun⟩ := bind_eq_some_iff.mp hrun
  simp only at hrun
  have hpicked := hsame.pick.2 tname tentry hpick
  have htni : machPortIndex tname = machPortIndex name := by
    by_contra hne
    rw [if_neg hne] at hpicked
    cases hpicked
  rw [if_pos htni] at hpicked
  rw [if_neg (not_not.mpr htni)] at hrun
  obtain ⟨v₁, hhome, hrun⟩ := bind_eq_some_iff.mp hrun
  have hsame₁ := rehome_same hhome
  obtain ⟨same', hdel, hsame'⟩ := hsame.delete (show (if machPortIndex tname = machPortIndex name
    then T tname else none) = some tentry by rw [if_pos htni]; exact hpicked)
  have hother : ∀ j, j ≠ machPortIndex name →
      (v₁.space.isTable.entry j).ieBits = (v.space.isTable.entry j).ieBits ∧
      (v₁.space.isTable.entry j).ieObject = (v.space.isTable.entry j).ieObject ∧
      (v₁.space.isTable.entry j).ieRequest = (v.space.isTable.entry j).ieRequest := by
    intro j hj
    rw [hsame₁.table.bits, hsame₁.table.object, hsame₁.table.request]
    simp [SpaceHash.setTable, Table.setEntry, update_of_ne hj]
  have hzero := (h.entries.tree tname tentry hpicked).2
  have hself : (v₁.space.isTable.entry (machPortIndex name)).ieBits =
        { tentry.ieBits with gen := machPortGen tname } ∧
      (v₁.space.isTable.entry (machPortIndex name)).ieObject = tentry.ieObject ∧
      (v₁.space.isTable.entry (machPortIndex name)).ieRequest = tentry.ieRequest := by
    rw [hsame₁.table.bits, hsame₁.table.object, hsame₁.table.request]
    simp [SpaceHash.setTable, Table.setEntry, hzero.1]
  -- what is left of the tree, put together again
  have hmap : ∀ n, update T tname none n =
      if machPortIndex n < machPortIndex name then T n
      else if machPortIndex n = machPortIndex name then
        update (fun n => if machPortIndex n = machPortIndex name then T n else none)
          tname none n
      else T n := by
    intro n
    by_cases hnt : n = tname
    · rw [hnt, update_self, update_self, htni]
      simp
    · rw [update_of_ne hnt, update_of_ne hnt]
      split_ifs <;> rfl
  have hindex : TreeIndex (update T tname none) (machPortIndex name) ↔
      ∃ n, update (fun n => if machPortIndex n = machPortIndex name then T n else none)
        tname none n ≠ none := by
    constructor
    · rintro ⟨n, hne, hni⟩
      refine ⟨n, ?_⟩
      rw [hmap n, hni] at hne
      simpa using hne
    · rintro ⟨n, hne⟩
      have hni : machPortIndex n = machPortIndex name := by
        by_contra hni
        apply hne
        by_cases hnt : n = tname
        · rw [hnt, update_self]
        · rw [update_of_ne hnt, if_neg hni]
      refine ⟨n, ?_, hni⟩
      rw [hmap n, hni]
      simpa using hne
  have hlowerUpper : ∀ k k', (if machPortIndex k < machPortIndex name then T k else none) ≠ none →
      (if machPortIndex k' < machPortIndex name + 1 then none else T k') ≠ none → k < k' := by
    intro k k' hk hk'
    by_contra hge
    have := machPortIndex_mono (not_lt.mp hge)
    split_ifs at hk hk' <;> first | omega | exact hk rfl | exact hk' rfl
  simp only [hdel, bind_some] at hrun
  split at hrun
  · cases hrun
  cases hp : ipcSplayTreePick same' with
  | none =>
    have hempty := hsame'.pick.1 hp
    obtain ⟨tree, rest', hjoin, htree, -⟩ := hupper.join hlower hlowerUpper
    simp only [hp, bind_some, hjoin, map_some, Option.some.injEq] at hrun
    subst hrun
    refine ⟨_, h.pulled (b := false) hn hpicked htni ?_ hsame₁.table.size hsame₁.next ?_ ?_
      hsame₁.small hother ?_⟩
    · rw [hindex]
      constructor
      · exact fun h => (by cases h)
      · rintro ⟨n, hne⟩
        exact absurd (hempty n) hne
    · have heq : union (fun n => if machPortIndex n < machPortIndex name then T n else none)
          (fun n => if machPortIndex n < machPortIndex name + 1 then none else T n) =
          update T tname none := by
        funext n
        rw [hmap n, hempty n]
        simp only [union]
        rcases lt_trichotomy (machPortIndex n) (machPortIndex name) with hlt' | heq | hgt
        · rw [if_pos hlt', if_pos (by omega), if_pos hlt', or_none]
        · rw [if_neg (by omega), if_pos (by omega), if_neg (by omega), if_pos heq]
          rfl
        · rw [if_neg (by omega), if_neg (by omega), if_neg (by omega), if_neg (by omega)]
          rfl
      rwa [heq] at htree
    · change v₁.space.isTreeTotal - 1 = _
      rw [hsame₁.total]
      rfl
    · refine ⟨?_, hself.2⟩
      change (v₁.space.isTable.entry (machPortIndex name)).ieBits = _
      rw [hself.1, ← hzero.2.1]
  | some q =>
    obtain ⟨qn, qe⟩ := q
    have hq := hsame'.pick.2 qn qe hp
    have hsameUpper : ∀ k k', update (fun n => if machPortIndex n = machPortIndex name
        then T n else none) tname none k ≠ none →
        (if machPortIndex k' < machPortIndex name + 1 then none else T k') ≠ none → k < k' := by
      intro k k' hk hk'
      have hki : machPortIndex k = machPortIndex name := by
        by_contra hne
        by_cases hkt : k = tname
        · rw [hkt, update_self] at hk
          exact hk rfl
        · rw [update_of_ne hkt, if_neg hne] at hk
          exact hk rfl
      by_contra hge
      have := machPortIndex_mono (not_lt.mp hge)
      split_ifs at hk' <;> first | omega | exact hk' rfl
    obtain ⟨tree₁, rest₁, hjoin₁, htree₁, -⟩ := hupper.join hsame' hsameUpper
    obtain ⟨tree, rest', hjoin, htree, -⟩ := htree₁.join hlower (by
      intro k k' hk hk'
      have hki : machPortIndex k < machPortIndex name := by
        by_contra hne
        rw [if_neg hne] at hk
        exact hk rfl
      have hki' : machPortIndex name ≤ machPortIndex k' := by
        by_contra hne
        apply hk'
        simp only [union]
        rw [if_pos (by omega)]
        by_cases hkt : k' = tname
        · rw [hkt, update_self]
          rfl
        · rw [update_of_ne hkt, if_neg (by omega)]
          rfl
      by_contra hge
      have := machPortIndex_mono (not_lt.mp hge)
      omega)
    simp only [hp, hjoin₁, map_some, bind_some, hjoin, Option.some.injEq] at hrun
    subst hrun
    have hset : ∀ j, ((v₁.space.isTable.setCollision (machPortIndex name) true).entry j).ieObject =
        (v₁.space.isTable.entry j).ieObject ∧
        ((v₁.space.isTable.setCollision (machPortIndex name) true).entry j).ieRequest =
        (v₁.space.isTable.entry j).ieRequest := by
      intro j
      have := (setCollision_contents v₁.space.isTable (machPortIndex name) true j).1
      exact ⟨congrArg Contents.object this, congrArg Contents.request this⟩
    refine ⟨_, h.pulled (b := true) hn hpicked htni ?_ hsame₁.table.size hsame₁.next ?_ ?_
      hsame₁.small ?_ ?_⟩
    · rw [hindex]
      exact ⟨fun _ => ⟨qn, by rw [hq]; exact fun h => (by cases h)⟩, fun _ => rfl⟩
    · have heq : union (fun n => if machPortIndex n < machPortIndex name then T n else none)
          (union (update (fun n => if machPortIndex n = machPortIndex name then T n
            else none) tname none)
            (fun n => if machPortIndex n < machPortIndex name + 1 then none else T n)) =
          update T tname none := by
        funext n
        rw [hmap n]
        simp only [union]
        rcases lt_trichotomy (machPortIndex n) (machPortIndex name) with hlt' | heq | hgt
        · have hnt : n ≠ tname := by
            rintro rfl
            omega
          rw [if_pos hlt', if_pos (by omega), if_pos hlt', update_of_ne hnt,
            if_neg (by omega), or_none, or_none]
        · rw [if_neg (by omega), if_pos (by omega), if_neg (by omega), if_pos heq, or_none]
          rfl
        · have hnt : n ≠ tname := by
            rintro rfl
            omega
          rw [if_neg (by omega), if_neg (by omega), if_neg (by omega), if_neg (by omega),
            update_of_ne hnt, if_neg (by omega)]
          rfl
      rwa [heq] at htree
    · change v₁.space.isTreeTotal - 1 = _
      rw [hsame₁.total]
      rfl
    · intro j hj
      refine ⟨?_, (hset j).1.trans (hother j hj).2.1, (hset j).2.trans (hother j hj).2.2⟩
      change ((v₁.space.isTable.setCollision (machPortIndex name) true).entry j).ieBits = _
      simp only [Table.setCollision, Table.setEntry, update_of_ne hj]
      exact (hother j hj).1
    · refine ⟨?_, (hset _).1.trans hself.2.1, (hset _).2.trans hself.2.2⟩
      change ((v₁.space.isTable.setCollision (machPortIndex name) true).entry
        (machPortIndex name)).ieBits = _
      simp only [Table.setCollision, Table.setEntry, update_self, hself.1]

theorem SpaceOk.dealloc (h : SpaceOk sizes v.space T fl) {name : MachPort}
    (hlive : v.space.liveName T name ≠ none)
    (hrun : ipcEntryDealloc sizes v name (v.space.locate name) = some v') :
    ∃ T' fl', SpaceOk sizes v'.space T' fl' ∧
      v'.space.liveName T' = update (v.space.liveName T) name none := by
  unfold ipcEntryDealloc at hrun
  simp only at hrun
  by_cases hn : v.space.named name = true
  · obtain ⟨hpos, hlt, htype, hgen⟩ := Space.named_iff.mp hn
    have hin : v.inTable name (v.space.locate name) = true := by
      simp [SpaceHash.inTable, Space.locate, hn, hlt]
    rw [if_pos hin] at hrun
    split at hrun
    · next hfree =>
      split at hrun
      · obtain ⟨T', hok, hnames⟩ := h.pull hn hrun
        exact ⟨T', fl, hok, hnames⟩
      · next hc =>
        have hne0 : (0 : ℕ) ≠ machPortIndex name := hpos.ne
        cases hrun
        refine ⟨T, machPortIndex name :: fl, h.release hn (by simpa using hc) hfree.1 ?_ ?_ ?_ ?_⟩
        · rfl
        · intro j hj hj0
          simp [Table.setEntry, update_of_ne hj, update_of_ne hj0]
        · simp [Table.setEntry, update_of_ne hne0]
        · simp [Table.setEntry, update_of_ne hne0.symm]
    · cases hrun
  · have hin : ¬ v.inTable name (v.space.locate name) = true := by
      simp [SpaceHash.inTable, Space.locate, hn]
    rw [if_neg hin, Space.locate, if_neg hn, if_pos rfl] at hrun
    rw [Space.liveName, if_neg hn] at hlive
    obtain ⟨c, hlive⟩ := ne_none_iff_exists'.mp hlive
    obtain ⟨x, hT, rfl⟩ := map_eq_some_iff.mp hlive
    obtain ⟨s', hs', rfl⟩ := map_eq_some_iff.mp hrun
    have hfree : x.ieObject = 0 ∧ x.ieRequest = 0 := by
      by_contra hfree
      unfold Darwin.Ipc.deallocTree at hs'
      have hguard : x.ieObject ≠ 0 ∨ x.ieRequest ≠ 0 := by tauto
      simp [h.holds.find?, hT, hguard] at hs'
    obtain ⟨s'', hrun'', hok, hnames⟩ := h.deallocTree hT hfree.1 hfree.2
    rw [hrun''] at hs'
    cases hs'
    exact ⟨_, fl, hok, hnames⟩

end pull

end Darwin.Ipc
