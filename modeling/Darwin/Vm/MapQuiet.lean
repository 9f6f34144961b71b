import Darwin.Vm.MapInsert

/-! # Deletions that destroy nothing

A range is deleted whose entries stand for no map, and for no object that is not shown in front of the
range too. No other map goes, and of the objects only the reference counts change.
-/
namespace Darwin.Vm
open Darwin.Lib List

variable {D : Type} {s s' : Maps D} {g g' : Objects D} {m m' : VmMap} {l p q : List ℕ}
  {id e x o start stop : ℕ} {object : Option ℕ} {n : ℤ} {r t u : VmMapEntry} {rs ts : List VmMapEntry}

/-! ## Objects apart from their counts -/

/-- The objects are the same, apart from their reference counts. -/
structure SameContents (g g' : Objects D) : Prop where
  records : ∀ o, (g'.table o).map (fun ob => { ob with refCount := 0 }) =
    (g.table o).map (fun ob => { ob with refCount := 0 })
  next : g'.next = g.next

theorem SameContents.refl (g : Objects D) : SameContents g g := ⟨fun _ => rfl, rfl⟩

theorem SameContents.trans {g'' : Objects D} (h : SameContents g g') (h' : SameContents g' g'') :
    SameContents g g'' := ⟨fun o => (h'.records o).trans (h.records o), h'.next.trans h.next⟩

/-- Nothing changes but the reference count of the object. -/
structure Shifts (g g' : Objects D) (object : Option ℕ) (n : ℤ) : Prop where
  contents : SameContents g g'
  count : ∀ o ob', g'.table o = some ob' → ∃ ob, g.table o = some ob ∧
    ob'.refCount = ob.refCount + if object = some o then n else 0

theorem shifts_none : Shifts g g none n :=
  ⟨.refl g, fun _ ob' hob' => ⟨ob', hob', by simp⟩⟩

theorem shifts_set {ob : VmObject D} (hob : g.table o = some ob) (n : ℤ) :
    Shifts g (g.set o { ob with refCount := ob.refCount + n }) (some o) n := by
  refine ⟨⟨fun y => ?_, rfl⟩, fun y ob' hob' => ?_⟩
  · by_cases hy : y = o
    · subst hy
      rw [Objects.set_self, hob]
      rfl
    · rw [Objects.set_of_ne hy]
  · by_cases hy : y = o
    · subst hy
      cases Objects.set_self.symm.trans hob'
      exact ⟨ob, hob, by rw [if_pos rfl]⟩
    · refine ⟨ob', (Objects.set_of_ne hy).symm.trans hob', ?_⟩
      rw [if_neg (fun heq => hy (Option.some.inj heq).symm), Int.add_zero]

theorem Objects.table_of_get {ob : VmObject D} (h : g.get o = .ok ob) : g.table o = some ob := by
  rw [get] at h
  split at h
  · rename_i hob
    cases h
    exact hob
  · cases h

theorem vmObjectReference_shifts (h : vmObjectReference g object = .ok g') : Shifts g g' object 1 := by
  cases object with
  | none =>
    cases h
    exact shifts_none
  | some o =>
    obtain ⟨ob, hob, h⟩ := ok_of_bind h
    cases h
    exact shifts_set (Objects.table_of_get hob) 1

theorem vmObjectDeallocate_shifts (hshared : ∀ o ob, object = some o → g.table o = some ob → 2 ≤ ob.refCount)
    (h : vmObjectDeallocate g object = .ok g') : Shifts g g' object (-1) := by
  rw [vmObjectDeallocate] at h
  cases object with
  | none =>
    have hsame : g = g' := by
      cases hnext : g.next with
      | zero =>
        rw [hnext] at h
        exact Except.ok.inj h
      | succ n =>
        rw [hnext] at h
        exact Except.ok.inj h
    subst hsame
    exact shifts_none
  | some o =>
    cases hnext : g.next with
    | zero =>
      rw [hnext] at h
      cases h
    | succ n =>
      rw [hnext, deallocateLoop] at h
      obtain ⟨ob, hob, h⟩ := ok_of_bind h
      replace hob := Objects.table_of_get hob
      have htwo := hshared o ob rfl hob
      dsimp only at h
      rw [if_pos (by omega)] at h
      cases h
      exact shifts_set hob (-1)

/-! ## Entries and references -/

/-- How many records stand for the object. -/
def holders (rs : List VmMapEntry) (o : ℕ) : ℕ := rs.countP (fun r => r.object = .object o)

@[simp] theorem holders_cons : holders (r :: rs) o = holders rs o + if r.object = .object o then 1 else 0 := by
  simp [holders, countP_cons]

@[simp] theorem holders_append : holders (rs ++ ts) o = holders rs o + holders ts o := countP_append

/-- Every object has as many references as there are records that stand for it. -/
def Counted (g : Objects D) (rs : List VmMapEntry) : Prop :=
  ∀ o ob, g.table o = some ob → (holders rs o : ℤ) ≤ ob.refCount

theorem Counted.shifts (hc : Counted g rs) (h : Shifts g g' object n)
    (hheld : ∀ o, (holders ts o : ℤ) = holders rs o + if object = some o then n else 0) : Counted g' ts := by
  intro o ob' hob'
  obtain ⟨ob, hob, hcount⟩ := h.count o ob' hob'
  rw [hheld, hcount]
  exact Int.add_le_add_right (hc o ob hob) _

/-- A step from the records `rs` to the records `ts` changes only counts, and rightly. -/
structure Recounts (s s' : Maps D) (rs ts : List VmMapEntry) : Prop where
  objects : Counted s.objects rs → Counted s'.objects ts ∧ SameContents s.objects s'.objects
  kernelObject : s'.kernelObject = s.kernelObject

theorem Recounts.refl (s : Maps D) (rs : List VmMapEntry) : Recounts s s rs rs :=
  ⟨fun hc => ⟨hc, .refl _⟩, rfl⟩

theorem Recounts.trans {s'' : Maps D} {us : List VmMapEntry} (h : Recounts s s' rs ts)
    (h' : Recounts s' s'' ts us) : Recounts s s'' rs us := by
  refine ⟨fun hc => ?_, h'.kernelObject.trans h.kernelObject⟩
  obtain ⟨hc', hsame⟩ := h.objects hc
  obtain ⟨hc'', hsame'⟩ := h'.objects hc'
  exact ⟨hc'', hsame.trans hsame'⟩

/-- A record that stands for an object. -/
def VmMapEntry.Plain (r : VmMapEntry) : Prop := r.isAMap = false ∧ r.isSubMap = false

theorem object_eq_iff (h : r.object.vmObject = .ok object) : r.object = .object o ↔ object = some o := by
  cases hobject : r.object with
  | null =>
    rw [hobject] at h
    cases h
    simp
  | object y =>
    rw [hobject] at h
    cases h
    simp
  | map id =>
    rw [hobject] at h
    cases h

theorem clipReference_recounts (hr : r.Plain) (ht : t.object = r.object) (hu : u.object = r.object)
    (h : clipReference s r = .ok s') :
    Recounts s s' (rs ++ r :: ts) (rs ++ t :: u :: ts) ∧ s'.table = s.table := by
  rw [clipReference, if_neg (by rw [hr.1, hr.2]; simp)] at h
  obtain ⟨y, hy, h⟩ := ok_of_bind h
  obtain ⟨g, hg, h⟩ := ok_of_bind h
  cases h
  have hshifts := vmObjectReference_shifts hg
  refine ⟨⟨fun hc => ⟨hc.shifts hshifts fun o => ?_, hshifts.contents⟩, rfl⟩, rfl⟩
  simp only [holders_append, holders_cons, ht, hu, object_eq_iff hy]
  split_ifs <;> omega

theorem releaseEntry_plain {deallocate : Maps D → Option ℕ → Except Stop (Maps D)} (hr : r.Plain)
    (h : releaseEntry deallocate s r = .ok s') : ∃ y g, r.object.vmObject = .ok y ∧
      vmObjectDeallocate s.objects y = .ok g ∧ s' = { s with objects := g } := by
  rw [releaseEntry, if_neg (by rw [hr.1, hr.2]; simp)] at h
  obtain ⟨y, hy, h⟩ := ok_of_bind h
  obtain ⟨g, hg, h⟩ := ok_of_bind h
  cases h
  exact ⟨y, g, hy, hg, rfl⟩

theorem releaseEntry_recounts {deallocate : Maps D → Option ℕ → Except Stop (Maps D)} (hr : r.Plain)
    (ht : t.object = r.object) (hheld : ∀ o, r.object = .object o → 0 < holders rs o)
    (h : releaseEntry deallocate s r = .ok s') : Recounts s s' (rs ++ t :: ts) (rs ++ ts) := by
  obtain ⟨y, g, hy, hg, rfl⟩ := releaseEntry_plain hr h
  refine ⟨fun hc => ?_, rfl⟩
  have hshifts : Shifts s.objects g y (-1) := by
    refine vmObjectDeallocate_shifts (fun o ob ho hob => ?_) hg
    have hobject := (object_eq_iff hy).mpr ho
    have hone := hheld o hobject
    have hcount := hc o ob hob
    rw [holders_append, holders_cons, if_pos (ht.trans hobject)] at hcount
    push_cast at hcount
    omega
  refine ⟨hc.shifts hshifts fun o => ?_, hshifts.contents⟩
  simp only [holders_append, holders_cons, ht, object_eq_iff hy]
  split_ifs <;> omega

/-! ## Clips -/

theorem clip_recounts {m₁ : VmMap} (hok : MapOk m₁ l)
    (hrecs : l.map m₁.entry = rs ++ r.front x :: r.back x :: ts) (hr : r.Plain)
    (h : clipReference (s.setMap id m₁) r = .ok s') (hm' : s'.table id = some m') :
    Recounts s s' (rs ++ r :: ts) (m'.entries.map m'.entry) := by
  obtain ⟨hrecounts, htable⟩ : Recounts _ s' (rs ++ r :: ts) (rs ++ r.front x :: r.back x :: ts) ∧ _ :=
    clipReference_recounts hr rfl rfl h
  rw [htable, Maps.setMap_self] at hm'
  cases hm'
  rw [hok.entries_eq, hrecs]
  exact ⟨hrecounts.objects, hrecounts.kernelObject⟩

theorem vmMapClipStart_recounts (hm : s.table id = some m) (hok : MapOk m (p ++ e :: q))
    (hx : x < (m.entry e).vmeEnd) (hr : (m.entry e).Plain) (h : vmMapClipStart s id e x = .ok s')
    (hm' : s'.table id = some m') : Recounts s s' ((p ++ e :: q).map m.entry) (m'.entries.map m'.entry) := by
  rw [vmMapClipStart, Maps.getMap_eq hm] at h
  change ite _ _ _ = _ at h
  split at h
  · rename_i hlt
    obtain ⟨hre, hfront, hback, hsame⟩ := hok.clipStart (Nat.le_of_lt hlt) hx
    rw [map_append, map_cons]
    exact clip_recounts hre.ok (cut_records hfront hback hsame) hr h hm'
  · cases h
    cases hm.symm.trans hm'
    rw [hok.entries_eq]
    exact .refl _ _

theorem vmMapClipEnd_recounts (hm : s.table id = some m) (hok : MapOk m (p ++ e :: q))
    (hx : (m.entry e).vmeStart ≤ x) (hr : (m.entry e).Plain) (h : vmMapClipEnd s id e x = .ok s')
    (hm' : s'.table id = some m') : Recounts s s' ((p ++ e :: q).map m.entry) (m'.entries.map m'.entry) := by
  rw [vmMapClipEnd, Maps.getMap_eq hm] at h
  change ite _ _ _ = _ at h
  split at h
  · rename_i hlt
    obtain ⟨hre, hfront, hback, hsame⟩ := hok.clipEnd hx hlt
    rw [map_append, map_cons]
    exact clip_recounts hre.ok (cut_records hfront hback hsame) hr h hm'
  · cases h
    cases hm.symm.trans hm'
    rw [hok.entries_eq]
    exact .refl _ _

theorem firstDoomed_recounts (hm : s.table id = some m) (hok : MapOk m l)
    (hplain : ∀ r ∈ l.map m.entry, r.vmeStart ≤ start → start < r.vmeEnd → r.Plain)
    (h : firstDoomed s id start = .ok (e, s')) (hm' : s'.table id = some m') :
    Recounts s s' (l.map m.entry) (m'.entries.map m'.entry) := by
  obtain ⟨⟨found, first, s₁⟩, hs₁, h⟩ := ok_of_bind h
  obtain ⟨p, q, hint, rfl, hsplit, hans, hhint, -, rfl⟩ := lookupEntry_spec hm hok hs₁
  have hok₁ := hok.setHint hhint
  rcases hans with ⟨rfl, hstart, q, rfl⟩ | ⟨rfl, -, -⟩
  · simp only [if_true] at h
    obtain ⟨s₂, hs₂, h⟩ := ok_of_bind h
    have hend := hsplit.after first mem_cons_self
    obtain ⟨m₂, -, hb, -⟩ := vmMapClipStart_spec Maps.setMap_self hok₁ hend hs₂
    have hr := hplain _ (mem_map_of_mem (mem_append_right p mem_cons_self)) hstart hend
    have hrecounts := vmMapClipStart_recounts Maps.setMap_self hok₁ hend hr hs₂ hb.2
    replace h := Maps.bind_getMap hb.2 h
    cases h
    cases Maps.setMap_self.symm.trans hm'
    exact ⟨hrecounts.objects, hrecounts.kernelObject⟩
  · simp only [Bool.false_eq_true, if_false] at h
    replace h := Maps.bind_getMap Maps.setMap_self h
    cases h
    cases Maps.setMap_self.symm.trans hm'
    have hentries : VmMap.entries { m with hint := hint } = p ++ q := hok₁.entries_eq
    rw [hentries]
    exact ⟨(Recounts.refl s _).objects, rfl⟩

/-! ## A whole range -/

/-- A record that may go: it stands for no map and, as far as `K` is known, nor for the kernel object, and
not alone for its object. -/
def VmMapEntry.Quiet (r : VmMapEntry) (K : Prop) (s : Maps D) (rs : List VmMapEntry) : Prop :=
  r.Plain ∧ (K → ∀ o, r.object = .object o → o ≠ s.kernelObject ∧ 0 < holders rs o)

/-- The map in the middle of such a deletion. -/
structure DeletingQuiet (K : Prop) (s : Maps D) (stop : ℕ) (m : VmMap) (p q : List ℕ) : Prop where
  ok : MapOk m (p ++ q)
  hint : m.hint ∈ 0 :: p
  firstFree : m.firstFree ∈ 0 :: p
  quiet : ∀ y ∈ q, (m.entry y).vmeStart < stop → (m.entry y).Quiet K s (p.map m.entry)

theorem DeletingQuiet.step {K : Prop} {deallocate : Maps D → Option ℕ → Except Stop (Maps D)}
    (hm : s.table id = some m) (h : DeletingQuiet K s stop m p (e :: q))
    (hlt : (m.entry e).vmeStart < stop) {next : ℕ}
    (hrun : clipped id stop (deleteEntry deallocate id) s e = .ok (next, s')) :
    ∃ m' q', s'.table id = some m' ∧ DeletingQuiet K s' stop m' p q' ∧ next = q'.headD 0 ∧
      (∀ id', id' ≠ id → (s.table id').isSome → (s'.table id').isSome) ∧
      (K → Recounts s s' ((p ++ e :: q).map m.entry) ((p ++ q').map m'.entry)) := by
  obtain ⟨s₁, hs₁, hrun⟩ := ok_of_bind hrun
  obtain ⟨m₁, q', hb, hre, -, -, hsame, -, hhint, hcut⟩ :=
    vmMapClipEnd_spec hm h.ok (Nat.le_of_lt hlt) hs₁
  have hrecounts := vmMapClipEnd_recounts hm h.ok (Nat.le_of_lt hlt) (h.quiet e mem_cons_self hlt).1 hs₁ hb.2
  rw [hre.ok.entries_eq] at hrecounts
  replace hrun := Maps.bind_getMap hb.2 hrun
  obtain ⟨s₂, hs₂, hrun⟩ := ok_of_bind hrun
  cases hrun
  obtain ⟨s₃, m₃, hm₃, hbut, hrelease, hok₃, hsame₃, -, hhint₃, hfree₃, -, -, -, hobjects⟩ :=
    deleteEntry_spec hb.2 hre.ok (hhint ▸ h.hint) (hre.firstFree ▸ h.firstFree) hs₂
  have hp : p.map m₁.entry = p.map m.entry :=
    map_congr_left fun y hy => hsame y (mem_append_left _ hy)
  have hp₃ : p.map m₃.entry = p.map m₁.entry :=
    map_congr_left fun y hy => hsame₃ y (mem_append_left _ hy)
  have hq₃ : q'.map m₃.entry = q'.map m₁.entry :=
    map_congr_left fun y hy => hsame₃ y (mem_append_right _ hy)
  -- what is cut off behind the range need not be quiet
  have hquiet : ∀ r ∈ (e :: q').map m₁.entry, r.vmeStart < stop → r.Quiet K s (p.map m₁.entry) := by
    rw [hp]
    have hold : ∀ r ∈ (e :: q).map m.entry, r.vmeStart < stop → r.Quiet K s (p.map m.entry) :=
      forall_mem_map.mpr h.quiet
    rcases hcut with heq | ⟨r, ts, heq, -, -, heq'⟩
    · rwa [heq]
    · rw [heq] at hold
      rw [heq']
      intro t ht htstop
      rcases mem_cons.mp ht with rfl | ht
      · exact hold r mem_cons_self htstop
      rcases mem_cons.mp ht with rfl | ht
      · exact absurd htstop (Nat.lt_irrefl stop)
      · exact hold t (mem_cons_of_mem _ ht) htstop
  have he : (m₁.entry e).Quiet K s (p.map m₁.entry) := by
    refine hquiet _ (mem_map_of_mem mem_cons_self) ?_
    rcases hcut with heq | ⟨r, ts, heq, -, -, heq'⟩
    · rw [(List.cons.inj heq).1]
      exact hlt
    · rw [(List.cons.inj heq').1]
      rw [(List.cons.inj heq).1] at hlt
      exact hlt
  have hkernel : s₁.kernelObject = s.kernelObject := hb.1.kernelObject
  have hplain : VmMapEntry.Plain { m₁.entry e with wiredCount := 0 } := he.1
  obtain ⟨y, g, -, -, rfl⟩ := releaseEntry_plain hplain hrelease
  refine ⟨m₃, q', hm₃, ⟨hok₃, ?_, ?_, ?_⟩, hre.ok.ring.next_mem, ?_, fun hK => hrecounts.trans ?_⟩
  · rw [hhint₃, hhint]
    exact h.hint
  · rw [hfree₃, hre.firstFree]
    exact h.firstFree
  · intro y hy hlt'
    rw [hsame₃ y (mem_append_right _ hy)] at hlt' ⊢
    have hy' := hquiet _ (mem_map_of_mem (mem_cons_of_mem _ hy)) hlt'
    rw [VmMapEntry.Quiet, hp₃]
    change _ ∧ (K → ∀ o, _ → o ≠ s₃.kernelObject ∧ _)
    rw [hbut.kernelObject, hkernel]
    exact hy'
  · intro id' hid hsome
    change (s₃.table id').isSome
    obtain ⟨m', hm'⟩ := Option.isSome_iff_exists.mp hsome
    rw [hbut.table id' hid]
    obtain ⟨c, hc⟩ := hb.1.get ((Maps.setMap_of_ne hid).trans hm')
    rw [hc]
    rfl
  · have hrelease' : Recounts _ _ (p.map m₁.entry ++ m₁.entry e :: q'.map m₁.entry)
        (p.map m₁.entry ++ q'.map m₁.entry) := releaseEntry_recounts hplain rfl (fun o ho => (he.2 hK o ho).2) hrelease
    have hsame' : s₃.objects = s₁.objects := hobjects fun hk => (he.2 hK _ hk).1 hkernel
    rw [map_append, map_append, map_cons, hp₃, hq₃]
    refine ⟨fun hc => ?_, hrelease'.kernelObject.trans hbut.kernelObject⟩
    rw [← hsame'] at hc ⊢
    exact hrelease'.objects hc

theorem viewOf_eq_some {a : ℕ} (h : viewOf rs a = some t) :
    ∃ r ∈ rs, r.vmeStart ≤ a ∧ a < r.vmeEnd ∧ t = r.clipTo a := by
  rw [viewOf, Option.map_eq_some_iff] at h
  obtain ⟨r, hr, rfl⟩ := h
  have hcov := List.find?_some hr
  rw [VmMapEntry.covers_eq_true] at hcov
  exact ⟨r, mem_of_find?_eq_some hr, hcov.1, hcov.2, rfl⟩

theorem vmMapDelete_quiet {K : Prop} (hm : s.table id = some m) (hok : MapOk m l)
    (hquiet : start < stop → ∀ r ∈ l.map m.entry, r.vmeStart < stop →
      (start < r.vmeEnd ∨ start ≤ r.vmeStart) → r.Plain ∧ (K → ∀ o, r.object = .object o →
        o ≠ s.kernelObject ∧ ∃ a < start, ∃ t, m.view a = some t ∧ t.object = .object o))
    (h : vmMapDelete s id start stop = .ok s') :
    (∀ id', id' ≠ id → (s.table id').isSome → (s'.table id').isSome) ∧
      (K → start < stop → ∀ m', s'.table id = some m' →
        Recounts s s' (l.map m.entry) (m'.entries.map m'.entry)) := by
  obtain ⟨⟨entry, s₁⟩, hs₁, h⟩ := ok_of_bind h
  obtain ⟨m₁, p, rest, hb, hre, rfl, hp, hrest, hhint⟩ := firstDoomed_spec hm hok hs₁
  have hsome₁ : ∀ id', id' ≠ id → (s.table id').isSome → (s₁.table id').isSome := by
    intro id' hid hsome
    obtain ⟨m', hm'⟩ := Option.isSome_iff_exists.mp hsome
    obtain ⟨c, hc⟩ := hb.1.get ((Maps.setMap_of_ne hid).trans hm')
    rw [hc]
    rfl
  have hkernel : s₁.kernelObject = s.kernelObject := hb.1.kernelObject
  replace h := Maps.bind_getMap hb.2 h
  have hdoomed : ∀ y ∈ rest, (m₁.entry y).vmeStart < stop → (m₁.entry y).Quiet K s₁ (p.map m₁.entry) := by
    intro y hy hlt
    obtain ⟨r, hr, hpiece⟩ := hre.pieces _ (mem_map_of_mem (mem_append_right p hy))
    have hs := hpiece.start
    have hin := hpiece.inside
    have hstart := hrest y hy
    have hsame := hpiece.clipTo _ (Nat.le_refl _)
    obtain ⟨hplain, hobject⟩ := hquiet (by omega) r hr (by omega) (by omega)
    have hmap := congrArg VmMapEntry.isAMap hsame
    have hsub := congrArg VmMapEntry.isSubMap hsame
    have hsameObject := congrArg VmMapEntry.object hsame
    refine ⟨⟨hmap.trans hplain.1, hsub.trans hplain.2⟩, fun hK o ho => ?_⟩
    obtain ⟨hne, a, ha, t, ht, hto⟩ := hobject hK o (hsameObject.symm.trans ho)
    rw [hkernel]
    refine ⟨hne, countP_pos_iff.mpr ?_⟩
    -- what is shown in front of the range is shown by an entry in front of it
    rw [hok.view_eq, ← hre.view, map_append, viewOf_append,
      viewOf_none_of_start (forall_mem_map.mpr hrest) ha, Option.or_none] at ht
    obtain ⟨z, hz, -, -, rfl⟩ := viewOf_eq_some ht
    exact ⟨z, hz, decide_eq_true hto⟩
  obtain ⟨y, hfree, heq⟩ := firstFree_before hb.2 hre.ok hrest
  have hdel : DeletingQuiet K s₁ stop { m₁ with firstFree := y } p rest :=
    ⟨hre.ok.setFirstFree (mem_append_left rest hfree), hhint, hfree, hdoomed⟩
  rw [heq] at h
  replace h := Maps.bind_getMap Maps.setMap_self h
  obtain ⟨p', q', m', ⟨-, hdel', hsome', hrecounts'⟩, hm', -⟩ := rangeLoop_rule
    (I := fun u p' q' => p' = p ∧ (∀ m', u.table id = some m' → DeletingQuiet K u stop m' p q') ∧
      (∀ id', id' ≠ id → (s.table id').isSome → (u.table id').isSome) ∧
      (K → ∀ m', u.table id = some m' → Recounts s₁ u ((p ++ rest).map m₁.entry) ((p ++ q').map m'.entry)))
    (fun u m' p' q' hI hm' => hI.1 ▸ (hI.2.1 m' hm').ok)
    (fun u m' p' e q' next u' hI hm' hlt hrun => by
      obtain ⟨rfl, hdel, hsome, hrecounts⟩ := hI
      obtain ⟨m'', q'', hm'', hdel', hnext, hkeep, hstep⟩ := (hdel m' hm').step hm' hlt hrun
      refine ⟨p', q'', ⟨rfl, fun m₃ hm₃ => ?_, fun id' hid hs => hkeep id' hid (hsome id' hid hs),
        fun hK m₃ hm₃ => ?_⟩, hnext⟩
      · cases hm''.symm.trans hm₃
        exact hdel'
      · cases hm''.symm.trans hm₃
        exact (hrecounts hK m' hm').trans (hstep hK))
    ⟨rfl, fun m' hm' => by
      cases Maps.setMap_self.symm.trans hm'
      exact ⟨hdel.ok, hdel.hint, hdel.firstFree, hdel.quiet⟩, fun id' hid hs => by
      rw [Maps.setMap_of_ne hid]
      exact hsome₁ id' hid hs, fun _ m' hm' => by
      cases Maps.setMap_self.symm.trans hm'
      exact ⟨(Recounts.refl s₁ _).objects, rfl⟩⟩ h
  refine ⟨hsome', fun hK hlt m'' hm'' => ?_⟩
  cases hm'.symm.trans hm''
  rw [(hdel' m' hm').ok.entries_eq]
  refine Recounts.trans ?_ (hrecounts' hK m' hm')
  rw [← hre.ok.entries_eq]
  refine firstDoomed_recounts hm hok (fun r hr hs he => ?_) hs₁ hb.2
  exact (hquiet hlt r hr (by omega) (.inl he)).1

end Darwin.Vm
