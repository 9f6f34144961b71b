import Darwin.Vm.MapClip

/-! # Deletion

`vm_map_delete` leaves nothing mapped in its range and changes nothing outside it. The
reference of a deleted entry is given up, which may destroy other maps but changes none that
is left.
-/
namespace Darwin.Vm
open Darwin.Lib Function List

variable {D : Type} {s s' s'' : Maps D} {m m' : VmMap} {l p q : List ℕ} {id e x a start stop : ℕ}

/-! ## Maps that are left -/

/-- The maps that are left are as they were, apart from their counts. -/
structure Survives (s s' : Maps D) : Prop where
  table : ∀ id m', s'.table id = some m' → ∃ c, s.table id = some { m' with refCount := c }
  next : s'.next = s.next
  zone : s'.zone = s.zone
  kernelObject : s'.kernelObject = s.kernelObject
  vmSubmapObject : s'.vmSubmapObject = s.vmSubmapObject

/-- Every map is well formed. -/
def Good (s : Maps D) : Prop := ∀ id m, s.table id = some m → ∃ l, MapOk m l

theorem Recounted.survives (h : Recounted s s') : Survives s s' :=
  ⟨fun _ _ hm => h.symm.get hm, h.next, h.zone, h.kernelObject, h.vmSubmapObject⟩

namespace Survives

theorem refl (s : Maps D) : Survives s s := (Recounted.refl s).survives

theorem trans (h : Survives s s') (h' : Survives s' s'') : Survives s s'' := by
  refine ⟨?_, h'.next.trans h.next, h'.zone.trans h.zone,
    h'.kernelObject.trans h.kernelObject, h'.vmSubmapObject.trans h.vmSubmapObject⟩
  intro id m'' hm''
  obtain ⟨c, hm'⟩ := h'.table id m'' hm''
  obtain ⟨d, hm⟩ := h.table id _ hm'
  exact ⟨d, hm⟩

theorem good (h : Survives s s') (hg : Good s) : Good s' := by
  intro id m' hm'
  obtain ⟨c, hm⟩ := h.table id m' hm'
  obtain ⟨l, hl⟩ := hg id _ hm
  exact ⟨l, hl.setRefCount m'.refCount⟩

theorem objects (s : Maps D) (g : Objects D) : Survives s { s with objects := g } :=
  (Recounted.objects s g).survives

end Survives

theorem Good.setMap (h : Good s) (hok : MapOk m l) : Good (s.setMap id m) := by
  intro id' m' hm'
  by_cases hid : id' = id
  · subst hid
    cases Maps.setMap_self.symm.trans hm'
    exact ⟨l, hok⟩
  · exact h id' m' ((Maps.setMap_of_ne hid).symm.trans hm')

/-- The same of the maps other than `id`. -/
structure SurvivesBut (id : ℕ) (s s' : Maps D) : Prop where
  table : ∀ id' m', id' ≠ id → s'.table id' = some m' →
    ∃ c, s.table id' = some { m' with refCount := c }
  next : s'.next = s.next
  zone : s'.zone = s.zone
  kernelObject : s'.kernelObject = s.kernelObject
  vmSubmapObject : s'.vmSubmapObject = s.vmSubmapObject

theorem Survives.but (h : Survives s s') (id : ℕ) : SurvivesBut id s s' :=
  ⟨fun id' m' _ hm' => h.table id' m' hm', h.next, h.zone, h.kernelObject, h.vmSubmapObject⟩

namespace SurvivesBut

theorem trans (h : SurvivesBut id s s') (h' : SurvivesBut id s' s'') : SurvivesBut id s s'' := by
  refine ⟨?_, h'.next.trans h.next, h'.zone.trans h.zone,
    h'.kernelObject.trans h.kernelObject, h'.vmSubmapObject.trans h.vmSubmapObject⟩
  intro id' m'' hid hm''
  obtain ⟨c, hm'⟩ := h'.table id' m'' hid hm''
  obtain ⟨d, hm⟩ := h.table id' _ hid hm'
  exact ⟨d, hm⟩

theorem becomes (h : Becomes s id m s') : SurvivesBut id s s' := by
  have hset : SurvivesBut id s (s.setMap id m) := by
    refine ⟨fun id' m' hid hm' => ?_, rfl, rfl, rfl, rfl⟩
    rw [Maps.setMap_of_ne hid] at hm'
    exact ⟨m'.refCount, hm'⟩
  exact hset.trans (h.1.survives.but id)

end SurvivesBut

/-- The maps other than `id` are the same. -/
structure SameBut (id : ℕ) (s s' : Maps D) : Prop where
  table : ∀ id', id' ≠ id → s'.table id' = s.table id'
  next : s'.next = s.next
  zone : s'.zone = s.zone
  kernelObject : s'.kernelObject = s.kernelObject
  vmSubmapObject : s'.vmSubmapObject = s.vmSubmapObject

namespace SameBut

theorem refl (id : ℕ) (s : Maps D) : SameBut id s s := ⟨fun _ _ => rfl, rfl, rfl, rfl, rfl⟩

theorem trans (h : SameBut id s s') (h' : SameBut id s' s'') : SameBut id s s'' :=
  ⟨fun id' hid => (h'.table id' hid).trans (h.table id' hid), h'.next.trans h.next,
    h'.zone.trans h.zone, h'.kernelObject.trans h.kernelObject,
    h'.vmSubmapObject.trans h.vmSubmapObject⟩

theorem replace (s : Maps D) (g : Objects D) (f : List FaultCall) (id : ℕ) (m : VmMap) :
    SameBut id s ({ s with objects := g, faults := f }.setMap id m) :=
  ⟨fun _ hid => Maps.setMap_of_ne hid, rfl, rfl, rfl, rfl⟩

theorem setMap (s : Maps D) (id : ℕ) (m : VmMap) : SameBut id s (s.setMap id m) :=
  replace s s.objects s.faults id m

theorem objects (s : Maps D) (g : Objects D) (id : ℕ) : SameBut id s { s with objects := g } :=
  ⟨fun _ _ => rfl, rfl, rfl, rfl, rfl⟩

theorem survives (h : SameBut id s s') : SurvivesBut id s s' :=
  ⟨fun id' m' hid hm' => ⟨m'.refCount, (h.table id' hid).symm.trans hm'⟩, h.next, h.zone,
    h.kernelObject, h.vmSubmapObject⟩

end SameBut

theorem Good.of_but (h : Good s) (hb : SurvivesBut id s s') (hm : s'.table id = some m)
    (hok : MapOk m l) : Good s' := by
  intro id' m' hm'
  by_cases hid : id' = id
  · subst hid
    cases hm.symm.trans hm'
    exact ⟨l, hok⟩
  · obtain ⟨c, hc⟩ := hb.table id' m' hid hm'
    obtain ⟨l', hl'⟩ := h id' _ hc
    exact ⟨l', hl'.setRefCount m'.refCount⟩

theorem Good.becomes (h : Good s) (hb : Becomes s id m s') (hok : MapOk m l) : Good s' :=
  hb.1.survives.good (h.setMap hok)

/-! ## Walks -/

theorem rangeLoop_rule {I : Maps D → List ℕ → List ℕ → Prop}
    {body : Maps D → ℕ → Except Stop (ℕ × Maps D)}
    (hmap : ∀ s m p q, I s p q → s.table id = some m → MapOk m (p ++ q))
    (hbody : ∀ s m p e q next s', I s p (e :: q) → s.table id = some m →
      (m.entry e).vmeStart < stop → body s e = .ok (next, s') →
      ∃ p' q', I s' p' q' ∧ next = q'.headD 0) {fuel : ℕ} :
    ∀ {s p q}, I s p q → rangeLoop id stop body fuel s (q.headD 0) = .ok s' →
      ∃ p' q' m', I s' p' q' ∧ s'.table id = some m' ∧
        ∀ x ∈ q', stop ≤ (m'.entry x).vmeStart := by
  induction fuel with
  | zero =>
    intro s p q _ h
    cases h
  | succ fuel ih =>
    intro s p q hI h
    obtain ⟨m, hm, h⟩ := ok_of_bind h
    replace hm := Maps.table_of_getMap hm
    have hok := hmap s m p q hI hm
    cases q with
    | nil =>
      cases h
      exact ⟨p, [], m, hI, hm, by simp⟩
    | cons e q =>
      have hne : e ≠ 0 := hok.pos (mem_append_right _ mem_cons_self)
      rw [headD_cons] at h
      by_cases hlt : (m.entry e).vmeStart < stop
      · rw [if_pos ⟨hne, hlt⟩] at h
        obtain ⟨⟨next, s₁⟩, hrun, h⟩ := ok_of_bind h
        obtain ⟨p', q', hI', rfl⟩ := hbody s m p e q next s₁ hI hm hlt hrun
        exact ih hI' h
      · rw [if_neg (fun hand => hlt hand.2)] at h
        cases h
        exact ⟨p, e :: q, m, hI, hm, fun x hx => (Nat.le_of_not_lt hlt).trans (hok.start_le hx)⟩

/-! ## One entry -/

/-- What gives up a reference to a map leaves the other maps alone. -/
def Gives (deallocate : Maps D → Option ℕ → Except Stop (Maps D)) : Prop :=
  ∀ s o s', Good s → deallocate s o = .ok s' → Survives s s'

theorem releaseEntry_spec {deallocate : Maps D → Option ℕ → Except Stop (Maps D)}
    (hd : Gives deallocate) {r : VmMapEntry} (hg : Good s)
    (h : releaseEntry deallocate s r = .ok s') : Survives s s' := by
  rw [releaseEntry] at h
  split at h
  · obtain ⟨o, -, h⟩ := ok_of_bind h
    exact hd s o s' hg h
  · obtain ⟨o, -, h⟩ := ok_of_bind h
    obtain ⟨g, -, h⟩ := ok_of_bind h
    cases h
    exact .objects s g

theorem updateEntry_spec {f : VmMapEntry → VmMapEntry} (h : updateEntry s id e f = .ok s') :
    ∃ m, s.table id = some m ∧ s' = s.setMap id (m.setEntry e (f (m.entry e))) := by
  obtain ⟨m, hm, h⟩ := ok_of_bind h
  cases h
  exact ⟨m, Maps.table_of_getMap hm, rfl⟩

theorem MapOk.setEntry (h : MapOk m (p ++ e :: q)) {r : VmMapEntry}
    (hs : r.vmeStart = (m.entry e).vmeStart) (he : r.vmeEnd = (m.entry e).vmeEnd) :
    MapOk (m.setEntry e r) (p ++ e :: q) := by
  refine h.setEntries (f := update m.entry e r) (update_of_ne h.mid_ne.1 _ _) ?_
  rw [map_append, map_cons, update_self, map_update_of_notMem h.notMem_left,
    map_update_of_notMem h.notMem_right]
  have hlaid := h.laid
  rw [map_append, map_cons] at hlaid
  exact hlaid.replace hs he

theorem unwireIfWired_spec (hm : s.table id = some m) (h : unwireIfWired s id e = .ok s') :
    s'.table id = some (m.setEntry e { m.entry e with wiredCount := 0 }) ∧ SameBut id s s' ∧
      s'.objects = s.objects ∧
      s'.faults = if (m.entry e).wiredCount = 0 then s.faults else .unwire id e :: s.faults := by
  replace h := Maps.bind_getMap hm h
  split at h
  · rename_i hw
    obtain ⟨m', hm', rfl⟩ := updateEntry_spec h
    cases hm.symm.trans hm'
    rw [if_neg hw]
    exact ⟨Maps.setMap_self, .replace s s.objects _ id _, rfl, rfl⟩
  · rename_i hw
    cases h
    have hw : (m.entry e).wiredCount = 0 := Decidable.not_not.mp hw
    have hself : m.setEntry e { m.entry e with wiredCount := 0 } = m := by
      rw [VmMap.setEntry, ← hw, update_eq_self]
    rw [hself, if_pos hw]
    exact ⟨hm, .refl id s, rfl, rfl⟩

theorem kernelPageRemove_spec {r : VmMapEntry} (h : kernelPageRemove s r = .ok s') :
    ∃ g, s' = { s with objects := g } ∧ (r.object ≠ .object s.kernelObject → g = s.objects) := by
  rw [kernelPageRemove] at h
  split at h
  · rename_i hkernel
    obtain ⟨ob, -, h⟩ := ok_of_bind h
    cases h
    exact ⟨_, rfl, fun hne => absurd hkernel hne⟩
  · cases h
    exact ⟨s.objects, rfl, fun _ => rfl⟩

variable {deallocate : Maps D → Option ℕ → Except Stop (Maps D)}

theorem deleteEntry_spec (hm : s.table id = some m) (hok : MapOk m (p ++ e :: q))
    (hhint : m.hint ∈ 0 :: p) (hfree : m.firstFree ∈ 0 :: p)
    (h : deleteEntry deallocate id s e = .ok s') :
    ∃ s₁ m₁, s₁.table id = some m₁ ∧ SameBut id s s₁ ∧
      releaseEntry deallocate s₁ { m.entry e with wiredCount := 0 } = .ok s' ∧
      MapOk m₁ (p ++ q) ∧ (∀ y ∈ p ++ q, m₁.entry y = m.entry y) ∧ m₁.entry 0 = m.entry 0 ∧
      m₁.hint = m.hint ∧ m₁.firstFree = m.firstFree ∧ m₁.isMainMap = m.isMainMap ∧
      m₁.size = u32Sub m.size (u32Sub (m.entry e).vmeEnd (m.entry e).vmeStart) ∧
      s₁.faults = (if (m.entry e).wiredCount = 0 then s.faults else .unwire id e :: s.faults) ∧
      ((m.entry e).object ≠ .object s.kernelObject → s₁.objects = s.objects) := by
  have hne : ∀ y ∈ 0 :: p, y ≠ e := by
    rintro y hy rfl
    rcases mem_cons.mp hy with hy | hy
    · exact hok.mid_ne.1 hy.symm
    · exact hok.notMem_left hy
  replace h := Maps.bind_getMap hm h
  obtain ⟨s₁, hs₁, h⟩ := ok_of_bind h
  obtain ⟨hm₁, hbut₁, hobjects₁, hfaults₁⟩ := unwireIfWired_spec hm hs₁
  obtain ⟨s₂, hs₂, h⟩ := ok_of_bind h
  obtain ⟨g, rfl, hg⟩ := kernelPageRemove_spec hs₂
  obtain ⟨s₃, hs₃, h⟩ := ok_of_bind h
  have hm₂ : { s₁ with objects := g }.table id = some _ := hm₁
  obtain ⟨hm₃, hbut₃, hobjects₃, hfaults₃⟩ := unwireIfWired_spec hm₂ hs₃
  -- the second time there is nothing to unwire
  have hself : (m.setEntry e { m.entry e with wiredCount := 0 }).entry e =
      { m.entry e with wiredCount := 0 } := update_self _ _ _
  have hagain : (m.setEntry e { m.entry e with wiredCount := 0 }).setEntry e
      { (m.setEntry e { m.entry e with wiredCount := 0 }).entry e with wiredCount := 0 } =
      m.setEntry e { m.entry e with wiredCount := 0 } := by
    rw [hself, VmMap.setEntry, VmMap.setEntry]
    simp only [update_idem]
  rw [hagain] at hm₃
  rw [hself, if_pos rfl] at hfaults₃
  replace h := Maps.bind_getMap hm₃ h
  have hok₁ := hok.setEntry (r := { m.entry e with wiredCount := 0 }) rfl rfl
  have hun := (hok₁.unlink (hne _ hhint) (hne _ hfree)).setSize
    (u32Sub m.size (u32Sub (m.entry e).vmeEnd (m.entry e).vmeStart))
  have hbut := ((hbut₁.trans (.objects s₁ g id)).trans hbut₃).trans
    (.setMap s₃ id { (m.setEntry e { m.entry e with wiredCount := 0 }).entryUnlink e with
      size := u32Sub m.size (u32Sub (m.entry e).vmeEnd (m.entry e).vmeStart) })
  simp only [hself] at h
  refine ⟨_, _, Maps.setMap_self, hbut, h, hun, ?_, ?_, rfl, rfl, rfl, rfl, ?_, fun hkernel => ?_⟩
  · intro y hy
    exact update_of_ne (hok.other_ne hy).1 _ _
  · exact update_of_ne hok.mid_ne.1 _ _
  · exact hfaults₃.trans hfaults₁
  · exact hobjects₃.trans ((hg (by rwa [hbut₁.kernelObject])).trans hobjects₁)

/-! ## A range -/

theorem setMap_becomes (s : Maps D) (id : ℕ) (m : VmMap) : Becomes s id m (s.setMap id m) :=
  ⟨.refl _, Maps.setMap_self⟩

theorem firstDoomed_spec (hm : s.table id = some m) (hok : MapOk m l)
    (h : firstDoomed s id start = .ok (e, s')) :
    ∃ m' p q, Becomes s id m' s' ∧ Reshaped m m' l (p ++ q) ∧ e = q.headD 0 ∧
      (∀ y ∈ p, (m'.entry y).vmeEnd ≤ start) ∧ (∀ y ∈ q, start ≤ (m'.entry y).vmeStart) ∧
      m'.hint ∈ 0 :: p := by
  obtain ⟨⟨found, first, s₁⟩, hs₁, h⟩ := ok_of_bind h
  obtain ⟨p, q, hint, rfl, hsplit, hans, hhint, hsaved, rfl⟩ := lookupEntry_spec hm hok hs₁
  have hok₁ := hok.setHint hhint
  rcases hans with ⟨rfl, hstart, q, rfl⟩ | ⟨rfl, rfl, hafter⟩
  · simp only [if_true] at h
    obtain ⟨s₂, hs₂, h⟩ := ok_of_bind h
    have hend := hsplit.after first mem_cons_self
    obtain ⟨m₂, p', hb, hre, hbefore, hs, he, -⟩ :=
      vmMapClipStart_spec Maps.setMap_self hok₁ hend hs₂
    rw [max_eq_right hstart] at hbefore hs
    replace h := Maps.bind_getMap hb.2 h
    cases h
    have hmem : m₂.prev e ∈ 0 :: p' := by
      rw [hre.ok.ring.prev_mem]
      exact LinkedRing.getLastD_mem p' 0
    refine ⟨_, p', e :: q, ((setMap_becomes s id _).trans hb).trans (setMap_becomes s₂ id _),
      hre.of_hint.setHint (mem_append_left (e :: q) hmem), rfl, hbefore, ?_, hmem⟩
    intro y hy
    exact (Nat.le_of_eq hs.symm).trans (hre.ok.start_le hy)
  · replace h := Maps.bind_getMap Maps.setMap_self h
    cases h
    refine ⟨_, p, q, setMap_becomes s id _, (Reshaped.refl hok).setHint hhint, hok.ring.next_last,
      hsplit.before, fun y hy => Nat.le_of_lt (hafter y hy), ?_⟩
    change hint ∈ 0 :: p
    rw [hsaved rfl]
    exact LinkedRing.getLastD_mem p 0

theorem viewOf_none_of_start {rs : List VmMapEntry} (h : ∀ r ∈ rs, x ≤ r.vmeStart) (ha : a < x) :
    viewOf rs a = none := by
  rw [viewOf_eq_none]
  intro r hr hc
  have := h r hr
  omega

theorem viewOf_none_of_end {rs : List VmMapEntry} (h : ∀ r ∈ rs, r.vmeEnd ≤ x) (ha : x ≤ a) :
    viewOf rs a = none := by
  rw [viewOf_eq_none]
  intro r hr hc
  have := h r hr
  omega

theorem Laid.viewOf_eq {rs : List VmMapEntry} {lo hi : ℕ} {r : VmMapEntry} (h : Laid lo hi rs) (hr : r ∈ rs)
    (ha : r.vmeStart ≤ a) (ha' : a < r.vmeEnd) : viewOf rs a = some (r.clipTo a) := by
  obtain ⟨front, back, rfl⟩ := append_of_mem hr
  have hbefore := (Laid.append_iff.mp h).2.2
  rw [viewOf_append, viewOf_none_of_end (fun t ht => hbefore t ht r mem_cons_self) ha,
    Option.none_or, viewOf_cons, if_pos (VmMapEntry.covers_eq_true.mpr ⟨ha, ha'⟩)]

theorem Laid.total_lt {rs : List VmMapEntry} {lo hi : ℕ} (h : Laid lo hi rs) (hhi : hi < 2 ^ 32) :
    total rs < 2 ^ 32 := by
  cases rs with
  | nil => exact Nat.two_pow_pos 32
  | cons r rs =>
    have hr := h.valid r mem_cons_self
    have := h.total_le (by omega)
    omega

/-- The map `m'` in the middle of the deletion of a range of `m`: the entries `p` before it are
as they were, `q` is what is left after it of `rest`. -/
structure Deleting (start stop : ℕ) (m m' : VmMap) (p rest q : List ℕ) : Prop where
  ok : MapOk m' (p ++ q)
  hint : m'.hint ∈ 0 :: p
  firstFree : m'.firstFree ∈ 0 :: p
  before : ∀ y ∈ p, m'.entry y = m.entry y
  header : m'.entry 0 = m.entry 0
  isMainMap : m'.isMainMap = m.isMainMap
  after : ∃ c, start ≤ c ∧ (c ≤ start ∨ c ≤ stop) ∧ (∀ y ∈ q, c ≤ (m'.entry y).vmeStart) ∧
    ∀ a, c ≤ a → viewOf (q.map m'.entry) a = viewOf (rest.map m.entry) a
  pieces : PiecesOf (q.map m'.entry) (rest.map m.entry)
  size : m.size = total ((p ++ rest).map m.entry) → m'.size = total ((p ++ q).map m'.entry)

theorem Deleting.step (hd : Gives deallocate) {rest : List ℕ} (hg : Good s)
    (hm : s.table id = some m') (h : Deleting start stop m m' p rest (e :: q))
    (hlt : (m'.entry e).vmeStart < stop) {next : ℕ}
    (hrun : clipped id stop (deleteEntry deallocate id) s e = .ok (next, s')) :
    ∃ q', Good s' ∧ SurvivesBut id s s' ∧ next = q'.headD 0 ∧
      ∀ m₁, s'.table id = some m₁ → Deleting start stop m m₁ p rest q' := by
  obtain ⟨s₁, hs₁, hrun⟩ := ok_of_bind hrun
  obtain ⟨m₁, q', hb, hre, hs, he, hclip, -, hhint, hcut⟩ :=
    vmMapClipEnd_spec hm h.ok (Nat.le_of_lt hlt) hs₁
  replace hrun := Maps.bind_getMap hb.2 hrun
  obtain ⟨s₂, hs₂, hrun⟩ := ok_of_bind hrun
  cases hrun
  have hg₁ := hg.becomes hb hre.ok
  have hhint₁ : m₁.hint ∈ 0 :: p := hhint ▸ h.hint
  have hfree₁ : m₁.firstFree ∈ 0 :: p := hre.firstFree ▸ h.firstFree
  obtain ⟨s₃, m₃, hm₃, hsame, hrelease, hok₃, hsame₃, hheader₃, hhint₃, hfree₃, hmain₃, hsize₃, -⟩ :=
    deleteEntry_spec hb.2 hre.ok hhint₁ hfree₁ hs₂
  have hbut₃ := hsame.survives
  have hg₃ := hg₁.of_but hbut₃ hm₃ hok₃
  have hsurv := releaseEntry_spec hd hg₃ hrelease
  refine ⟨q', hsurv.good hg₃, (SurvivesBut.becomes hb).trans (hbut₃.trans (hsurv.but id)),
    hre.ok.ring.next_mem, ?_⟩
  intro m₄ hm₄
  obtain ⟨c, hc⟩ := hsurv.table id m₄ hm₄
  cases hm₃.symm.trans hc
  have hq : q'.map m₄.entry = q'.map m₁.entry :=
    map_congr_left (fun y hy => hsame₃ y (mem_append_right _ hy))
  have hp : p.map m₄.entry = p.map m₁.entry :=
    map_congr_left (fun y hy => hsame₃ y (mem_append_left _ hy))
  have hval := hre.ok.valid (mem_append_right p (mem_cons_self (a := e) (l := q')))
  refine ⟨hok₃.setRefCount _, ?_, ?_, ?_, ?_, ?_, ?_, ?_, ?_⟩
  · exact hhint₃ ▸ hhint₁
  · exact hfree₃ ▸ hfree₁
  · intro y hy
    exact (hsame₃ y (mem_append_left _ hy)).trans
      ((hclip y (mem_append_left _ hy)).trans (h.before y hy))
  · exact hheader₃.trans (hre.header.trans h.header)
  · exact hmain₃.trans (hre.isMainMap.trans h.isMainMap)
  · obtain ⟨c₀, hc₀, -, hstart₀, hview₀⟩ := h.after
    have hce := hstart₀ e mem_cons_self
    refine ⟨(m₁.entry e).vmeEnd, by omega, .inr (by rw [he]; exact min_le_right _ _), ?_, ?_⟩
    · intro y hy
      rw [hsame₃ y (mem_append_right _ hy)]
      exact hre.ok.end_le hy
    · intro a ha
      have hnot : (m₁.entry e).covers a = false := by
        rw [Bool.eq_false_iff, Ne, VmMapEntry.covers_eq_true]
        omega
      have hcut' : viewOf ((e :: q').map m₁.entry) a = viewOf ((e :: q).map m'.entry) a := hcut.view
      rw [map_cons, viewOf_cons, hnot] at hcut'
      rw [hq, ← hview₀ a (by omega)]
      exact hcut'
  · rw [hq]
    refine PiecesOf.trans ?_ (hcut.pieces.trans h.pieces)
    exact PiecesOf.of_subset (subset_cons_self _ _)
  · intro hsize
    have hbefore := h.size hsize
    have htotal := hre.total
    have hlt₁ := hre.ok.laid.total_lt hre.ok.bound
    change m₄.size = total ((p ++ q').map m₄.entry)
    rw [map_append, total_append, map_cons, total_cons, VmMapEntry.length] at htotal hlt₁
    have hbound := hre.ok.bound
    rw [map_append, hp, hq, total_append]
    have hlen : u32Sub (m₁.entry e).vmeEnd (m₁.entry e).vmeStart =
        (m₁.entry e).vmeEnd - (m₁.entry e).vmeStart := u32Sub_eq hval.2.1 (by omega)
    have hsize₄ : m₄.size = u32Sub m₁.size (u32Sub (m₁.entry e).vmeEnd (m₁.entry e).vmeStart) := hsize₃
    rw [hsize₄, hlen, hre.size, hbefore, ← htotal, u32Sub_eq (by omega) (by omega)]
    omega

/-- The range is gone from the map `m`, and nothing else. -/
structure Deleted (start stop : ℕ) (m m' : VmMap) (l l' : List ℕ) : Prop where
  ok : MapOk m' l'
  view : ∀ a, viewOf (l'.map m'.entry) a =
    if start ≤ a ∧ a < stop then none else viewOf (l.map m.entry) a
  header : m'.entry 0 = m.entry 0
  isMainMap : m'.isMainMap = m.isMainMap
  pieces : PiecesOf (l'.map m'.entry) (l.map m.entry)
  size : m.size = total (l.map m.entry) → m'.size = total (l'.map m'.entry)

theorem Deleting.deleted {rest : List ℕ} (h : Deleting start stop m m' p rest q)
    (hp : ∀ y ∈ p, (m.entry y).vmeEnd ≤ start) (hrest : ∀ y ∈ rest, start ≤ (m.entry y).vmeStart)
    (hq : ∀ y ∈ q, stop ≤ (m'.entry y).vmeStart) :
    Deleted start stop m m' (p ++ rest) (p ++ q) := by
  have hpm : p.map m'.entry = p.map m.entry := map_congr_left h.before
  refine ⟨h.ok, ?_, h.header, h.isMainMap, ?_, h.size⟩
  · intro a
    obtain ⟨c, hc, hstop, hstart, hview⟩ := h.after
    have hends : ∀ r ∈ p.map m.entry, r.vmeEnd ≤ start := forall_mem_map.mpr hp
    rw [map_append, map_append, viewOf_append, viewOf_append, hpm]
    split_ifs with ha
    · rw [viewOf_none_of_end hends ha.1,
        viewOf_none_of_start (forall_mem_map.mpr hq) ha.2]
      rfl
    · by_cases hca : c ≤ a
      · rw [hview a hca]
      · rw [viewOf_none_of_start (forall_mem_map.mpr hstart) (Nat.lt_of_not_le hca),
          viewOf_none_of_start (forall_mem_map.mpr hrest) (by omega)]
  · rw [map_append, map_append, hpm]
    intro t ht
    rcases mem_append.mp ht with ht | ht
    · exact ⟨t, mem_append_left _ ht, .refl t⟩
    · obtain ⟨r, hr, htr⟩ := h.pieces t ht
      exact ⟨r, mem_append_right _ hr, htr⟩

theorem firstFree_before (hm : s.table id = some m) (hok : MapOk m (p ++ q))
    (hq : ∀ y ∈ q, start ≤ (m.entry y).vmeStart) :
    ∃ x ∈ 0 :: p, (if start ≤ (m.entry m.firstFree).vmeStart then
      s.setMap id { m with firstFree := m.prev (q.headD 0) } else s) =
      s.setMap id { m with firstFree := x } := by
  split_ifs with hlow
  · have hmem : m.prev (q.headD 0) ∈ 0 :: p := by
      rw [hok.ring.prev_head]
      exact LinkedRing.getLastD_mem p 0
    exact ⟨_, hmem, rfl⟩
  · refine ⟨m.firstFree, ?_, (Maps.setMap_eq_self hm).symm⟩
    have hfree := hok.firstFree
    rw [← cons_append] at hfree
    rcases mem_append.mp hfree with hfree | hfree
    · exact hfree
    · exact absurd (hq _ hfree) hlow

theorem deleteRange_spec (hd : Gives deallocate) (hg : Good s) (hm : s.table id = some m)
    (hok : MapOk m l) (h : deleteRange deallocate s id start stop = .ok s') :
    Good s' ∧ SurvivesBut id s s' ∧
      ∃ m' l', s'.table id = some m' ∧ Deleted start stop m m' l l' := by
  obtain ⟨⟨entry, s₁⟩, hs₁, h⟩ := ok_of_bind h
  obtain ⟨m₁, p, rest, hb, hre, rfl, hp, hrest, hhint⟩ := firstDoomed_spec hm hok hs₁
  replace h := Maps.bind_getMap hb.2 h
  obtain ⟨x, hfree, heq⟩ := firstFree_before hb.2 hre.ok hrest
  have hok₂ : MapOk { m₁ with firstFree := x } (p ++ rest) :=
    hre.ok.setFirstFree (mem_append_left rest hfree)
  rw [heq] at h
  have hb₂ : Becomes s id { m₁ with firstFree := x } (s₁.setMap id { m₁ with firstFree := x }) :=
    hb.trans (setMap_becomes s₁ id _)
  replace h := Maps.bind_getMap Maps.setMap_self h
  have hstart : Deleting start stop m₁ { m₁ with firstFree := x } p rest rest :=
    ⟨hok₂, hhint, hfree, fun _ _ => rfl, rfl, rfl,
      ⟨start, Nat.le_refl _, .inl (Nat.le_refl _), hrest, fun _ _ => rfl⟩, .refl _, fun hs => hs⟩
  obtain ⟨p', q', m', ⟨rfl, hg', hbut, hdel⟩, hm', hq'⟩ := rangeLoop_rule
    (I := fun u p' q' => p' = p ∧ Good u ∧ SurvivesBut id s u ∧
      ∀ m', u.table id = some m' → Deleting start stop m₁ m' p rest q')
    (fun u m' p' q' hI hm' => hI.1 ▸ (hI.2.2.2 m' hm').ok)
    (fun u m' p' e q' next u' hI hm' hlt hrun => by
      obtain ⟨rfl, hgu, hbut, hdel⟩ := hI
      obtain ⟨q'', hg', hbut', hnext, hdel'⟩ := (hdel m' hm').step hd hgu hm' hlt hrun
      exact ⟨p', q'', ⟨rfl, hg', hbut.trans hbut', hdel'⟩, hnext⟩)
    ⟨rfl, hg.becomes hb₂ hok₂, .becomes hb₂, fun m' hm' => by
      cases Maps.setMap_self.symm.trans hm'
      exact hstart⟩ h
  have hfinal := (hdel m' hm').deleted hp hrest hq'
  refine ⟨hg', hbut, m', p' ++ q', hm', hfinal.ok, ?_, hfinal.header.trans hre.header,
    hfinal.isMainMap.trans hre.isMainMap, hfinal.pieces.trans hre.pieces, ?_⟩
  · intro a
    rw [hfinal.view, hre.view]
  · intro hs
    apply hfinal.size
    rw [hre.size, hs, hre.total]

theorem vmMapDeallocate_gives (depth : ℕ) : Gives (vmMapDeallocate (D := D) depth) := by
  induction depth with
  | zero =>
    intro s o s' _ h
    cases o with
    | none =>
      cases h
      exact .refl s
    | some id => cases h
  | succ depth ih =>
    intro s o s' hg h
    cases o with
    | none =>
      cases h
      exact .refl s
    | some id =>
      obtain ⟨m, hm, h⟩ := ok_of_bind h
      replace hm := Maps.table_of_getMap hm
      obtain ⟨l, hok⟩ := hg id m hm
      have hcount := (Recounted.setMap hm (m.refCount - 1)).survives
      have hok₁ := hok.setRefCount (m.refCount - 1)
      split at h
      · cases h
        exact hcount
      · obtain ⟨s₁, hs₁, h⟩ := ok_of_bind h
        obtain ⟨m₁, -, h⟩ := ok_of_bind h
        cases h
        obtain ⟨-, hbut, -⟩ := deleteRange_spec ih (hg.setMap hok₁) Maps.setMap_self hok₁ hs₁
        refine hcount.trans ⟨?_, hbut.next, hbut.zone, hbut.kernelObject, hbut.vmSubmapObject⟩
        intro id' m' hm'
        by_cases hid : id' = id
        · subst hid
          rw [Maps.freeMap_self] at hm'
          cases hm'
        · rw [Maps.freeMap_of_ne hid] at hm'
          exact hbut.table id' m' hid hm'

theorem vmMapDelete_spec (hg : Good s) (hm : s.table id = some m) (hok : MapOk m l)
    (h : vmMapDelete s id start stop = .ok s') :
    Good s' ∧ SurvivesBut id s s' ∧
      ∃ m' l', s'.table id = some m' ∧ Deleted start stop m m' l l' :=
  deleteRange_spec (vmMapDeallocate_gives _) hg hm hok h

end Darwin.Vm
