import Darwin.Vm.FindEntry
import Darwin.Vm.MapEvolve

/-! # Changes of a range

`vm_map_inherit` and `vm_map_protect` cut the entries at the ends of a range and change a field or
two of those inside. Seen address by address they change the range and nothing else.
-/
namespace Darwin.Vm
open Darwin.Lib Function List

variable {D : Type} {s s' u u' : Maps D} {m m' : VmMap} {l l' p q : List ℕ}
  {id e a start stop newProt : ℕ} {setMax : Bool} {code : KernReturn}
  {f : VmMapEntry → VmMapEntry} {r t : VmMapEntry} {rs ts : List VmMapEntry}

/-! ## What is seen -/

/-- A change that leaves an entry where it is, and that parts of the entry undergo alike. -/
structure InPlace (f : VmMapEntry → VmMapEntry) : Prop where
  start : ∀ r, (f r).vmeStart = r.vmeStart
  stop : ∀ r, (f r).vmeEnd = r.vmeEnd
  clipTo : ∀ r a, (f r).clipTo a = f (r.clipTo a)

/-- Every address from `start` to `stop` is changed by `f`, and no other. -/
def Changed (f : VmMapEntry → VmMapEntry) (start stop : ℕ) (v v' : ℕ → Option VmMapEntry) : Prop :=
  ∀ a, v' a = if start ≤ a ∧ a < stop then (v a).map f else v a

theorem Evolved.view_same (hok : MapOk m l) (h : Evolved .same id m m' l l') :
    m'.view a = m.view a := by
  rw [h.ok.view_eq, hok.view_eq]
  cases hview : viewOf (l'.map m'.entry) a with
  | none =>
    by_contra hne
    have hmapped := h.mapped a (mapped_iff_view.mpr (Ne.symm hne))
    exact mapped_iff_view.mp hmapped hview
  | some r =>
    obtain ⟨t, hfind, rfl⟩ := Option.map_eq_some_iff.mp hview
    have hfound := List.find?_some hfind
    have hcov := VmMapEntry.covers_eq_true.mp hfound
    obtain ⟨x, hx, hpart⟩ := h.parts t (mem_of_find?_eq_some hfind)
    have hchange : x.clipTo a = t.clipTo a := hpart.change a hcov.1
    rw [hok.laid.viewOf_eq hx (hpart.start.trans hcov.1) (hcov.2.trans_le hpart.stop), hchange]

theorem Changed.record (hf : InPlace f) {v : ℕ → Option VmMapEntry} {x : ℕ}
    (hrs : ∀ t ∈ rs, t.vmeEnd ≤ x) (hr : start ≤ x ∧ x ≤ r.vmeStart ∧ r.vmeStart ≤ r.vmeEnd)
    (hts : ∀ t ∈ ts, r.vmeEnd ≤ t.vmeStart) (h : Changed f start x v (viewOf (rs ++ r :: ts))) :
    Changed f start r.vmeEnd v (viewOf (rs ++ f r :: ts)) := by
  intro a
  have hold := h a
  rw [viewOf_append, viewOf_cons] at hold ⊢
  have hcovers : (f r).covers a = r.covers a := by
    rw [VmMapEntry.covers, VmMapEntry.covers, hf.start, hf.stop]
  rw [hcovers]
  by_cases hax : a < x
  · have hcov : r.covers a = false := by
      rw [Bool.eq_false_iff, Ne, VmMapEntry.covers_eq_true]
      omega
    simp only [hcov, Bool.false_eq_true, if_false] at hold ⊢
    rw [hold]
    by_cases hs : start ≤ a
    · rw [if_pos ⟨hs, hax⟩, if_pos ⟨hs, by omega⟩]
    · rw [if_neg (fun hand => hs hand.1), if_neg (fun hand => hs hand.1)]
  · rw [viewOf_none_of_end hrs (Nat.le_of_not_lt hax), Option.none_or] at hold ⊢
    rw [if_neg (show ¬ (start ≤ a ∧ a < x) by omega)] at hold
    by_cases hin : a < r.vmeEnd
    · rw [if_pos (show start ≤ a ∧ a < r.vmeEnd by omega), ← hold]
      by_cases hcov : r.covers a = true
      · rw [if_pos hcov, if_pos hcov, Option.map_some, hf.clipTo]
      · rw [if_neg hcov, if_neg hcov, viewOf_none_of_start hts hin]
        rfl
    · have hcov : ¬ r.covers a = true := by
        rw [VmMapEntry.covers_eq_true]
        omega
      rw [if_neg (show ¬ (start ≤ a ∧ a < r.vmeEnd) by omega), ← hold, if_neg hcov, if_neg hcov]

/-! ## The walk -/

/-- The entry `e` of the map is changed; the hint may be another one. -/
def Edits (f : VmMapEntry → VmMapEntry) (id e : ℕ) (u u' : Maps D) : Prop :=
  ∀ m l, u.table id = some m → MapOk m l → e ∈ l →
    ∃ hint ∈ 0 :: l, u'.table id = some { m.setEntry e (f (m.entry e)) with hint := hint }

theorem updateEntry_edits (h : updateEntry u id e f = .ok u') : Edits f id e u u' := by
  intro m l hm hok _
  obtain ⟨m₁, hm₁, rfl⟩ := updateEntry_spec h
  cases hm.symm.trans hm₁
  exact ⟨m.hint, hok.hint, Maps.setMap_self⟩

/-- How far the walk has come: up to `x` the range has been changed. -/
structure Walked (f : VmMapEntry → VmMapEntry) (id start stop : ℕ) (v : ℕ → Option VmMapEntry)
    (u : Maps D) (p q : List ℕ) (m : VmMap) (x : ℕ) : Prop where
  table : u.table id = some m
  ok : MapOk m (p ++ q)
  from_start : start ≤ x
  upto : x = start ∨ x ≤ stop
  before : ∀ y ∈ p, (m.entry y).vmeEnd ≤ x
  behind : ∀ y ∈ q, x ≤ (m.entry y).vmeStart
  changed : Changed f start x v (viewOf ((p ++ q).map m.entry))

theorem Walked.step {g : Maps D → ℕ → Except Stop (Maps D)} (hf : InPlace f)
    (hg : ∀ u e u', g u e = .ok u' → Edits f id e u u') {v : ℕ → Option VmMapEntry} {x next : ℕ}
    (h : Walked f id start stop v u p (e :: q) m x) (hlt : (m.entry e).vmeStart < stop)
    (hrun : clipped id stop g u e = .ok (next, u')) :
    ∃ q' m' x', Walked f id start stop v u' (p ++ [e]) q' m' x' ∧ next = q'.headD 0 := by
  obtain ⟨u₁, hu₁, hrun⟩ := ok_of_bind hrun
  obtain ⟨m₁, q₁, hb, hre, hstart, hend, hsame, -⟩ :=
    vmMapClipEnd_spec h.table h.ok (Nat.le_of_lt hlt) hu₁
  replace hrun := Maps.bind_getMap hb.2 hrun
  obtain ⟨u₂, hu₂, hrun⟩ := ok_of_bind hrun
  cases hrun
  obtain ⟨hint, hhint, htable⟩ := hg u₁ e u' hu₂ m₁ _ hb.2 hre.ok
    (mem_append_right p mem_cons_self)
  have hxe := h.behind e mem_cons_self
  have hval := hre.ok.valid (mem_append_right p (mem_cons_self (a := e) (l := q₁)))
  have hbefore : ∀ y ∈ p, (m₁.entry y).vmeEnd ≤ x := by
    intro y hy
    rw [hsame y (mem_append_left q hy)]
    exact h.before y hy
  have hbehind : ∀ y ∈ q₁, (m₁.entry e).vmeEnd ≤ (m₁.entry y).vmeStart := fun y hy =>
    hre.ok.end_le hy
  have hrecs : (p ++ e :: q₁).map (m₁.setEntry e (f (m₁.entry e))).entry =
      p.map m₁.entry ++ f (m₁.entry e) :: q₁.map m₁.entry := by
    change (p ++ e :: q₁).map (update m₁.entry e _) = _
    rw [map_append, map_cons, update_self,
      map_update_of_notMem hre.ok.notMem_left, map_update_of_notMem hre.ok.notMem_right]
  have hends : ∀ y ∈ p ++ [e], ((m₁.setEntry e (f (m₁.entry e))).entry y).vmeEnd ≤
      (m₁.entry e).vmeEnd := by
    intro y hy
    rcases mem_append.mp hy with hy | hy
    · change (update m₁.entry e _ y).vmeEnd ≤ _
      rw [update_of_ne (fun heq : y = e => hre.ok.notMem_left (heq ▸ hy))]
      exact (hre.ok.sorted hy mem_cons_self).trans hval.2.1
    · rw [mem_singleton.mp hy]
      change (update m₁.entry e _ e).vmeEnd ≤ _
      rw [update_self, hf.stop]
  have hchanged : Changed f start x v (viewOf ((p ++ e :: q₁).map m₁.entry)) := by
    intro a
    rw [hre.view]
    exact h.changed a
  rw [map_append, map_cons] at hchanged
  have hok₂ : MapOk { m₁.setEntry e (f (m₁.entry e)) with hint := hint } ((p ++ [e]) ++ q₁) := by
    rw [append_assoc, singleton_append]
    exact (hre.ok.setEntry (hf.start _) (hf.stop _)).setHint hhint
  refine ⟨q₁, _, (m₁.entry e).vmeEnd, ⟨htable, hok₂, by have := h.from_start; omega, .inr (by omega),
    hends, ?_, ?_⟩, hre.ok.ring.next_mem⟩
  · intro y hy
    change _ ≤ (update m₁.entry e _ y).vmeStart
    rw [update_of_ne (fun heq : y = e => hre.ok.notMem_right (heq ▸ hy))]
    exact hbehind y hy
  · rw [append_assoc, singleton_append]
    change Changed f start _ v (viewOf ((p ++ e :: q₁).map (m₁.setEntry e (f (m₁.entry e))).entry))
    rw [hrecs]
    exact hchanged.record hf (forall_mem_map.mpr hbefore)
      ⟨h.from_start, by omega, hval.2.1⟩ (forall_mem_map.mpr hbehind)

theorem overRange_changed {g : Maps D → ℕ → Except Stop (Maps D)} (hf : InPlace f)
    (hg : ∀ u e u', g u e = .ok u' → Edits f id e u u') (hm : s.table id = some m)
    (hok : MapOk m (p ++ q)) (hp : ∀ y ∈ p, (m.entry y).vmeEnd ≤ start)
    (hq : ∀ y ∈ q, start ≤ (m.entry y).vmeStart)
    (h : overRange s id stop (clipped id stop g) (q.headD 0) = .ok s') :
    ∃ m', s'.table id = some m' ∧ (∃ l', MapOk m' l') ∧ Changed f start stop m.view m'.view := by
  replace h := Maps.bind_getMap hm h
  have hstart : Walked f id start stop m.view s p q m start := by
    refine ⟨hm, hok, Nat.le_refl start, .inl rfl, hp, hq, fun a => ?_⟩
    rw [if_neg (by omega), hok.view_eq]
  obtain ⟨p', q', m', ⟨m₁, x, hwalk⟩, hm', hbehind⟩ := rangeLoop_rule
    (I := fun u p' q' => ∃ m' x, Walked f id start stop m.view u p' q' m' x)
    (fun u m' p' q' hI hm' => by
      obtain ⟨m₁, x, hwalk⟩ := hI
      cases hwalk.table.symm.trans hm'
      exact hwalk.ok)
    (fun u m' p' e q' next u' hI hm' hlt hrun => by
      obtain ⟨m₁, x, hwalk⟩ := hI
      cases hwalk.table.symm.trans hm'
      obtain ⟨q'', m₂, x', hwalk', hnext⟩ := hwalk.step hf hg hlt hrun
      exact ⟨_, q'', ⟨m₂, x', hwalk'⟩, hnext⟩)
    ⟨m, start, hstart⟩ h
  cases hwalk.table.symm.trans hm'
  refine ⟨m', hm', ⟨_, hwalk.ok⟩, fun a => ?_⟩
  have hat := hwalk.changed a
  rw [hwalk.ok.view_eq, hat]
  by_cases hax : a < x
  · have hupto := hwalk.upto
    have hiff : (start ≤ a ∧ a < x) ↔ (start ≤ a ∧ a < stop) := by omega
    simp only [hiff]
  · rw [if_neg (show ¬ (start ≤ a ∧ a < x) by omega)] at hat ⊢
    split_ifs with hin
    · have hnone : viewOf ((p' ++ q').map m'.entry) a = none := by
        rw [map_append, viewOf_append, viewOf_none_of_end
          (forall_mem_map.mpr hwalk.before) (Nat.le_of_not_lt hax), Option.none_or]
        exact viewOf_none_of_start (forall_mem_map.mpr hbehind) hin.2
      rw [← hat, hnone]
      rfl
    · rfl

/-! ## `vm_map_inherit` -/

theorem Good.one (h : MapOk m l) : Good ((Maps.empty D).setMap 0 m) := by
  intro id m' hm
  by_cases hid : id = 0
  · subst hid
    cases Maps.setMap_self.symm.trans hm
    exact ⟨_, h⟩
  · cases (Maps.setMap_of_ne hid).symm.trans hm

theorem highMaps_good : Good highMaps := .one highMap_ok

/-- The map is well formed, and what `VM_MAP_RANGE_CHECK` leaves of the range has been changed. -/
def VmMap.Becomes (m m' : VmMap) (start stop : ℕ) (f : VmMapEntry → VmMapEntry) : Prop :=
  (∃ l, MapOk m' l) ∧
    Changed f (m.rangeCheck start stop).1 (m.rangeCheck start stop).2 m.view m'.view

theorem firstEntry_same (hg : Good s) (hm : s.table id = some m)
    (h : firstEntry s id start = .ok (e, s')) :
    ∃ m' p q, s'.table id = some m' ∧ MapOk m' (p ++ q) ∧ e = q.headD 0 ∧
      (∀ y ∈ p, (m'.entry y).vmeEnd ≤ start) ∧ (∀ y ∈ q, start ≤ (m'.entry y).vmeStart) ∧
      ∀ a, m'.view a = m.view a := by
  obtain ⟨hev, -, m', p, q, hm', hok', he, hp, hq⟩ := firstEntry_evolves (V := .same) hg h
  obtain ⟨l, hok⟩ := hg id m hm
  obtain ⟨m₁, l₁, hm₁, hevolved⟩ := hev.maps id m l hm hok
  cases hm'.symm.trans hm₁
  exact ⟨m', p, q, hm', hok', he, hp, hq, fun a => hevolved.view_same hok⟩

theorem Changed.of_same {v v₁ v' : ℕ → Option VmMapEntry} (h : Changed f start stop v₁ v')
    (hv : ∀ a, v₁ a = v a) : Changed f start stop v v' := by
  intro a
  rw [h a, hv]

/-- What a call makes of the map `m`: every address of the range gets the inheritance, and nothing
else changes. A code that is none changes nothing. -/
structure Inherits (s : Maps D) (id : ℕ) (m : VmMap) (start stop : ℕ) (newInheritance : VmInherit)
    (code : KernReturn) (s' : Maps D) : Prop where
  success_iff : code = .success ↔ ∀ c, newInheritance ≠ .other c
  failed : code ≠ .success → s' = s
  changed : code = .success → ∃ m', s'.table id = some m' ∧
    m.Becomes m' start stop (fun r => { r with inheritance := newInheritance })

theorem vmMapInherit_exact (hg : Good s) (hm : s.table id = some m) {newInheritance : VmInherit}
    (h : vmMapInherit s id start stop newInheritance = .ok (code, s')) :
    Inherits s id m start stop newInheritance code s' := by
  rw [vmMapInherit.eq_def] at h
  split at h
  · cases h
    exact ⟨iff_of_false (by decide) (fun hall => hall _ rfl), fun _ => rfl,
      fun hdone => absurd hdone (by decide)⟩
  · rename_i hcode
    replace h := Maps.bind_getMap hm h
    obtain ⟨⟨entry, s₁⟩, hs₁, h⟩ := ok_of_bind h
    obtain ⟨s₂, hs₂, h⟩ := ok_of_bind h
    cases h
    obtain ⟨m₁, p, q, hm₁, hok₁, rfl, hp, hq, hview⟩ := firstEntry_same hg hm hs₁
    obtain ⟨m', hm', hok', hchanged⟩ := overRange_changed
      (f := fun r => { r with inheritance := newInheritance })
      ⟨fun _ => rfl, fun _ => rfl, fun _ _ => rfl⟩ (fun _ _ _ hrun => updateEntry_edits hrun)
      hm₁ hok₁ hp hq hs₂
    exact ⟨iff_of_true rfl hcode, fun hfail => absurd rfl hfail,
      fun _ => ⟨m', hm', hok', hchanged.of_same hview⟩⟩

/-- Half of a page is no longer copied to a child. -/
theorem vmMapInherit_exact_half : ∃ s', vmMapInherit highMaps 0 4294955008 4294957056 .none =
    .ok (.success, s') ∧ Inherits highMaps 0 highMap 4294955008 4294957056 .none .success s' := by
  obtain ⟨s', hrun⟩ : ∃ s', vmMapInherit highMaps 0 4294955008 4294957056 .none =
    .ok (.success, s') := ⟨_, rfl⟩
  exact ⟨s', hrun, vmMapInherit_exact highMaps_good Maps.setMap_self hrun⟩

/-! ## `vm_map_protect` -/

theorem protect_inPlace (newProt : ℕ) (setMax : Bool) :
    InPlace (fun r => r.protect newProt setMax) := by
  cases setMax with
  | true => exact ⟨fun _ => rfl, fun _ => rfl, fun _ _ => rfl⟩
  | false => exact ⟨fun _ => rfl, fun _ => rfl, fun _ _ => rfl⟩

theorem lookupEntry_table {share : ℕ} {found : Bool} (h : s.lookupEntry share a = .ok (found, e, s'))
    (hne : id ≠ share) : s'.table id = s.table id := by
  obtain ⟨m, -, h⟩ := ok_of_bind h
  obtain ⟨result, -, h⟩ := ok_of_bind h
  cases h
  exact Maps.setMap_of_ne hne

theorem protectEntry_edits (h : protectEntry newProt setMax id u e = .ok u') :
    Edits (fun r => r.protect newProt setMax) id e u u' := by
  intro m l hm hok he
  replace h := Maps.bind_getMap hm h
  obtain ⟨u₁, hu₁, h⟩ := ok_of_bind h
  obtain ⟨hint, hhint, hm₁⟩ := updateEntry_edits hu₁ m l hm hok he
  split at h
  · obtain ⟨share, -, h⟩ := ok_of_bind h
    cases share with
    | none => cases h
    | some share =>
      obtain ⟨⟨found, e', u₂⟩, hu₂, h⟩ := ok_of_bind h
      cases h
      by_cases hid : id = share
      · subst hid
        obtain ⟨p, q, rfl⟩ := append_of_mem he
        have hplace := protect_inPlace newProt setMax
        have hok₁ := (hok.setEntry (hplace.start _) (hplace.stop _)).setHint hhint
        obtain ⟨-, -, hint', -, -, -, hhint', -, rfl⟩ := lookupEntry_spec hm₁ hok₁ hu₂
        exact ⟨hint', hhint', Maps.setMap_self⟩
      · rw [lookupEntry_table hu₂ hid]
        exact ⟨hint, hhint, hm₁⟩
  · cases h
    exact ⟨hint, hhint, hm₁⟩

theorem protectCheck_success {fuel : ℕ} : ∀ {p q : List ℕ}, MapOk m (p ++ q) →
    m.protectCheck stop newProt fuel (q.headD 0) = .ok .success →
    ∀ y ∈ q, (m.entry y).vmeStart < stop → (m.entry y).isSubMap = false ∧
      newProt &&& (m.entry y).maxProtection = newProt := by
  induction fuel with
  | zero =>
    intro p q _ h
    cases h
  | succ fuel ih =>
    intro p q hok h y hy hlt
    cases q with
    | nil => cases hy
    | cons e q =>
      have hfirst := hok.start_le hy
      have he : e ≠ 0 := hok.pos (mem_append_right p mem_cons_self)
      rw [VmMap.protectCheck, headD_cons, if_pos ⟨he, by omega⟩] at h
      split_ifs at h with hsub hprot
      · cases h
      · cases h
      · rw [hok.ring.next_mem] at h
        rcases mem_cons.mp hy with rfl | hy
        · exact ⟨Bool.eq_false_iff.mpr hsub, Decidable.not_not.mp hprot⟩
        · have hok' : MapOk m ((p ++ [e]) ++ q) := by
            rwa [append_assoc, singleton_append]
          exact ih hok' h y hy hlt

/-- No address has a protection that its maximum does not allow. -/
def Permitted (v : ℕ → Option VmMapEntry) : Prop :=
  ∀ a r, v a = some r → r.protection &&& r.maxProtection = r.protection

theorem Permitted.protect {v v' : ℕ → Option VmMapEntry} (h : Permitted v)
    (hchanged : Changed (fun r => r.protect newProt setMax) start stop v v')
    (hmax : ∀ a r, start ≤ a → a < stop → v a = some r → newProt &&& r.maxProtection = newProt) :
    Permitted v' := by
  intro a r' hr'
  rw [hchanged a] at hr'
  split_ifs at hr' with hin
  · obtain ⟨r, hr, rfl⟩ := Option.map_eq_some_iff.mp hr'
    rw [VmMapEntry.protect]
    split_ifs
    · change newProt &&& r.protection &&& newProt = newProt &&& r.protection
      rw [Nat.and_comm newProt, Nat.and_assoc, Nat.and_self]
    · exact hmax a r hin.1 hin.2 hr
  · exact h a r' hr'

/-- What a call makes of the map `m`: one that fails changes nothing that is seen. One that succeeds
sets the protection in the range and nowhere else; every entry there was allowed it and was no
submap. -/
structure Protects (m : VmMap) (start stop newProt : ℕ) (setMax : Bool) (code : KernReturn)
    (m' : VmMap) : Prop where
  wellFormed : ∃ l, MapOk m' l
  permitted : Permitted m.view → Permitted m'.view
  failed : code ≠ .success → ∀ a, m'.view a = m.view a
  changed : code = .success → m.Becomes m' start stop (fun r => r.protect newProt setMax)
  allowed : code = .success → ∀ a r, (m.rangeCheck start stop).1 ≤ a →
    a < (m.rangeCheck start stop).2 → m.view a = some r →
      r.isSubMap = false ∧ newProt &&& r.maxProtection = newProt

/-- `vm_map_protect` changes all of the range or nothing. -/
theorem vmMapProtect_exact (hg : Good s) (hm : s.table id = some m)
    (h : vmMapProtect s id start stop newProt setMax = .ok (code, s')) :
    ∃ m', s'.table id = some m' ∧ Protects m start stop newProt setMax code m' := by
  replace h := Maps.bind_getMap hm h
  obtain ⟨⟨entry, s₁⟩, hs₁, h⟩ := ok_of_bind h
  obtain ⟨m₁, p, q, hm₁, hok₁, rfl, hp, hq, hview⟩ := firstEntry_same hg hm hs₁
  replace h := Maps.bind_getMap hm₁ h
  obtain ⟨result, hcheck, h⟩ := ok_of_bind h
  by_cases hresult : result = .success
  · subst hresult
    obtain ⟨s₂, hs₂, h⟩ := ok_of_bind h
    cases h
    obtain ⟨m', hm', hok', hchanged⟩ := overRange_changed (protect_inPlace newProt setMax)
      (fun _ _ _ hrun => protectEntry_edits hrun) hm₁ hok₁ hp hq hs₂
    have hallowed : ∀ a r, (m.rangeCheck start stop).1 ≤ a → a < (m.rangeCheck start stop).2 →
        m.view a = some r → r.isSubMap = false ∧ newProt &&& r.maxProtection = newProt := by
      intro a r ha ha' hr
      rw [← hview, hok₁.view_eq] at hr
      obtain ⟨t, hfind, rfl⟩ := Option.map_eq_some_iff.mp hr
      have hfound := List.find?_some hfind
      have hcov := VmMapEntry.covers_eq_true.mp hfound
      obtain ⟨y, hy, rfl⟩ := mem_map.mp (mem_of_find?_eq_some hfind)
      rcases mem_append.mp hy with hy | hy
      · exact absurd (ha.trans_lt hcov.2) (Nat.not_lt.mpr (hp y hy))
      · exact protectCheck_success hok₁ hcheck y hy (hcov.1.trans_lt ha')
    have hsame := hchanged.of_same hview
    exact ⟨m', hm', hok', fun hper =>
      hper.protect hsame (fun a r ha ha' hr => (hallowed a r ha ha' hr).2),
      fun hfail => absurd rfl hfail, fun _ => ⟨hok', hsame⟩, fun _ => hallowed⟩
  · have hfails : code = result ∧ s' = s₁ := by
      cases result with
      | success => exact absurd rfl hresult
      | _ =>
        cases h
        exact ⟨rfl, rfl⟩
    obtain ⟨rfl, rfl⟩ := hfails
    exact ⟨m₁, hm₁, ⟨_, hok₁⟩, fun hper a r hr => hper a r ((hview a).symm.trans hr),
      fun _ => hview, fun hdone => absurd hdone hresult, fun hdone => absurd hdone hresult⟩

/-- Two pages side by side, of which the second may only be read. -/
def guardedMap : VmMap where
  next e := if e < 2 then e + 1 else 0
  prev e := if e = 0 then 2 else e - 1
  entry e :=
    if e = 0 then { VmMapEntry.zero with vmeStart := 4096, vmeEnd := 65536 }
    else if e = 1 then { VmMapEntry.zero with
      vmeStart := 4096, vmeEnd := 8192, protection := 1, maxProtection := 7 }
    else { VmMapEntry.zero with
      vmeStart := 8192, vmeEnd := 12288, protection := 1, maxProtection := 1 }
  fresh := 3
  nentries := 2
  size := 8192
  isMainMap := true
  refCount := 1
  hint := 0
  firstFree := 2

theorem guardedMap_ok : MapOk guardedMap [1, 2] where
  ring := ⟨by decide, by decide⟩
  count := rfl
  laid := ⟨by decide, by decide⟩
  bound := by decide
  hint := by decide
  firstFree := by decide
  fresh := by decide

def guardedMaps : Maps ℕ := (Maps.empty ℕ).setMap 0 guardedMap

/-- The first page is cut in half, the second refuses, and nothing that is seen has changed. -/
theorem vmMapProtect_exact_refused : ∃ s' m',
    vmMapProtect guardedMaps 0 6144 12288 3 false = .ok (.protectionFailure, s') ∧
      s'.table 0 = some m' ∧ m'.nentries = 3 ∧
      Protects guardedMap 6144 12288 3 false .protectionFailure m' := by
  obtain ⟨s', hrun, m'', hm'', hclipped⟩ : ∃ s', vmMapProtect guardedMaps 0 6144 12288 3 false =
    .ok (.protectionFailure, s') ∧ ∃ m', s'.table 0 = some m' ∧ m'.nentries = 3 :=
      ⟨_, rfl, _, rfl, rfl⟩
  obtain ⟨m', hm', hprotects⟩ := vmMapProtect_exact (.one guardedMap_ok) Maps.setMap_self hrun
  cases hm'.symm.trans hm''
  exact ⟨s', m'', hrun, hm'', hclipped, hprotects⟩

/-! ## `vm_map_remove` -/

/-- Nothing is mapped in the range any more. The rest of the map is as before, and so are the other
maps that are left, but for their reference counts. -/
structure Removes (s : Maps D) (id : ℕ) (m : VmMap) (start stop : ℕ) (s' : Maps D) : Prop where
  good : Good s'
  others : ∀ id' m', id' ≠ id → s'.table id' = some m' →
    ∃ c, s.table id' = some { m' with refCount := c }
  removed : ∃ m', s'.table id = some m' ∧ ∀ a, m'.view a =
    if (m.rangeCheck start stop).1 ≤ a ∧ a < (m.rangeCheck start stop).2 then none else m.view a

end Darwin.Vm
