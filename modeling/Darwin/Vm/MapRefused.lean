import Darwin.Vm.MapQuiet
import Darwin.Vm.MapCopy

/-! # Copies that fail

`vm_map_copy` checks the protection of both ranges, or that the destination can be
allocated, before it changes anything. What it does after an error is to delete the source
when that was asked for.
-/
namespace Darwin.Vm
open Darwin.Lib Function List

variable {D : Type} {s s' s'' : Maps D} {m d : VmMap} {l p q : List ℕ}
  {id e x a start stop prot : ℕ} {rs ts : List VmMapEntry}

/-! ## Protection checks -/

/-- A record covers the address. -/
def Mapped (rs : List VmMapEntry) (a : ℕ) : Prop := ∃ r ∈ rs, r.vmeStart ≤ a ∧ a < r.vmeEnd

/-- The whole range is mapped, with the protection. -/
structure Allowed (rs : List VmMapEntry) (start stop prot : ℕ) : Prop where
  first : Mapped rs start
  mapped : ∀ a, start ≤ a → a < stop → Mapped rs a
  protection : start < stop → ∀ r ∈ rs, start < r.vmeEnd → r.vmeStart < stop →
    r.protection &&& prot = prot

theorem mapped_iff_view : Mapped rs a ↔ viewOf rs a ≠ none := by
  rw [Ne, viewOf_eq_none, Mapped]
  push Not
  rfl

theorem mapped_cons {r : VmMapEntry} :
    Mapped (r :: rs) a ↔ (r.vmeStart ≤ a ∧ a < r.vmeEnd) ∨ Mapped rs a := by
  simp only [Mapped, mem_cons, exists_eq_or_imp]

theorem mapped_append : Mapped (rs ++ ts) a ↔ Mapped rs a ∨ Mapped ts a := by
  simp only [Mapped, mem_append, or_and_right, exists_or]

theorem checkLoop_spec {fuel : ℕ} {b : Bool} :
    ∀ {p q : List ℕ} {start : ℕ}, MapOk m (p ++ q) → (∀ y ∈ q, start ≤ (m.entry y).vmeEnd) →
      m.checkLoop stop prot fuel (q.headD 0) start = .ok b →
      (b = true ↔ (start < stop → (∀ a, start ≤ a → a < stop → Mapped (q.map m.entry) a) ∧
        ∀ y ∈ q, (m.entry y).vmeStart < stop → (m.entry y).protection &&& prot = prot)) := by
  induction fuel with
  | zero =>
    intro p q start _ _ h
    cases h
  | succ fuel ih =>
    intro p q start hok hends h
    rw [VmMap.checkLoop] at h
    by_cases hlt : start < stop
    · rw [if_pos hlt] at h
      cases q with
      | nil =>
        cases h
        refine ⟨by simp, fun hall => ?_⟩
        obtain ⟨r, hr, -⟩ := (hall hlt).1 start (Nat.le_refl _) hlt
        cases hr
      | cons e q =>
        have he : e ≠ 0 := hok.pos (mem_append_right p mem_cons_self)
        rw [headD_cons, if_neg he] at h
        by_cases hhole : start < (m.entry e).vmeStart
        · -- nothing is mapped at the start
          rw [if_pos hhole] at h
          cases h
          refine ⟨by simp, fun hall => ?_⟩
          obtain ⟨r, hr, hcov⟩ := (hall hlt).1 start (Nat.le_refl _) hlt
          obtain ⟨y, hy, rfl⟩ := mem_map.mp hr
          have := hok.start_le hy
          omega
        rw [if_neg hhole] at h
        by_cases hprot : (m.entry e).protection &&& prot ≠ prot
        · rw [if_pos hprot] at h
          cases h
          refine ⟨by simp, fun hall => ?_⟩
          exact absurd ((hall hlt).2 e mem_cons_self (by omega)) hprot
        · rw [if_neg hprot, hok.ring.next_mem] at h
          have hok' : MapOk m ((p ++ [e]) ++ q) := by
            rwa [append_assoc, singleton_append]
          have hend := hends e mem_cons_self
          have hnext : ∀ y ∈ q, (m.entry e).vmeEnd ≤ (m.entry y).vmeEnd := by
            intro y hy
            have hval := hok.valid (mem_append_right p (mem_cons_of_mem e hy))
            exact (hok.end_le hy).trans hval.2.1
          rw [ih hok' hnext h]
          constructor
          · intro hall _
            refine ⟨fun a ha hstop => ?_, fun y hy hstop => ?_⟩
            · rw [map_cons, mapped_cons]
              by_cases hin : a < (m.entry e).vmeEnd
              · exact .inl ⟨by omega, hin⟩
              · exact .inr ((hall (by omega)).1 a (by omega) hstop)
            · rcases mem_cons.mp hy with rfl | hy
              · exact Decidable.not_not.mp hprot
              · have := hok.end_le hy
                exact (hall (by omega)).2 y hy hstop
          · intro hall hlt'
            obtain ⟨hmapped, hprots⟩ := hall hlt
            refine ⟨fun a ha hstop => ?_, fun y hy => hprots y (mem_cons_of_mem _ hy)⟩
            have hcov := hmapped a (by omega) hstop
            rw [map_cons, mapped_cons] at hcov
            exact hcov.resolve_left (by omega)
    · rw [if_neg hlt] at h
      cases h
      exact ⟨fun _ hlt' => absurd hlt' hlt, fun _ => rfl⟩

theorem vmMapCheckProtection_spec (hm : s.table id = some m) (hok : MapOk m l) {b : Bool}
    (h : vmMapCheckProtection s id start stop prot = .ok (b, s')) :
    (b = true ↔ Allowed (l.map m.entry) start stop prot) ∧
      ∃ hint ∈ 0 :: l, s' = s.setMap id { m with hint := hint } := by
  obtain ⟨⟨found, e, s₁⟩, hs₁, h⟩ := ok_of_bind h
  obtain ⟨p, q, hint, rfl, hsplit, hans, hhint, -, rfl⟩ := lookupEntry_spec hm hok hs₁
  rcases hans with ⟨rfl, hstart, q, rfl⟩ | ⟨rfl, -, hafter⟩
  · simp only [if_true] at h
    replace h := Maps.bind_getMap Maps.setMap_self h
    obtain ⟨b', hb', h⟩ := ok_of_bind h
    cases h
    refine ⟨?_, hint, hhint, rfl⟩
    have hloop := checkLoop_spec (hok.setHint hhint)
      (fun y hy => Nat.le_of_lt (hsplit.after y hy)) hb'
    have hend := hsplit.after e mem_cons_self
    rw [hloop, map_append]
    constructor
    · intro hall
      refine ⟨mapped_append.mpr (.inr (mapped_cons.mpr (.inl ⟨hstart, hend⟩))), ?_, ?_⟩
      · intro a ha hstop
        exact mapped_append.mpr (.inr ((hall (by omega)).1 a ha hstop))
      · intro hlt r hr hafter hbefore
        rcases mem_append.mp hr with hr | hr
        · obtain ⟨y, hy, rfl⟩ := mem_map.mp hr
          have := hsplit.before y hy
          omega
        · obtain ⟨y, hy, rfl⟩ := mem_map.mp hr
          exact (hall hlt).2 y hy hbefore
    · rintro ⟨-, hmapped, hprot⟩ hlt
      refine ⟨fun a ha hstop => ?_, fun y hy hbefore => ?_⟩
      · refine (mapped_append.mp (hmapped a ha hstop)).resolve_left ?_
        rintro ⟨r, hr, hcov⟩
        obtain ⟨y, hy, rfl⟩ := mem_map.mp hr
        have := hsplit.before y hy
        omega
      · exact hprot hlt _ (mem_append_right _ (mem_map_of_mem hy)) (hsplit.after y hy)
          hbefore
  · simp only [Bool.false_eq_true, if_false] at h
    cases h
    refine ⟨⟨by simp, fun hall => ?_⟩, hint, hhint, rfl⟩
    obtain ⟨r, hr, hcov⟩ := hall.first
    obtain ⟨y, hy, rfl⟩ := mem_map.mp hr
    rcases mem_append.mp hy with hy | hy
    · have := hsplit.before y hy
      omega
    · have := hafter y hy
      omega

/-! ## States that differ in hints -/

/-- Only hints have moved. -/
def Hinted (s s' : Maps D) : Prop :=
  ∃ hint : ℕ → ℕ, (∀ id m, s.table id = some m → hint id ∈ 0 :: m.entries) ∧
    s' = { s with table := fun id => (s.table id).map (fun m => { m with hint := hint id }) }

namespace Hinted

theorem refl (hg : Good s) : Hinted s s := by
  refine ⟨fun id => ((s.table id).map VmMap.hint).getD 0, ?_, ?_⟩
  · intro id m hm
    obtain ⟨l, hok⟩ := hg id m hm
    simp only [hm, hok.entries_eq]
    exact hok.hint
  · have htable : (fun id => (s.table id).map
        (fun m => { m with hint := ((s.table id).map VmMap.hint).getD 0 })) = s.table := by
      funext id
      cases s.table id <;> rfl
    rw [htable]

theorem trans (h : Hinted s s') (h' : Hinted s' s'') : Hinted s s'' := by
  obtain ⟨hint, -, rfl⟩ := h
  obtain ⟨hint', hmem, rfl⟩ := h'
  refine ⟨hint', fun id m hm => ?_, ?_⟩
  · have hm' : (s.table id).map (fun m => { m with hint := hint id }) =
        some { m with hint := hint id } := by
      rw [hm]
      rfl
    exact hmem id { m with hint := hint id } hm'
  · simp only [Option.map_map]
    rfl

theorem setMap (hg : Good s) (hm : s.table id = some m) (hok : MapOk m l) (hx : x ∈ 0 :: l) :
    Hinted s (s.setMap id { m with hint := x }) := by
  obtain ⟨hint, hmem, hself⟩ := refl hg
  refine ⟨update hint id x, ?_, ?_⟩
  · intro id' m' hm'
    by_cases hid : id' = id
    · subst hid
      cases hm.symm.trans hm'
      rw [update_self, hok.entries_eq]
      exact hx
    · rw [update_of_ne hid]
      exact hmem id' m' hm'
  · rw [Maps.setMap]
    congr 1
    funext id'
    by_cases hid : id' = id
    · subst hid
      rw [update_self, update_self, hm]
      rfl
    · rw [update_of_ne hid, update_of_ne hid]
      exact congrFun (congrArg Maps.table hself) id'

theorem get (h : Hinted s s') (hm : s.table id = some m) (hok : MapOk m l) :
    ∃ x ∈ 0 :: l, s'.table id = some { m with hint := x } := by
  obtain ⟨hint, hmem, rfl⟩ := h
  refine ⟨hint id, hok.entries_eq ▸ hmem id m hm, ?_⟩
  simp only [hm, Option.map_some]

theorem good (h : Hinted s s') (hg : Good s) : Good s' := by
  obtain ⟨hint, hmem, rfl⟩ := h
  intro id m' hm'
  obtain ⟨m, hm, rfl⟩ := Option.map_eq_some_iff.mp hm'
  obtain ⟨l, hok⟩ := hg id m hm
  exact ⟨l, hok.setHint (hok.entries_eq ▸ hmem id m hm)⟩

theorem objects (h : Hinted s s') : s'.objects = s.objects := by
  obtain ⟨hint, -, rfl⟩ := h
  rfl

end Hinted

/-! ## Refused copies -/

/-- The range can be inserted. -/
def Insertable (m : VmMap) (start stop : ℕ) : Prop :=
  m.minOffset ≤ start ∧ start < stop ∧ stop ≤ m.maxOffset ∧
    Free (m.entries.map m.entry) start stop

/-- What `vm_map_copy` checks between two main maps, once neither range wraps. -/
def CopyAllowed (m d : VmMap) (dstStart dstEnd srcStart srcEnd : ℕ) (dstAlloc : Bool) : Prop :=
  m.isMainMap → d.isMainMap → Allowed (m.entries.map m.entry) srcStart srcEnd vmProtRead ∧
    if dstAlloc then Insertable d dstStart dstEnd
    else Allowed (d.entries.map d.entry) dstStart dstEnd vmProtWrite

theorem copyChecks_spec {src dst dstStart dstEnd srcStart srcEnd : ℕ} {dstAlloc : Bool}
    {code : KernReturn} (hg : Good s) (hm : s.table src = some m) (hd : s.table dst = some d)
    (h : copyChecks s dst src dstStart dstEnd srcStart srcEnd dstAlloc = .ok (code, s')) :
    (code = .success ↔ CopyAllowed m d dstStart dstEnd srcStart srcEnd dstAlloc) ∧
      (code ≠ .success → Hinted s s') := by
  obtain ⟨lm, hokm⟩ := hg src m hm
  obtain ⟨ld, hokd⟩ := hg dst d hd
  rw [CopyAllowed, Insertable, hokm.entries_eq, hokd.entries_eq]
  replace h := Maps.bind_getMap hm h
  replace h := Maps.bind_getMap hd h
  by_cases hmain : m.isMainMap = true ∧ d.isMainMap = true
  swap
  · rw [if_neg hmain] at h
    cases h
    exact ⟨⟨fun _ h₁ h₂ => absurd ⟨h₁, h₂⟩ hmain, fun _ => rfl⟩, fun hne => absurd rfl hne⟩
  rw [if_pos hmain] at h
  obtain ⟨⟨readable, s₁⟩, hs₁, h⟩ := ok_of_bind h
  obtain ⟨hread, hint, hhint, rfl⟩ := vmMapCheckProtection_spec hm hokm hs₁
  have hh := Hinted.setMap hg hm hokm hhint
  dsimp only at h
  by_cases hr : readable = false
  · rw [if_pos hr] at h
    cases h
    refine ⟨⟨by simp, fun hall => ?_⟩, fun _ => hh⟩
    have := hread.mpr (hall hmain.1 hmain.2).1
    rw [hr] at this
    cases this
  rw [if_neg hr] at h
  have hallowed := hread.mp (by simpa using hr)
  obtain ⟨x, hx, hd₁⟩ := hh.get hd hokd
  have hokd₁ := hokd.setHint hx
  cases dstAlloc with
  | true =>
    simp only [if_true] at h ⊢
    rcases vmMapInsert_spec hd₁ hokd₁ h with ⟨hne, hnot, hint', hhint', rfl⟩ | ⟨rfl, hall, -⟩
    · refine ⟨⟨fun hs => absurd hs hne, fun hall => ?_⟩, fun _ => hh.trans ?_⟩
      · exact absurd (hall hmain.1 hmain.2).2 hnot
      · exact .setMap (hh.good hg) hd₁ hokd₁ hhint'
    · exact ⟨⟨fun _ _ _ => ⟨hallowed, hall⟩, fun _ => rfl⟩, fun hne => absurd rfl hne⟩
  | false =>
    simp only [Bool.false_eq_true, if_false] at h ⊢
    obtain ⟨⟨writable, s₂⟩, hs₂, h⟩ := ok_of_bind h
    obtain ⟨hwrite, hint', hhint', rfl⟩ := vmMapCheckProtection_spec hd₁ hokd₁ hs₂
    cases h
    have hh' := hh.trans (.setMap (hh.good hg) hd₁ hokd₁ hhint')
    refine ⟨?_, fun _ => hh'⟩
    cases writable with
    | true => exact ⟨fun _ _ _ => ⟨hallowed, hwrite.mp rfl⟩, fun _ => rfl⟩
    | false =>
      refine ⟨by simp, fun hall => ?_⟩
      exact absurd (hwrite.mpr (hall hmain.1 hmain.2).2) (by simp)

theorem vmMapCopy_cases {src dst dstAddr len srcAddr : ℕ} {dstAlloc srcDestroy : Bool}
    {code : KernReturn} (hg : Good s) (hm : s.table src = some m) (hd : s.table dst = some d)
    (h : vmMapCopy s dst src dstAddr len srcAddr dstAlloc srcDestroy = .ok (code, s')) :
    (code ≠ .success ∧ s' = s ∧
      (u32 (dstAddr + len) < dstAddr ∨ u32 (srcAddr + len) < srcAddr)) ∨
    (¬ (u32 (dstAddr + len) < dstAddr ∨ u32 (srcAddr + len) < srcAddr) ∧
      (code = .success ↔ CopyAllowed m d dstAddr (u32 (dstAddr + len)) srcAddr
        (u32 (srcAddr + len)) dstAlloc) ∧
      (code ≠ .success → ∃ s₁, Hinted s s₁ ∧
        (if srcDestroy then vmMapDelete s₁ src srcAddr (u32 (srcAddr + len)) else .ok s₁) =
          .ok s')) := by
  rw [vmMapCopy, copyNested] at h
  dsimp only at h
  split at h
  · rename_i hwrap
    cases h
    exact .inl ⟨by simp, rfl, hwrap⟩
  rename_i hwrap
  obtain ⟨⟨result, s₁⟩, hs₁, h⟩ := ok_of_bind h
  obtain ⟨hcode, hfail⟩ := copyChecks_spec hg hm hd hs₁
  -- what is done last, whatever the result is
  have hlast : ∀ {u : Maps D}, (if srcDestroy = true then do
        let s ← vmMapDelete u src srcAddr (u32 (srcAddr + len))
        pure (result, s)
      else pure (result, u) : Except Stop _) = .ok (code, s') → code = result ∧
      (if srcDestroy then vmMapDelete u src srcAddr (u32 (srcAddr + len)) else .ok u) = .ok s' := by
    intro u hu
    split at hu
    · rename_i hdestroy
      obtain ⟨s₃, hs₃, hu⟩ := ok_of_bind hu
      cases hu
      exact ⟨rfl, (if_pos hdestroy).trans hs₃⟩
    · rename_i hdestroy
      cases hu
      exact ⟨rfl, if_neg hdestroy⟩
  dsimp only at h
  split at h
  · rename_i hsuccess
    obtain ⟨s₂, -, h⟩ := ok_of_bind h
    obtain ⟨rfl, -⟩ := hlast h
    exact .inr ⟨hwrap, hcode, fun hne => absurd hsuccess hne⟩
  · obtain ⟨rfl, hrun⟩ := hlast h
    exact .inr ⟨hwrap, hcode, fun hne => ⟨s₁, hfail hne, hrun⟩⟩

/-! ## What a deletion of nothing does -/

theorem clipReference_contents {r : VmMapEntry} (h : clipReference s r = .ok s') :
    SameContents s.objects s'.objects := by
  rw [clipReference] at h
  split at h
  · obtain ⟨o, -, h⟩ := ok_of_bind h
    cases o with
    | none =>
      cases h
      exact .refl _
    | some o =>
      obtain ⟨m, -, h⟩ := ok_of_bind h
      cases h
      exact .refl _
  · obtain ⟨o, -, h⟩ := ok_of_bind h
    obtain ⟨g, hg, h⟩ := ok_of_bind h
    cases h
    exact (vmObjectReference_shifts hg).contents

theorem vmMapDelete_idle (hm : s.table id = some m) (hok : MapOk m l)
    (hne : ∀ e ∈ l, (m.entry e).vmeStart < (m.entry e).vmeEnd)
    (hidle : ∀ a, start ≤ a → a < stop → ¬ Mapped (l.map m.entry) a)
    (h : vmMapDelete s id start stop = .ok s') :
    SameContents s.objects s'.objects ∧ (start < stop → s'.objects = s.objects) := by
  obtain ⟨⟨entry, s₁⟩, hs₁, h⟩ := ok_of_bind h
  have hfirst : (SameContents s.objects s₁.objects ∧ (start < stop → s₁.objects = s.objects)) ∧ ∃ m₁, s₁.table id = some m₁ ∧
      (entry = 0 ∨ stop ≤ (m₁.entry entry).vmeStart) := by
    obtain ⟨⟨found, e, s₂⟩, hs₂, hs₁⟩ := ok_of_bind hs₁
    obtain ⟨p, q, hint, rfl, hsplit, hans, hhint, -, rfl⟩ := lookupEntry_spec hm hok hs₂
    rcases hans with ⟨rfl, hstart, q, rfl⟩ | ⟨rfl, rfl, hafter⟩
    · -- the range is empty, as its start is mapped
      have hend := hsplit.after e mem_cons_self
      have hempty : stop ≤ start := by
        by_contra hlt
        refine hidle start (Nat.le_refl _) (Nat.lt_of_not_le hlt) ⟨m.entry e, ?_, hstart, hend⟩
        exact mem_map_of_mem (mem_append_right p mem_cons_self)
      simp only [if_true] at hs₁
      obtain ⟨s₃, hs₃, hs₁⟩ := ok_of_bind hs₁
      obtain ⟨m₃, p', hb, -, -, hs, -⟩ := vmMapClipStart_spec Maps.setMap_self
        (hok.setHint hhint) hend hs₃
      replace hs₁ := Maps.bind_getMap hb.2 hs₁
      cases hs₁
      refine ⟨⟨?_, fun hlt => absurd hlt (Nat.not_lt.mpr hempty)⟩, _, Maps.setMap_self, .inr ?_⟩
      · replace hs₃ := Maps.bind_getMap Maps.setMap_self hs₃
        have hclip : SameContents s.objects s₃.objects := by
          split at hs₃
          · have hcontents := clipReference_contents hs₃
            exact hcontents
          · cases hs₃
            exact .refl _
        exact hclip
      · change stop ≤ (m₃.entry entry).vmeStart
        rw [hs]
        exact hempty.trans (le_max_right _ _)
    · replace hs₁ := Maps.bind_getMap Maps.setMap_self hs₁
      cases hs₁
      refine ⟨⟨.refl _, fun _ => rfl⟩, _, Maps.setMap_self, ?_⟩
      change m.next (p.getLastD 0) = 0 ∨ stop ≤ (m.entry (m.next (p.getLastD 0))).vmeStart
      rw [hok.ring.next_last]
      cases q with
      | nil => exact .inl rfl
      | cons b q =>
        have hb : b ∈ p ++ b :: q := mem_append_right p mem_cons_self
        refine .inr ?_
        by_contra hlt
        have hlow := hafter b mem_cons_self
        exact hidle (m.entry b).vmeStart (Nat.le_of_lt hlow) (Nat.lt_of_not_le hlt)
          ⟨m.entry b, mem_map_of_mem hb, Nat.le_refl _, hne b hb⟩
  obtain ⟨hsame, m₁, hm₁, hstop⟩ := hfirst
  replace h := Maps.bind_getMap hm₁ h
  have hloop : ∀ {u : Maps D} (m₂ : VmMap), u.table id = some m₂ → m₂.entry = m₁.entry →
      overRange u id stop (clipped id stop (deleteEntry (vmMapDeallocate (s.next + 1)) id)) entry =
        .ok s' → u.objects = s'.objects := by
    intro u m₂ hm₂ hentry hrun
    replace hrun := Maps.bind_getMap hm₂ hrun
    rw [rangeLoop] at hrun
    replace hrun := Maps.bind_getMap hm₂ hrun
    rw [if_neg (by rw [hentry]; omega)] at hrun
    cases hrun
    rfl
  dsimp only at h
  split at h
  · have hobjects := hloop { m₁ with firstFree := m₁.prev entry } Maps.setMap_self rfl h
    rw [← hobjects]
    exact hsame
  · rw [← hloop m₁ hm₁ rfl h]
    exact hsame

/-! ## What a failing copy leaves -/

/-- The map is still there, and shows at every address what it did before. -/
def Maps.ShowsSame (s s' : Maps D) (id : ℕ) : Prop :=
  ∀ m, s.table id = some m → ∃ m', s'.table id = some m' ∧ ∀ a, m'.view a = m.view a

/-- Both maps show what they did. -/
structure LeftAlone (s s' : Maps D) (src dst : ℕ) : Prop where
  source : s.ShowsSame s' src
  destination : s.ShowsSame s' dst

/-- The maps are well formed, and no entry is empty. -/
def Proper (s : Maps D) : Prop := ∀ id m, s.table id = some m →
  ∃ l, MapOk m l ∧ ∀ e ∈ l, (m.entry e).vmeStart < (m.entry e).vmeEnd

theorem Proper.good (h : Proper s) : Good s := by
  intro id m hm
  obtain ⟨l, hok, -⟩ := h id m hm
  exact ⟨l, hok⟩

theorem Maps.ShowsSame.trans (h : s.ShowsSame s' id) (h' : s'.ShowsSame s'' id) : s.ShowsSame s'' id := by
  intro m hm
  obtain ⟨m', hm', hview⟩ := h m hm
  obtain ⟨m'', hm'', hview'⟩ := h' m' hm'
  exact ⟨m'', hm'', fun a => (hview' a).trans (hview a)⟩

theorem Hinted.showsSame (h : Hinted s s') (hg : Good s) (id : ℕ) : s.ShowsSame s' id := by
  intro m hm
  obtain ⟨l, hok⟩ := hg id m hm
  obtain ⟨x, hx, hm'⟩ := h.get hm hok
  exact ⟨_, hm', fun a => rfl⟩

theorem SurvivesBut.showsSame {id' : ℕ} (h : SurvivesBut id s s') (hid : id' ≠ id)
    (hsome : (s.table id').isSome → (s'.table id').isSome) : s.ShowsSame s' id' := by
  intro m hm
  obtain ⟨m', hm'⟩ := Option.isSome_iff_exists.mp (hsome (by rw [hm]; rfl))
  obtain ⟨c, hc⟩ := h.table id' m' hid hm'
  cases hm.symm.trans hc
  exact ⟨m', hm', fun a => rfl⟩

theorem showsSame_of_delete {src : ℕ} (hg : Good s) (hm : s.table src = some m) (hok : MapOk m l)
    (hne : ∀ e ∈ l, (m.entry e).vmeStart < (m.entry e).vmeEnd)
    (hidle : ∀ a, start ≤ a → a < stop → m.view a = none)
    (h : vmMapDelete s src start stop = .ok s') (id : ℕ) : s.ShowsSame s' id := by
  obtain ⟨-, hbut, m', l', hm', hdel⟩ := vmMapDelete_spec hg hm hok h
  by_cases hid : id = src
  · subst hid
    intro m₁ hm₁
    cases hm.symm.trans hm₁
    refine ⟨m', hm', fun a => ?_⟩
    rw [hdel.ok.view_eq, hdel.view, ← hok.view_eq]
    split_ifs with ha
    · exact (hidle a ha.1 ha.2).symm
    · rfl
  · refine hbut.showsSame hid ((vmMapDelete_quiet (K := False) hm hok (fun hlt r hr hstop hin => ?_) h).1 id hid)
    -- an entry in the range would show something there
    obtain ⟨e, he, rfl⟩ := mem_map.mp hr
    have hsize := hne e he
    have hview := hidle (max start (m.entry e).vmeStart) (le_max_left _ _) (max_lt hlt hstop)
    rw [hok.view_eq, viewOf_eq_none] at hview
    exact absurd ⟨le_max_right _ _, by omega⟩ (hview _ hr)

/-- A copy that the checks refuse, with a source that is to be destroyed and is there. -/
def DestroysOnFailure (m d : VmMap) (dstAddr len srcAddr : ℕ) (dstAlloc srcDestroy : Bool) : Prop :=
  ¬ (u32 (dstAddr + len) < dstAddr ∨ u32 (srcAddr + len) < srcAddr) ∧
    ¬ CopyAllowed m d dstAddr (u32 (dstAddr + len)) srcAddr (u32 (srcAddr + len)) dstAlloc ∧
    srcDestroy = true ∧ ∃ a, srcAddr ≤ a ∧ a < u32 (srcAddr + len) ∧ m.view a ≠ none

theorem vmMapCopy_leftAlone_iff {src dst dstAddr len srcAddr : ℕ} {dstAlloc srcDestroy : Bool}
    {code : KernReturn} (hp : Proper s) (hm : s.table src = some m) (hd : s.table dst = some d)
    (h : vmMapCopy s dst src dstAddr len srcAddr dstAlloc srcDestroy = .ok (code, s')) :
    (code ≠ .success → LeftAlone s s' src dst ∧ SameContents s.objects s'.objects) ↔
      ¬ DestroysOnFailure m d dstAddr len srcAddr dstAlloc srcDestroy := by
  obtain ⟨l, hok, hne⟩ := hp src m hm
  have hg := hp.good
  rcases vmMapCopy_cases hg hm hd h with ⟨hcode, rfl, hwrap⟩ | ⟨hwrap, hcode, hfail⟩
  · refine ⟨fun _ hbad => hbad.1 hwrap, fun _ _ => ⟨?_, .refl _⟩⟩
    exact ⟨(Hinted.refl hg).showsSame hg src, (Hinted.refl hg).showsSame hg dst⟩
  constructor
  · rintro hleft ⟨-, hrefused, hdestroy, a, hlow, hhigh, hview⟩
    have hne' : code ≠ .success := fun hs => hrefused (hcode.mp hs)
    obtain ⟨s₁, hh, hrun⟩ := hfail hne'
    rw [if_pos hdestroy] at hrun
    obtain ⟨x, hx, hm₁⟩ := hh.get hm hok
    obtain ⟨-, -, m', l', hm', hdel⟩ := vmMapDelete_spec (hh.good hg) hm₁ (hok.setHint hx) hrun
    obtain ⟨m'', hm'', hsame⟩ := (hleft hne').1.source m hm
    cases hm'.symm.trans hm''
    apply hview
    rw [← hsame, hdel.ok.view_eq, hdel.view, if_pos ⟨hlow, hhigh⟩]
  · intro hgood hne'
    obtain ⟨s₁, hh, hrun⟩ := hfail hne'
    have hrefused : ¬ CopyAllowed m d dstAddr (u32 (dstAddr + len)) srcAddr
        (u32 (srcAddr + len)) dstAlloc := fun hall => hne' (hcode.mpr hall)
    split at hrun
    · rename_i hdestroy
      obtain ⟨x, hx, hm₁⟩ := hh.get hm hok
      have hidle : ∀ a, srcAddr ≤ a → a < u32 (srcAddr + len) → m.view a = none := by
        intro a hlow hhigh
        by_contra hview
        exact hgood ⟨hwrap, hrefused, hdestroy, a, hlow, hhigh, hview⟩
      have hsame := showsSame_of_delete (hh.good hg) hm₁ (hok.setHint hx) hne hidle hrun
      refine ⟨⟨(hh.showsSame hg src).trans (hsame src), (hh.showsSame hg dst).trans (hsame dst)⟩, ?_⟩
      rw [← hh.objects]
      refine (vmMapDelete_idle hm₁ (hok.setHint hx) hne ?_ hrun).1
      intro a hlow hhigh hmapped
      refine mapped_iff_view.mp hmapped ?_
      rw [← hidle a hlow hhigh, hok.view_eq]
    · cases hrun
      refine ⟨⟨hh.showsSame hg src, hh.showsSame hg dst⟩, ?_⟩
      rw [hh.objects]
      exact .refl _

end Darwin.Vm
