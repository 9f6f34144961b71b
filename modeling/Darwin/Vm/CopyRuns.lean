import Darwin.Vm.CopyObject

/-! # Every copy-object keeps its snapshot

One lemma for each event, and from them what holds in every state that a sequence of events
reaches.
-/
namespace Darwin.Vm
open Darwin.Lib Function

variable {D : Type} [Zero D] {source : ℕ} {s t : Copies D}

/-- The graph is well formed, the family hangs together, and every copy-object that is left
shows its snapshot. -/
structure CopyOk (source : ℕ) (s : Copies D) : Prop where
  ok : s.objects.Ok s.ext
  family : Family source s.role s.objects
  held : 1 ≤ s.ext source
  shows : ∀ c f, (c, f) ∈ s.snapshots → s.role c = .copy ∧ ∀ cob,
    s.objects.table c = some cob → ∀ offset < cob.size, s.objects.contents c offset = f offset

namespace CopyOk

theorem replace (h : CopyOk source s) {g' : Objects D} {ext' : ℕ → ℕ} {role' : ℕ → Role}
    (hok : g'.Ok ext') (hfam : Family source role' g') (hheld : 1 ≤ ext' source)
    (hrole : ∀ x, s.role x = .copy → role' x = .copy)
    (hsame : ∀ c cob', s.role c = .copy → g'.table c = some cob' →
      ∃ cob, s.objects.table c = some cob ∧ cob'.size = cob.size ∧
        ∀ offset < 2 ^ 32, g'.contents c offset = s.objects.contents c offset) :
    CopyOk source { s with objects := g', ext := ext', role := role' } := by
  refine ⟨hok, hfam, hheld, ?_⟩
  intro c f hcf
  obtain ⟨hcr, hshow⟩ := h.shows c f hcf
  refine ⟨hrole c hcr, ?_⟩
  intro cob' hc'
  obtain ⟨cob, hc, hsize, hcont⟩ := hsame c cob' hcr hc'
  intro offset hoff
  rw [hsize] at hoff
  have hle := (h.family.copyLink c cob hcr hc).2.2.1
  rw [hcont offset (by omega), hshow cob hc offset hoff]

end CopyOk

/-! ## Writes to the source -/

variable {g g' : Objects D} {role : ℕ → Role} {ext : ℕ → ℕ} {offset o : ℕ} {ob : VmObject D}
  {d : D} {l : List ℕ}

theorem pushCopy_spec (hok : g.Ok ext) (hfam : Family source role g) {sob : VmObject D}
    (hs : g.table source = some sob) (hheld : sob.held offset = some d) (hoff : offset < 2 ^ 32) :
    ∃ g', pushCopy g source offset d = .ok g' ∧ SameView g g' ∧
      ∀ sob' c cob, g'.table source = some sob' → sob'.copy = some c → g'.table c = some cob →
        (cob.held offset).isSome := by
  rw [pushCopy, Objects.get_eq hs]
  simp only [bind, Except.bind, pure, Except.pure]
  cases hcopy : sob.copy with
  | none =>
    refine ⟨g, rfl, .refl g, ?_⟩
    intro sob' c cob hs' hc
    cases hs.symm.trans hs'
    cases hcopy.symm.trans hc
  | some c =>
    obtain ⟨hrole, cob, hc, hsh⟩ := hfam.current sob c hs hcopy
    obtain ⟨-, hzero, -⟩ := hfam.copyLink c cob hrole hc
    have hne := hok.ne_shadow hc hsh
    have hoff' : u32Sub offset cob.shadowOffset = offset := by
      rw [hzero, u32Sub_eq (Nat.zero_le _) hoff, Nat.sub_zero]
    simp only [Objects.get_eq hc, hoff']
    by_cases hin : (cob.held offset).isSome
    · rw [if_pos hin]
      refine ⟨g, rfl, .refl g, ?_⟩
      intro sob' c' cob' hs' hc' hcob'
      cases hs.symm.trans hs'
      cases hcopy.symm.trans hc'
      cases hc.symm.trans hcob'
      exact hin
    · rw [if_neg hin]
      rw [Bool.not_eq_true, Option.isSome_eq_false_iff, Option.isNone_iff_eq_none] at hin
      obtain ⟨l, hl, hl'⟩ := hok.chain_self hc
      rw [hsh] at hl'
      cases hl' with
      | @cons _ _ r hs' hr =>
        cases hs.symm.trans hs'
        have hshow : g.visible (c :: source :: r) offset = d := by
          rw [visible_cons hc, hin, Option.getD_none, visible_cons hs, hzero, Nat.add_zero,
            u32_eq hoff, hheld, Option.getD_some]
        obtain ⟨hsame, hdata, -⟩ := sameView_fill hc hin hl hshow
        refine ⟨_, rfl, hsame, ?_⟩
        intro sob' c' cob' hs' hc' hcob'
        rw [Objects.set_of_ne hne, hs] at hs'
        cases hs'
        cases hcopy.symm.trans hc'
        cases Objects.set_self.symm.trans hcob'
        rw [hdata]
        rfl

theorem visible_store_source (hfam : Family source role g) {sob : VmObject D}
    (hs : g.table source = some sob)
    (hpushed : ∀ c cob, sob.copy = some c → g.table c = some cob → (cob.held offset).isSome)
    {object : Option ℕ} (hl : g.Chain object l) : object ≠ some source → ∀ y < 2 ^ 32,
      (g.set source (sob.store offset d)).visible l y = g.visible l y := by
  -- the source is entered from the current copy-object only, at the same offset
  induction hl with
  | nil => exact fun _ _ _ => rfl
  | @cons x obx l hx hl ih =>
    intro hne y hy
    have hxs : x ≠ source := fun heq => hne (congrArg some heq)
    rw [visible_cons ((Objects.set_of_ne hxs).trans hx), visible_cons hx]
    cases hheld : obx.held y with
    | some e => rfl
    | none =>
      rw [Option.getD_none, Option.getD_none]
      by_cases hsh : obx.shadow = some source
      · have hcur := hfam.sole sob x obx hs hx hsh
        obtain ⟨hrole, -⟩ := hfam.current sob x hs hcur
        obtain ⟨-, hzero, -⟩ := hfam.copyLink x obx hrole hx
        have hyo : y ≠ offset := by
          rintro rfl
          have hin := hpushed x obx hcur hx
          rw [hheld] at hin
          cases hin
        rw [hsh] at hl
        cases hl with
        | @cons _ _ r hs' hr =>
          cases hs.symm.trans hs'
          have hnd := (Objects.Chain.cons hs hr).nodup
          rw [hzero, Nat.add_zero, u32_eq hy, visible_cons Objects.set_self, visible_cons hs,
            held_store_of_ne sob d hyo]
          change (sob.held y).getD _ = _
          rw [visible_store (List.nodup_cons.mp hnd).1]
          rfl
      · exact ih hsh _ (Nat.mod_lt _ (Nat.two_pow_pos 32))

theorem CopyOk.write (h : CopyOk source s) (offset : Fin (2 ^ 32)) (d : D) :
    ∃ t, s.step source (.write offset d) = .ok t ∧ CopyOk source t := by
  obtain ⟨hsrole, sob, hs, hpager, -⟩ := h.family.backed
  obtain ⟨found, g₀, e, g₁, g₂, hsearch, htop, hsame, hcol, sob₁, hs₁, hheld, -⟩ :=
    topPage_spec h.ok hs offset
  have hpager₁ : sob₁.pager.isSome := by
    obtain ⟨sob', hs', heq⟩ := hsame.table source sob₁ hs₁
    cases hs.symm.trans hs'
    rw [heq]
    exact hpager
  have heq : g₂ = g₁ := by
    rcases hcol with heq | hcol
    · exact heq
    · rw [collapse_paged hs₁ hpager₁] at hcol
      exact (Except.ok.inj hcol).symm
  subst heq
  obtain ⟨g₃, hpush, hsame₃, hpushed⟩ := pushCopy_spec (hsame.ok h.ok) (h.family.sameView hsame)
    hs₁ hheld offset.isLt
  have hview := hsame.trans hsame₃
  have hok₃ := hview.ok h.ok
  have hfam₃ := h.family.sameView hview
  obtain ⟨sob₃, hs₃, -⟩ := hsame₃.table' source sob₁ hs₁
  have hrun : vmWrite s.objects source offset d = .ok (g₃.set source (sob₃.store offset d)) := by
    rw [vmWrite, vmFault]
    simp only [bind, Except.bind, hsearch, htop, if_true, hpush, Objects.get_eq hs₃, pure,
      Except.pure]
  refine ⟨{ s with objects := g₃.set source (sob₃.store offset d) }, ?_, ?_⟩
  · rw [Copies.step, hrun]
    rfl
  refine h.replace (ok_store hok₃ hs₃) (hfam₃.set_pages hs₃ _) h.held (fun _ hr => hr) ?_
  intro c cob' hrole hc'
  have hcs : c ≠ source := by
    rintro rfl
    rw [hsrole] at hrole
    cases hrole
  rw [Objects.set_of_ne hcs] at hc'
  obtain ⟨cob, hc, heq⟩ := hview.table c cob' hc'
  refine ⟨cob, hc, by rw [heq], ?_⟩
  intro y hy
  obtain ⟨l, hl⟩ := hok₃.ends c cob' hc'
  rw [← hview.contents h.ok hc, (ok_store hok₃ hs₃).contents_eq (chain_store hs₃ hl),
    hok₃.contents_eq hl]
  exact visible_store_source hfam₃ hs₃ (fun c cob => hpushed sob₃ c cob hs₃) hl
    (fun heq => hcs (Option.some.inj heq)) y hy

/-! ## The shadows -/

theorem Keeps.copies (hok : g.Ok ext) (hfam : Family source role g) {x : ℕ}
    (hx : role x = .shadow) (hok' : g'.Ok ext) (hkeeps : Keeps x 0 g g') {c : ℕ}
    {cob' : VmObject D} (hrole : role c = .copy) (hc' : g'.table c = some cob') (y : ℕ) :
    g'.contents c y = g.contents c y := by
  obtain ⟨cob, hc⟩ := hkeeps.survives c cob' hc'
  obtain ⟨l, hl⟩ := hok.ends c cob hc
  obtain ⟨l', hl', hsame⟩ := hkeeps.chain c l hl ⟨cob', hc'⟩
  have hmem : x ∉ l := fun hmem => hfam.notShadow_of_copy hl c rfl hrole x hmem hx
  rw [hok'.contents_eq hl', hok.contents_eq hl]
  exact (hsame y (Objects.within_of_notMem hmem y)).2

theorem collapse_family (hok : g.Ok ext) (hfam : Family source role g) {x : ℕ} {obx : VmObject D}
    (hx : role x = .shadow) (ho : g.table x = some obx)
    (hrun : vmObjectCollapse g (some x) = .ok g') : Family source role g' ∧
      ∀ c cob', g'.table c = some cob' → ∃ cob, g.table c = some cob ∧ cob'.size = cob.size := by
  refine collapseLoop_invariant (I := fun u => Family source role u ∧
    ∀ c cob', u.table c = some cob' → ∃ cob, g.table c = some cob ∧ cob'.size = cob.size)
    ?_ hok ho ⟨hfam, fun c cob hc => ⟨cob, hc, rfl⟩⟩ hrun
  rintro u u' huok ⟨hufam, husize⟩ hc
  refine ⟨hufam.collapses huok hx hc, ?_⟩
  intro c cob' hc'
  obtain ⟨cob, hcob, hsize⟩ := hc.size hc'
  obtain ⟨cob₀, hcob₀, hsize₀⟩ := husize c cob hcob
  exact ⟨cob₀, hcob₀, hsize.trans hsize₀⟩

theorem CopyOk.collapse (h : CopyOk source s) {x : ℕ} (hx : s.role x = .shadow)
    (hlive : (s.objects.table x).isSome) :
    ∃ t, s.step source (.collapse x) = .ok t ∧ CopyOk source t := by
  obtain ⟨obx, ho⟩ := Option.isSome_iff_exists.mp hlive
  obtain ⟨g', hrun, hok', hkeeps, -⟩ := h.ok.vmObjectCollapse ho
  obtain ⟨hfam', hsize⟩ := collapse_family h.ok h.family hx ho hrun
  refine ⟨{ s with objects := g' }, ?_, ?_⟩
  · rw [Copies.step, hrun]
    rfl
  refine h.replace hok' hfam' h.held (fun _ hr => hr) ?_
  intro c cob' hrole hc'
  obtain ⟨cob, hc, heq⟩ := hsize c cob' hc'
  exact ⟨cob, hc, heq, fun y _ => hkeeps.copies h.ok h.family hx hok' hrole hc' y⟩

theorem CopyOk.writeShadow (h : CopyOk source s) {x : ℕ} (hx : s.role x = .shadow)
    (hpos : 1 ≤ s.ext x) (offset : Fin (2 ^ 32)) (d : D) :
    ∃ t, s.step source (.writeShadow x offset d) = .ok t ∧ CopyOk source t := by
  obtain ⟨obx, ho⟩ := h.ok.live x hpos
  obtain ⟨found, g₀, e, g₁, g₂, hsearch, htop, hsame, hcol, obx₁, ho₁, -⟩ :=
    topPage_spec h.ok ho offset
  have hok₁ := hsame.ok h.ok
  have hfam₁ := h.family.sameView hsame
  -- the collapse after the copy, when there is one
  obtain ⟨hok₂, hfam₂, hlive₂, hcopies⟩ : g₂.Ok s.ext ∧ Family source s.role g₂ ∧
      (∃ obx₂, g₂.table x = some obx₂) ∧ ∀ c cob₂, s.role c = .copy → g₂.table c = some cob₂ →
        ∃ cob, g₁.table c = some cob ∧ cob₂.size = cob.size ∧
          ∀ y, g₂.contents c y = g₁.contents c y := by
    rcases hcol with rfl | hcol
    · exact ⟨hok₁, hfam₁, ⟨obx₁, ho₁⟩, fun c cob _ hc => ⟨cob, hc, rfl, fun _ => rfl⟩⟩
    · obtain ⟨g', hrun, hok', hkeeps, hlive⟩ := hok₁.vmObjectCollapse ho₁
      cases hrun.symm.trans hcol
      obtain ⟨hfam', hsize⟩ := collapse_family hok₁ hfam₁ hx ho₁ hrun
      refine ⟨hok', hfam', hlive, ?_⟩
      intro c cob' hrole hc'
      obtain ⟨cob, hc, heq⟩ := hsize c cob' hc'
      exact ⟨cob, hc, heq, hkeeps.copies hok₁ hfam₁ hx hok' hrole hc'⟩
  obtain ⟨obx₂, ho₂⟩ := hlive₂
  have hpush : pushCopy g₂ x offset e = .ok g₂ := by
    rw [pushCopy, Objects.get_eq ho₂]
    simp only [bind, Except.bind, pure, Except.pure, (hfam₂.shadowLink x obx₂ hx ho₂).1]
  have hrun : vmWrite s.objects x offset d = .ok (g₂.set x (obx₂.store offset d)) := by
    rw [vmWrite, vmFault]
    simp only [bind, Except.bind, hsearch, htop, if_true, hpush, Objects.get_eq ho₂, pure,
      Except.pure]
  refine ⟨{ s with objects := g₂.set x (obx₂.store offset d) }, ?_, ?_⟩
  · rw [Copies.step, hrun]
    rfl
  refine h.replace (ok_store hok₂ ho₂) (hfam₂.set_pages ho₂ _) h.held (fun _ hr => hr) ?_
  intro c cob' hrole hc'
  have hcx : c ≠ x := by
    rintro rfl
    rw [hx] at hrole
    cases hrole
  rw [Objects.set_of_ne hcx] at hc'
  obtain ⟨cob₁, hc₁, hsize₁, hcont₁⟩ := hcopies c cob' hrole hc'
  obtain ⟨cob, hc, heq⟩ := hsame.table c cob₁ hc₁
  refine ⟨cob, hc, by rw [hsize₁, heq], ?_⟩
  intro y _
  obtain ⟨l, hl⟩ := hok₂.ends c cob' hc'
  have hmem : x ∉ l := fun hmem => hfam₂.notShadow_of_copy hl c rfl hrole x hmem hx
  rw [(ok_store hok₂ ho₂).contents_eq (chain_store ho₂ hl), visible_store hmem,
    ← hok₂.contents_eq hl, hcont₁, hsame.contents h.ok hc]

/-! ## References of the holders -/

theorem dropRef_of_ne {x : ℕ} (h : x ≠ o) : dropRef ext o x = ext x :=
  update_of_ne h _ _

theorem CopyOk.deallocate (h : CopyOk source s) {o : ℕ} (hrole : s.role o ≠ .other)
    (hpos : 1 ≤ s.ext o) : ∃ t, s.step source (.deallocate o) = .ok t ∧ CopyOk source t := by
  obtain ⟨hsrole, sob, hs, -⟩ := h.family.backed
  have hos : source ≠ o := by
    rintro rfl
    exact hrole hsrole
  have hheld : 1 ≤ dropRef s.ext o source := by
    rw [dropRef_of_ne hos]
    exact h.held
  have hok := h.ok
  rw [← addRef_dropRef hpos] at hok
  have hdet : Objects.Detachable (fun x => s.role x ≠ .other) (dropRef s.ext o) s.objects := by
    intro x obx t th hx hobx ht hth
    by_cases hts : t = source
    · subst hts
      exact ⟨.inr (h.family.sole th x obx hth hobx ht), .inr hheld⟩
    · have hlink : s.role t ≠ .other := by
        cases hr : s.role x with
        | other => exact absurd hr hx
        | copy =>
          obtain ⟨-, -, -, t', ht', hcase⟩ := h.family.copyLink x obx hr hobx
          cases ht.symm.trans ht'
          rw [hcase.resolve_left hts]
          decide
        | shadow =>
          obtain ⟨-, t', ht', hcase⟩ := h.family.shadowLink x obx hr hobx
          cases ht.symm.trans ht'
          exact hcase
      refine ⟨.inl ?_, .inl hlink⟩
      cases hr : s.role t with
      | other => exact absurd hr hlink
      | copy => exact (h.family.copyLink t th hr hth).1
      | shadow => exact (h.family.shadowLink t th hr hth).1
  obtain ⟨g', hrun, hok', hrel⟩ := hok.deallocate
    (fun x hx => .inl (by cases hx; exact hrole)) hdet
  refine ⟨{ s with objects := g', ext := dropRef s.ext o }, ?_, ?_⟩
  · rw [Copies.step, hrun]
    rfl
  refine h.replace hok' (h.family.released hrel (hok'.live source hheld)) hheld
    (fun _ hr => hr) ?_
  intro c cob' _ hc'
  obtain ⟨cob, hc, heq, -⟩ := hrel.kept c cob' hc'
  exact ⟨cob, hc, by rw [heq], fun y _ => hrel.contents h.ok hok' hc' y⟩

theorem contents_new (hok : g.Ok ext) {ext' : ℕ → ℕ} (hok' : g'.Ok ext') {c : ℕ} {cob : VmObject D}
    (hc : g.table c = some cob) (hother : ∀ x obx, g.table x = some obx → g'.table x = some obx)
    (y : ℕ) : g'.contents c y = g.contents c y := by
  obtain ⟨l, hl⟩ := hok.ends c cob hc
  rw [hok'.contents_eq (hl.extend hother), hok.contents_eq hl]
  apply Objects.visible_congr
  intro x hx
  obtain ⟨obx, hobx⟩ := hl.live x hx
  simp only [Objects.held, Objects.shadowOffsetOf, hobx, hother x obx hobx, implies_true, and_self]

theorem CopyOk.shadow (h : CopyOk source s) {o : ℕ} (hrole : s.role o ≠ .other)
    (hpos : 1 ≤ s.ext o) (offset length : Fin (2 ^ 32)) :
    ∃ t, s.step source (.shadow o offset length) = .ok t ∧ CopyOk source t := by
  refine ⟨_, rfl, ?_⟩
  have hok := h.ok
  rw [← addRef_dropRef hpos] at hok
  have hok' := hok.shadow offset length
  have hnext : s.role s.objects.next = .other := by
    by_contra hne
    exact Nat.lt_irrefl _ (h.family.bounded _ hne)
  have hne : ∀ x, s.role x ≠ .other → x ≠ s.objects.next := by
    rintro x hx rfl
    exact hx hnext
  have hother : ∀ x obx, s.objects.table x = some obx →
      (vmObjectShadow s.objects (some o) offset length).2.table x = some obx := by
    intro x obx hx
    rw [shadow_table, if_neg (fun heq => ?_)]
    · exact hx
    · rw [heq, h.ok.next_free] at hx
      cases hx
  have hcases : ∀ x obx, (vmObjectShadow s.objects (some o) offset length).2.table x = some obx →
      (x = s.objects.next ∧
        obx = { vmObjectTemplate length.val with shadow := some o, shadowOffset := offset }) ∨
        (x ≠ s.objects.next ∧ s.objects.table x = some obx) := by
    intro x obx hx
    rw [shadow_table] at hx
    split at hx
    · rename_i heq
      exact .inl ⟨heq, (Option.some.inj hx).symm⟩
    · rename_i hxn
      exact .inr ⟨hxn, hx⟩
  obtain ⟨hsrole, sob, hsob, hsprops⟩ := h.family.backed
  have hsn : source ≠ s.objects.next := by
    rintro heq
    rw [heq, h.ok.next_free] at hsob
    cases hsob
  have hkind : ∀ x, s.role x ≠ .other →
      update s.role s.objects.next .shadow x = s.role x :=
    fun x hx => update_of_ne (hne x hx) _ _
  have hfam : Family source (update s.role s.objects.next .shadow)
      (vmObjectShadow s.objects (some o) offset length).2 := by
    refine ⟨?_, ?_, ⟨?_, sob, hother source sob hsob, hsprops⟩, ?_, ?_, ?_⟩
    · intro c cob hc hcob
      rcases hcases c cob hcob with ⟨rfl, -⟩ | ⟨hcn, hcob⟩
      · rw [update_self] at hc
        cases hc
      · rw [update_of_ne hcn] at hc
        obtain ⟨hnone, hzero, hsize, t, ht, hcase⟩ := h.family.copyLink c cob hc hcob
        refine ⟨hnone, hzero, hsize, t, ht, hcase.imp_right (fun ht => ?_)⟩
        rw [hkind t (by rw [ht]; decide)]
        exact ht
    · intro x obx hx hobx
      rcases hcases x obx hobx with ⟨-, rfl⟩ | ⟨hxn, hobx⟩
      · exact ⟨rfl, o, rfl, by rw [hkind o hrole]; exact hrole⟩
      · rw [update_of_ne hxn] at hx
        obtain ⟨hnone, t, ht, hcase⟩ := h.family.shadowLink x obx hx hobx
        exact ⟨hnone, t, ht, by rw [hkind t hcase]; exact hcase⟩
    · rw [update_of_ne hsn]
      exact hsrole
    · intro sob' c hs' hcur
      cases (hother source sob hsob).symm.trans hs'
      obtain ⟨hcrole, cob, hcob, hcsh⟩ := h.family.current sob c hsob hcur
      exact ⟨by rw [hkind c (by rw [hcrole]; decide)]; exact hcrole, cob, hother c cob hcob, hcsh⟩
    · intro sob' x obx hs' hx hxsh
      cases (hother source sob hsob).symm.trans hs'
      rcases hcases x obx hx with ⟨-, rfl⟩ | ⟨-, hx⟩
      · cases hxsh
        exact absurd hsrole hrole
      · exact h.family.sole sob x obx hsob hx hxsh
    · intro x hx
      by_cases hxn : x = s.objects.next
      · subst hxn
        exact Nat.lt_succ_self _
      · rw [update_of_ne hxn] at hx
        exact Nat.lt_succ_of_lt (h.family.bounded x hx)
  have hso : source ≠ o := by
    rintro rfl
    exact hrole hsrole
  have hheld : 1 ≤ addRef (dropRef s.ext o) (some s.objects.next) source := by
    rw [addRef_of_ne (fun heq => hsn (Option.some.inj heq).symm), dropRef_of_ne hso]
    exact h.held
  refine h.replace hok' hfam hheld (fun x hx => ?_) ?_
  · rw [hkind x (by rw [hx]; decide)]
    exact hx
  · intro c cob hc hcob
    rcases hcases c cob hcob with ⟨rfl, -⟩ | ⟨-, hcob⟩
    · rw [hnext] at hc
      cases hc
    · exact ⟨cob, hcob, rfl, fun y _ => contents_new h.ok hok' hcob hother y⟩

/-! ## Copies -/

namespace Threaded
variable {sob : VmObject D}

/-- The chains of the objects that were there: the new copy-object stands on those that
come to the source, and shows nothing of its own. -/
theorem chain (ht : Threaded source g.next sob g g') (hok : g.Ok ext) (hfam : Family source role g)
    (hs : g.table source = some sob) {object : Option ℕ} (hl : g.Chain object l) :
    ∃ l', g'.Chain object l' ∧ ∀ y, g'.visible l' y = g.visible l y := by
  obtain ⟨lb, hls, hlb⟩ := hok.chain_self hs
  have hsame : ∀ x ∈ lb, g'.table x = g.table x := by
    intro x hx
    obtain ⟨obx, hobx⟩ := hlb.live x hx
    have hrole := hfam.other_of_below hls (List.mem_cons_of_mem _ hx)
    refine ht.other x ?_ ?_ ?_
    · rintro rfl
      rw [hok.next_free] at hobx
      cases hobx
    · rintro rfl
      exact (List.nodup_cons.mp hls.nodup).1 hx
    · intro hcur
      rw [(hfam.current sob x hs hcur).1] at hrole
      cases hrole
  have hlb' : g'.Chain sob.shadow lb := by
    apply hlb.congr
    intro x hx
    obtain ⟨obx, hobx⟩ := hlb.live x hx
    exact ⟨obx, (hsame x hx).trans hobx, Objects.shadowOf_eq hobx⟩
  have hvisb : ∀ y, g'.visible lb y = g.visible lb y := by
    apply Objects.visible_congr
    intro x hx
    simp only [Objects.held, Objects.shadowOffsetOf, hsame x hx, implies_true, and_self]
  have htop : g'.Chain (some source) (source :: lb) := .cons ht.top hlb'
  have hvis : ∀ y, g'.visible (source :: lb) y = g.visible (source :: lb) y := by
    intro y
    rw [visible_cons ht.top, visible_cons hs, hvisb]
    rfl
  have hnew : g'.Chain (some g.next) (g.next :: source :: lb) := .cons ht.new htop
  induction hl with
  | nil => exact ⟨[], .nil, fun _ => rfl⟩
  | @cons x obx l hx hl ih =>
    by_cases hxs : x = source
    · subst hxs
      cases (Objects.Chain.cons hx hl).unique hls
      exact ⟨x :: lb, htop, hvis⟩
    by_cases hcur : sob.copy = some x
    · obtain ⟨hrole, cob, hcob, hsh⟩ := hfam.current sob x hs hcur
      cases hx.symm.trans hcob
      obtain ⟨-, hzero, -⟩ := hfam.copyLink x obx hrole hx
      rw [hsh] at hl
      cases hl.unique hls
      have hx' := ht.old x obx hcur hx
      refine ⟨x :: g.next :: source :: lb, .cons hx' hnew, ?_⟩
      intro y
      have hheld : ∀ z, VmObject.held { vmObjectTemplate (D := D) sob.size with
          refCount := if sob.copy.isSome then 2 else 1, shadow := some source } z = none :=
        fun _ => rfl
      rw [visible_cons hx', visible_cons hx, visible_cons ht.new, hheld, Option.getD_none, hvis]
      have harith : u32 (u32 (y + obx.shadowOffset) + 0) = u32 (y + obx.shadowOffset) := by
        simp [u32]
      change (obx.held y).getD (g.visible (source :: lb) (u32 (u32 (y + obx.shadowOffset) + 0))) = _
      rw [harith]
    · have hxn : x ≠ g.next := by
        rintro rfl
        rw [hok.next_free] at hx
        cases hx
      obtain ⟨l', hl', hsame'⟩ := ih
      have hx' := (ht.other x hxn hxs hcur).trans hx
      refine ⟨x :: l', .cons hx' hl', ?_⟩
      intro y
      rw [visible_cons hx', visible_cons hx, hsame']

omit [Zero D] in
theorem cases (ht : Threaded source g.next sob g g') (hfam : Family source role g)
    (hs : g.table source = some sob) {x : ℕ} {obx' : VmObject D} (hx' : g'.table x = some obx') :
    (x = g.next ∧ obx' = { vmObjectTemplate sob.size with
        refCount := if sob.copy.isSome then 2 else 1, shadow := some source }) ∨
      (x = source ∧ obx' = { sob with
        refCount := if sob.copy.isSome then sob.refCount else sob.refCount + 1,
        copy := some g.next }) ∨
      (sob.copy = some x ∧ ∃ obx, g.table x = some obx ∧
        obx' = { obx with shadow := some g.next }) ∨
      (x ≠ g.next ∧ x ≠ source ∧ sob.copy ≠ some x ∧ g.table x = some obx') := by
  by_cases hxn : x = g.next
  · subst hxn
    exact .inl ⟨rfl, Option.some.inj (hx'.symm.trans ht.new)⟩
  by_cases hxs : x = source
  · subst hxs
    exact .inr (.inl ⟨rfl, Option.some.inj (hx'.symm.trans ht.top)⟩)
  by_cases hcur : sob.copy = some x
  · obtain ⟨-, obx, hx, -⟩ := hfam.current sob x hs hcur
    exact .inr (.inr (.inl ⟨hcur, obx, hx,
      Option.some.inj (hx'.symm.trans (ht.old x obx hcur hx))⟩))
  · exact .inr (.inr (.inr ⟨hxn, hxs, hcur, (ht.other x hxn hxs hcur).symm.trans hx'⟩))

omit [Zero D] in
theorem live (ht : Threaded source g.next sob g g') (hok : g.Ok ext) {x : ℕ} {obx : VmObject D}
    (hx : g.table x = some obx) : ∃ obx', g'.table x = some obx' := by
  by_cases hxs : x = source
  · subst hxs
    exact ⟨_, ht.top⟩
  by_cases hcur : sob.copy = some x
  · exact ⟨_, ht.old x obx hcur hx⟩
  · have hxn : x ≠ g.next := by
      rintro rfl
      rw [hok.next_free] at hx
      cases hx
    exact ⟨obx, (ht.other x hxn hxs hcur).trans hx⟩

omit [Zero D] in
theorem shadowers_eq (ht : Threaded source g.next sob g g') (hok : g.Ok ext)
    (hfam : Family source role g) (hs : g.table source = some sob) (y : ℕ) :
    g'.shadowers y = if sob.copy.isSome then g.shadowers y + (if g.next = y then 1 else 0)
      else g.shadowers y + (if source = y then 1 else 0) := by
  have hlast : g'.shadowers y =
      referrers g'.shadowOf g.next y + if source = y then 1 else 0 := by
    rw [Objects.shadowers, ht.next, referrers_succ, Objects.shadowOf_eq ht.new]
    simp only [Option.some.injEq]
  have hsame : ∀ x < g.next, sob.copy ≠ some x → g'.shadowOf x = g.shadowOf x := by
    intro x hx hcur
    by_cases hxs : x = source
    · subst hxs
      rw [Objects.shadowOf_eq ht.top, Objects.shadowOf_eq hs]
    · rw [Objects.shadowOf, ht.other x (by omega) hxs hcur, Objects.shadowOf]
  rw [hlast]
  cases hcopy : sob.copy with
  | none =>
    rw [referrers_congr (fun x hx => by rw [hsame x hx (by rw [hcopy]; simp)])]
    rfl
  | some old =>
    obtain ⟨-, cob, hcob, hsh⟩ := hfam.current sob old hs hcopy
    have hwrite := referrers_update (f := g.shadowOf) (a := y) (some g.next)
      (hok.bounded old cob hcob)
    rw [Objects.shadowOf_eq hcob, hsh] at hwrite
    have hcongr : referrers g'.shadowOf g.next y =
        referrers (update g.shadowOf old (some g.next)) g.next y := by
      apply referrers_congr
      intro x hx
      by_cases hxo : x = old
      · subst hxo
        rw [update_self, Objects.shadowOf_eq (ht.old x cob hcopy hcob)]
      · rw [update_of_ne hxo, hsame x hx (fun heq => hxo ?_)]
        exact (Option.some.inj (hcopy.symm.trans heq)).symm
    simp only [Option.some.injEq] at hwrite
    rw [Option.isSome_some, if_pos rfl, hcongr, Objects.shadowers]
    omega

theorem ok (ht : Threaded source g.next sob g g') (hok : g.Ok ext) (hfam : Family source role g)
    (hs : g.table source = some sob) : g'.Ok (addRef ext (some g.next)) := by
  have hext : ext g.next = 0 := by
    by_contra hne
    obtain ⟨ob, hob⟩ := hok.live g.next (by omega)
    rw [hok.next_free] at hob
    cases hob
  have hsn : g.next ≠ source := by
    intro heq
    rw [← heq, hok.next_free] at hs
    cases hs
  have hnone : g.shadowers g.next = 0 := by
    apply referrers_eq_zero
    intro x _ hx
    cases hobx : g.table x with
    | none =>
      rw [Objects.shadowOf, hobx] at hx
      cases hx
    | some obx =>
      rw [Objects.shadowOf_eq hobx] at hx
      obtain ⟨ob, hob⟩ := hok.shadow_live hobx hx
      rw [hok.next_free] at hob
      cases hob
  refine ⟨?_, ?_, ?_, ?_⟩
  · intro x obx' hx'
    rw [ht.next]
    rcases ht.cases hfam hs hx' with ⟨rfl, -⟩ | ⟨rfl, -⟩ | ⟨-, obx, hx, -⟩ | ⟨-, -, -, hx⟩
    · exact Nat.lt_succ_self _
    · exact Nat.lt_succ_of_lt (hok.bounded _ _ hs)
    · exact Nat.lt_succ_of_lt (hok.bounded _ _ hx)
    · exact Nat.lt_succ_of_lt (hok.bounded _ _ hx)
  · intro x obx' hx'
    have hold : ∀ obx, g.table x = some obx → ∃ l', g'.Chain (some x) l' := by
      intro obx hx
      obtain ⟨l, hl⟩ := hok.ends x obx hx
      obtain ⟨l', hl', -⟩ := ht.chain hok hfam hs hl
      exact ⟨l', hl'⟩
    rcases ht.cases hfam hs hx' with ⟨rfl, -⟩ | ⟨rfl, -⟩ | ⟨-, obx, hx, -⟩ | ⟨-, -, -, hx⟩
    · obtain ⟨l, hl⟩ := hok.ends source sob hs
      obtain ⟨l', hl', -⟩ := ht.chain hok hfam hs hl
      exact ⟨_, .cons ht.new hl'⟩
    · exact hold _ hs
    · exact hold _ hx
    · exact hold _ hx
  · intro x obx' hx'
    have hcount := ht.shadowers_eq hok hfam hs x
    rcases ht.cases hfam hs hx' with ⟨rfl, rfl⟩ | ⟨rfl, rfl⟩ | ⟨hcur, obx, hx, rfl⟩ |
      ⟨hxn, hxs, -, hx⟩
    · rw [addRef_self, hext]
      rw [hnone, if_neg hsn.symm] at hcount
      change (if sob.copy.isSome then 2 else 1 : ℤ) = _
      split_ifs at hcount ⊢ <;> omega
    · have hrefs := hok.refs x sob hs
      rw [addRef_of_ne (fun heq => hsn (Option.some.inj heq))]
      rw [if_neg hsn] at hcount
      simp only [if_true] at hcount
      split_ifs at hcount ⊢ <;> simp only <;> omega
    · have hrefs := hok.refs x obx hx
      have hxn : g.next ≠ x := by
        rintro rfl
        rw [hok.next_free] at hx
        cases hx
      rw [addRef_of_ne (fun heq => hxn (Option.some.inj heq))]
      rw [hcur, Option.isSome_some, if_pos rfl, if_neg hxn] at hcount
      simp only
      omega
    · have hrefs := hok.refs x obx' hx
      rw [addRef_of_ne (fun heq => hxn (Option.some.inj heq).symm)]
      rw [if_neg (Ne.symm hxn), if_neg (Ne.symm hxs)] at hcount
      split_ifs at hcount <;> omega
  · intro x hpos
    by_cases hxn : g.next = x
    · subst hxn
      exact ⟨_, ht.new⟩
    · rw [addRef_of_ne (fun heq => hxn (Option.some.inj heq))] at hpos
      obtain ⟨obx, hx⟩ := hok.live x hpos
      exact ht.live hok hx

omit [Zero D] in
theorem family (ht : Threaded source g.next sob g g') (hok : g.Ok ext)
    (hfam : Family source role g) (hs : g.table source = some sob) :
    Family source (update role g.next .copy) g' := by
  obtain ⟨hsrole, sob₀, hs₀, hprops⟩ := hfam.backed
  cases hs.symm.trans hs₀
  have hsn : source ≠ g.next := by
    intro heq
    rw [heq, hok.next_free] at hs
    cases hs
  have hnext : role g.next = .other := by
    by_contra hne
    exact Nat.lt_irrefl _ (hfam.bounded _ hne)
  have hkind : ∀ x, role x ≠ .other → update role g.next .copy x = role x := by
    intro x hx
    apply update_of_ne
    rintro rfl
    exact hx hnext
  refine ⟨?_, ?_, ⟨?_, _, ht.top, hprops⟩, ?_, ?_, ?_⟩
  · intro c cob' hc hc'
    rcases ht.cases hfam hs hc' with ⟨-, rfl⟩ | ⟨rfl, -⟩ | ⟨hcur, cob, hcob, rfl⟩ |
      ⟨hcn, -, hcur, hcob⟩
    · exact ⟨rfl, rfl, hprops.2.2, source, rfl, .inl rfl⟩
    · rw [update_of_ne hsn, hsrole] at hc
      cases hc
    · obtain ⟨hrole, -⟩ := hfam.current sob c hs hcur
      obtain ⟨hnone, hzero, hsize, -⟩ := hfam.copyLink c cob hrole hcob
      exact ⟨hnone, hzero, hsize, g.next, rfl, .inr (update_self _ _ _)⟩
    · rw [update_of_ne hcn] at hc
      obtain ⟨hnone, hzero, hsize, t, hsh, hcase⟩ := hfam.copyLink c cob' hc hcob
      refine ⟨hnone, hzero, hsize, t, hsh, hcase.imp_right (fun hrole => ?_)⟩
      rw [hkind t (by rw [hrole]; decide)]
      exact hrole
  · intro x obx' hx hx'
    rcases ht.cases hfam hs hx' with ⟨rfl, -⟩ | ⟨rfl, -⟩ | ⟨hcur, -⟩ | ⟨hxn, -, -, hobx⟩
    · rw [update_self] at hx
      cases hx
    · rw [update_of_ne hsn, hsrole] at hx
      cases hx
    · obtain ⟨hrole, -⟩ := hfam.current sob x hs hcur
      rw [hkind x (by rw [hrole]; decide), hrole] at hx
      cases hx
    · rw [update_of_ne hxn] at hx
      obtain ⟨hnone, t, hsh, hcase⟩ := hfam.shadowLink x obx' hx hobx
      exact ⟨hnone, t, hsh, by rw [hkind t hcase]; exact hcase⟩
  · rw [update_of_ne hsn]
    exact hsrole
  · intro sob' c hs' hcur
    cases ht.top.symm.trans hs'
    cases hcur
    exact ⟨update_self _ _ _, _, ht.new, rfl⟩
  · intro sob' x obx' hs' hx' hsh
    cases ht.top.symm.trans hs'
    rcases ht.cases hfam hs hx' with ⟨rfl, -⟩ | ⟨rfl, rfl⟩ | ⟨-, obx, -, rfl⟩ | ⟨-, -, hne, hx⟩
    · rfl
    · exact absurd hsh (fun heq => hok.ne_shadow hs heq rfl)
    · cases hsh
      exact absurd rfl hsn
    · exact absurd (hfam.sole sob x obx' hs hx hsh) hne
  · intro x hx
    rw [ht.next]
    by_cases hxn : x = g.next
    · subst hxn
      exact Nat.lt_succ_self _
    · rw [update_of_ne hxn] at hx
      exact Nat.lt_succ_of_lt (hfam.bounded x hx)

end Threaded

theorem CopyOk.copyNew (h : CopyOk source s) {sob : VmObject D}
    (hs : s.objects.table source = some sob)
    (ht : Threaded source s.objects.next sob s.objects g') :
    CopyOk source {
      objects := g'
      ext := addRef s.ext (some s.objects.next)
      role := update s.role s.objects.next .copy
      snapshots := (s.objects.next, s.objects.contents source) :: s.snapshots } := by
  have hok' := ht.ok h.ok h.family hs
  have hfam' := ht.family h.ok h.family hs
  obtain ⟨l, hl⟩ := h.ok.ends source sob hs
  obtain ⟨l', hl', hsame⟩ := ht.chain h.ok h.family hs hl
  have hsn : s.objects.next ≠ source := by
    intro heq
    rw [← heq, h.ok.next_free] at hs
    cases hs
  have hheld : 1 ≤ addRef s.ext (some s.objects.next) source := by
    rw [addRef_of_ne (fun heq => hsn (Option.some.inj heq))]
    exact h.held
  -- the copy-objects before it show what they showed
  have hbefore := h.replace hok' hfam' hheld (fun x hx => ?_) (fun c cob' hc hc' => ?_)
  · refine ⟨hok', hfam', hheld, ?_⟩
    intro c f hcf
    rcases List.mem_cons.mp hcf with heq | hcf
    · cases heq
      refine ⟨update_self _ _ _, ?_⟩
      intro cob hc y hy
      have hsize := (hfam'.copyLink _ cob (update_self _ _ _) hc).2.2.1
      have hempty : VmObject.held { vmObjectTemplate (D := D) sob.size with
          refCount := if sob.copy.isSome then 2 else 1, shadow := some source } y = none := rfl
      change g'.contents s.objects.next y = s.objects.contents source y
      rw [hok'.contents_eq (.cons ht.new hl'), visible_cons ht.new, hempty, Option.getD_none, hsame,
        h.ok.contents_eq hl]
      change s.objects.visible l (u32 (y + 0)) = _
      rw [Nat.add_zero, u32_eq (by omega)]
    · exact hbefore.shows c f hcf
  · by_cases hxn : x = s.objects.next
    · rw [hxn, update_self]
    · rw [update_of_ne hxn]
      exact hx
  · obtain ⟨cob, hcob, hsize⟩ : ∃ cob, s.objects.table c = some cob ∧ cob'.size = cob.size := by
      rcases ht.cases h.family hs hc' with ⟨rfl, -⟩ | ⟨rfl, rfl⟩ | ⟨-, cob, hcob, rfl⟩ |
        ⟨-, -, -, hcob⟩
      · exact absurd (h.family.bounded _ (by rw [hc]; decide)) (Nat.lt_irrefl _)
      · exact ⟨sob, hs, rfl⟩
      · exact ⟨cob, hcob, rfl⟩
      · exact ⟨cob', hcob, rfl⟩
    refine ⟨cob, hcob, hsize, ?_⟩
    intro y _
    obtain ⟨lc, hlc⟩ := h.ok.ends c cob hcob
    obtain ⟨lc', hlc', hsamec⟩ := ht.chain h.ok h.family hs hlc
    rw [hok'.contents_eq hlc', hsamec, h.ok.contents_eq hlc]

theorem contents_count (hok : g.Ok ext) {ext' : ℕ → ℕ} {cob obx : VmObject D} {c x : ℕ} {n : ℤ}
    (hc : g.table c = some cob) (hok' : (g.set c { cob with refCount := n }).Ok ext')
    (hx : g.table x = some obx) (y : ℕ) :
    (g.set c { cob with refCount := n }).contents x y = g.contents x y := by
  obtain ⟨l, hl⟩ := hok.ends x obx hx
  have hl' : (g.set c { cob with refCount := n }).Chain (some x) l := by
    apply hl.congr
    intro z hz
    obtain ⟨obz, hobz⟩ := hl.live z hz
    by_cases hzc : z = c
    · subst hzc
      exact ⟨_, Objects.set_self, by rw [Objects.shadowOf_eq hc]⟩
    · exact ⟨obz, (Objects.set_of_ne hzc).trans hobz, Objects.shadowOf_eq hobz⟩
  rw [hok'.contents_eq hl', hok.contents_eq hl]
  apply Objects.visible_congr
  intro z _
  by_cases hzc : z = c
  · subst hzc
    simp only [Objects.held, Objects.shadowOffsetOf, Objects.set_self, hc, Option.map_some,
      Option.bind_some, and_true]
    exact fun _ => rfl
  · simp only [Objects.held, Objects.shadowOffsetOf, Objects.set_of_ne hzc, implies_true, and_self]

theorem CopyOk.copyAgain (h : CopyOk source s) {sob cob : VmObject D} {c : ℕ}
    (hs : s.objects.table source = some sob) (hcur : sob.copy = some c)
    (hc : s.objects.table c = some cob) (hempty : ∀ y, cob.held y = none) :
    CopyOk source {
      objects := s.objects.set c { cob with refCount := cob.refCount + 1 }
      ext := addRef s.ext (some c)
      role := update s.role c .copy
      snapshots := (c, s.objects.contents source) :: s.snapshots } := by
  obtain ⟨hrole, cob₀, hc₀, hsh⟩ := h.family.current sob c hs hcur
  cases hc.symm.trans hc₀
  obtain ⟨-, hzero, hle, -⟩ := h.family.copyLink c cob hrole hc
  have hroles : update s.role c .copy = s.role := by
    rw [← hrole]
    exact update_eq_self _ _
  have hok' := (h.ok.reference hc).2
  have hfam' : Family source s.role (s.objects.set c { cob with refCount := cob.refCount + 1 }) := by
    refine h.family.frame rfl ?_ ?_
    · intro x obx' hx'
      by_cases hxc : x = c
      · subst hxc
        cases Objects.set_self.symm.trans hx'
        exact ⟨cob, hc, rfl, rfl, rfl, rfl, rfl, rfl⟩
      · exact ⟨obx', (Objects.set_of_ne hxc).symm.trans hx', rfl, rfl, rfl, rfl, rfl, rfl⟩
    · intro x obx hx
      by_cases hxc : x = c
      · subst hxc
        exact ⟨_, Objects.set_self⟩
      · exact ⟨obx, (Objects.set_of_ne hxc).trans hx⟩
  have hsc : source ≠ c := by
    rintro rfl
    rw [h.family.backed.1] at hrole
    cases hrole
  have hheld : 1 ≤ addRef s.ext (some c) source := by
    rw [addRef_of_ne (fun heq => hsc (Option.some.inj heq).symm)]
    exact h.held
  have hsize : ∀ x obx', (s.objects.set c { cob with refCount := cob.refCount + 1 }).table x =
      some obx' → ∃ obx, s.objects.table x = some obx ∧ obx'.size = obx.size := by
    intro x obx' hx'
    by_cases hxc : x = c
    · subst hxc
      cases Objects.set_self.symm.trans hx'
      exact ⟨cob, hc, rfl⟩
    · exact ⟨obx', (Objects.set_of_ne hxc).symm.trans hx', rfl⟩
  have hbefore := h.replace hok' hfam' hheld (fun _ hx => hx) (fun x obx' _ hx' => ?_)
  · rw [hroles]
    refine ⟨hok', hfam', hheld, ?_⟩
    intro x f hxf
    rcases List.mem_cons.mp hxf with heq | hxf
    · cases heq
      refine ⟨hrole, ?_⟩
      intro cob' hc' y hy
      obtain ⟨cob₁, hc₁, heq⟩ := hsize c cob' hc'
      cases hc.symm.trans hc₁
      obtain ⟨l, hl, hl'⟩ := h.ok.chain_self hc
      rw [hsh] at hl'
      change (s.objects.set c { cob with refCount := cob.refCount + 1 }).contents c y = _
      rw [contents_count h.ok hc hok' hc, h.ok.contents_eq hl, visible_cons hc, hempty,
        Option.getD_none, hzero, Nat.add_zero, u32_eq (by omega), h.ok.contents_eq hl']
    · exact hbefore.shows x f hxf
  · obtain ⟨obx, hx, heq⟩ := hsize x obx' hx'
    exact ⟨obx, hx, heq, fun y _ => contents_count h.ok hc hok' hx y⟩

theorem CopyOk.copy (h : CopyOk source s) (srcOffset : Fin (2 ^ 32)) :
    ∃ t, s.step source (.copy srcOffset) = .ok t ∧ CopyOk source t := by
  obtain ⟨-, sob, hs, hpager, hint, -⟩ := h.family.backed
  have hcheck : ¬ (sob.pager.isNone ∨ sob.internal) := by
    rw [hint, Option.isNone_eq_false_iff.mpr hpager]
    decide
  obtain ⟨g', hnew, ht⟩ := newCopyObject_spec h.ok h.family hs srcOffset
  have hfresh : s.objects.unusedCopy sob.copy = .ok none →
      ∃ t, s.step source (.copy srcOffset) = .ok t ∧ CopyOk source t := by
    intro hnone
    refine ⟨_, ?_, h.copyNew hs ht⟩
    rw [Copies.step, vmObjectCopy]
    simp only [bind, Except.bind, Objects.get_eq hs, if_neg hcheck, collapse_paged hs hpager, hnone,
      hnew]
    rfl
  cases hcur : sob.copy with
  | none =>
    rw [hcur] at hfresh
    exact hfresh rfl
  | some c =>
    obtain ⟨-, cob, hc, -⟩ := h.family.current sob c hs hcur
    by_cases hempty : cob.residentPageCount = 0 ∧ cob.pager.isNone
    · refine ⟨_, ?_, h.copyAgain hs hcur hc ?_⟩
      · have hunused : s.objects.unusedCopy sob.copy = .ok (some c) := by
          rw [hcur, Objects.unusedCopy, Objects.get_eq hc]
          simp only [bind, Except.bind, pure, Except.pure, if_pos hempty]
        rw [Copies.step, vmObjectCopy]
        simp only [bind, Except.bind, Objects.get_eq hs, if_neg hcheck, collapse_paged hs hpager,
          hunused, (h.ok.reference hc).1]
        rfl
      · intro y
        obtain ⟨hmem, hpg⟩ := hempty
        rw [VmObject.held, VmObject.vmPageLookup, List.eq_nil_of_length_eq_zero hmem,
          VmObject.paged, Option.isNone_iff_eq_none.mp hpg]
        rfl
    · apply hfresh
      rw [hcur, Objects.unusedCopy, Objects.get_eq hc]
      simp only [bind, Except.bind, pure, Except.pure, if_neg hempty]

/-! ## Runs -/

theorem CopyOk.step (h : CopyOk source s) (e : CopyEvent D) (he : s.Enabled e) :
    ∃ t, s.step source e = .ok t ∧ CopyOk source t := by
  cases e with
  | copy srcOffset => exact h.copy srcOffset
  | write offset d => exact h.write offset d
  | shadow o offset length => exact h.shadow he.1 he.2 offset length
  | writeShadow x offset d => exact h.writeShadow he.1 he.2 offset d
  | collapse x => exact h.collapse he.1 he.2
  | deallocate o => exact h.deallocate he.1 he.2

/-- Nothing has been copied yet. -/
def Copies.start (g : Objects D) (ext : ℕ → ℕ) : Copies D := ⟨g, ext, fun _ => .other, []⟩

theorem CopyOk.start (hok : g.Ok ext) {sob : VmObject D} (hs : g.table source = some sob)
    (hpager : sob.pager.isSome) (hint : sob.internal = false) (hsize : sob.size ≤ 2 ^ 32)
    (hcopy : sob.copy = none)
    (hsole : ∀ x obx, g.table x = some obx → obx.shadow ≠ some source)
    (hheld : 1 ≤ ext source) : CopyOk source (Copies.start g ext) := by
  refine ⟨hok, ⟨?_, ?_, ⟨rfl, sob, hs, hpager, hint, hsize⟩, ?_, ?_, ?_⟩, hheld, ?_⟩
  · intro c cob hrole
    cases hrole
  · intro x obx hrole
    cases hrole
  · intro sob' c hs' hcur
    cases hs.symm.trans hs'
    rw [hcopy] at hcur
    cases hcur
  · intro sob' x obx _ hx hsh
    exact absurd hsh (hsole x obx hx)
  · intro x hrole
    exact absurd rfl hrole
  · intro c f hcf
    cases hcf

theorem copyObjects_are_snapshots (hok : g.Ok ext) {sob : VmObject D}
    (hs : g.table source = some sob) (hpager : sob.pager.isSome) (hint : sob.internal = false)
    (hsize : sob.size ≤ 2 ^ 32) (hcopy : sob.copy = none)
    (hsole : ∀ x obx, g.table x = some obx → obx.shadow ≠ some source)
    (hheld : 1 ≤ ext source) {events : List (CopyEvent D)}
    (hrun : RunUnder Copies.Enabled (fun s e t => s.step source e = .ok t) (Copies.start g ext)
      events t) :
    (∀ e, t.Enabled e → ∃ t', t.step source e = .ok t') ∧
      (∃ sob', t.objects.table source = some sob' ∧
        (∀ c, sob'.copy = some c → ∃ cob, t.objects.table c = some cob ∧
          cob.shadow = some source ∧ cob.shadowOffset = 0) ∧
        ∀ x obx, t.objects.table x = some obx → obx.shadow = some source →
          sob'.copy = some x) ∧
      ∀ c f, (c, f) ∈ t.snapshots → ∀ cob, t.objects.table c = some cob →
        ∀ offset < cob.size, t.objects.contents c offset = f offset := by
  have h : CopyOk source t := by
    refine hrun.invariant ?_ (CopyOk.start hok hs hpager hint hsize hcopy hsole hheld)
    intro s e t hcok he hst
    obtain ⟨t', ht', hcok'⟩ := hcok.step e he
    cases hst.symm.trans ht'
    exact hcok'
  obtain ⟨-, sob', hs', -⟩ := h.family.backed
  refine ⟨?_, ⟨sob', hs', ?_, ?_⟩, ?_⟩
  · intro e he
    obtain ⟨t', ht', -⟩ := h.step e he
    exact ⟨t', ht'⟩
  · intro c hcur
    obtain ⟨hrole, cob, hc, hsh⟩ := h.family.current sob' c hs' hcur
    exact ⟨cob, hc, hsh, (h.family.copyLink c cob hrole hc).2.1⟩
  · intro x obx hx hsh
    exact h.family.sole sob' x obx hs' hx hsh
  · intro c f hcf cob hc
    exact (h.shows c f hcf).2 cob hc

/-- One object of a page, with a pager that answers `page` everywhere. -/
def oneBacked (page : ℕ) : Objects ℕ where
  table := fun o =>
    if o = 0 then
      some { vmObjectTemplate 4096 with pager := some (fun _ => some page), internal := false }
    else none
  next := 1

theorem oneBacked_eq {page o : ℕ} {ob : VmObject ℕ} (h : (oneBacked page).table o = some ob) :
    o = 0 := by
  by_contra hne
  simp only [oneBacked, if_neg hne] at h
  cases h

theorem oneBacked_ok (page : ℕ) : (oneBacked page).Ok (fun o => if o = 0 then 1 else 0) := by
  refine ⟨?_, ?_, ?_, ?_⟩
  · intro o ob ho
    rw [oneBacked_eq ho]
    exact Nat.zero_lt_one
  · intro o ob ho
    cases oneBacked_eq ho
    exact ⟨[0], .cons rfl .nil⟩
  · intro o ob ho
    cases oneBacked_eq ho
    cases ho
    rfl
  · intro o hpos
    by_cases ho : o = 0
    · subst ho
      exact ⟨_, rfl⟩
    · rw [if_neg ho] at hpos
      omega

/-- The source is copied and then written to: the copy-object shows the page that the pager
had. -/
theorem copyObjects_are_snapshots_one : ∃ t : Copies ℕ,
    RunUnder Copies.Enabled (fun s e t => s.step 0 e = .ok t)
      (Copies.start (oneBacked 7) (fun o => if o = 0 then 1 else 0)) [.copy 0, .write 0 9] t ∧
    t.objects.contents 0 0 = 9 ∧ t.objects.contents 1 0 = 7 := by
  have hcopy : RunUnder Copies.Enabled (fun s e t => s.step 0 e = .ok t)
      (Copies.start (oneBacked 7) (fun o => if o = 0 then 1 else 0)) [.copy 0] _ :=
    .snoc (.nil _) ⟨trivial, rfl⟩
  have hrun : RunUnder Copies.Enabled (fun s e t => s.step 0 e = .ok t) _
      ([.copy 0] ++ [.write 0 9]) _ := .snoc hcopy ⟨trivial, rfl⟩
  have hone : (oneBacked 7).table 0 = some _ := rfl
  have hsole : ∀ x obx, (oneBacked 7).table x = some obx → obx.shadow ≠ some 0 := by
    intro x obx hx
    cases oneBacked_eq hx
    cases hx
    decide
  obtain ⟨-, -, hshow⟩ := copyObjects_are_snapshots (oneBacked_ok 7) hone rfl rfl (by decide) rfl
    hsole (by decide) hrun
  refine ⟨_, hrun, rfl, ?_⟩
  exact (hshow 1 _ (List.mem_singleton.mpr rfl) _ rfl 0 (by decide)).trans rfl

end Darwin.Vm
