import Darwin.Vm.Fault
import Darwin.Lib.Run

/-! # Copy-objects are snapshots

A pager-backed object, its source, has at most one current copy-object. A write fault on
the source pushes the old page there first, and a new copy-object is threaded between the
source and the one before it; so each copy-object goes on showing what the source held when
`vm_object_copy` returned it.
-/
namespace Darwin.Vm
open Darwin.Lib Function

variable {D : Type}

/-- What an object is to the source. -/
inductive Role where
  | other
  /-- Returned by `vm_object_copy` of the source. -/
  | copy
  /-- Made by `vm_object_shadow` above a copy-object. -/
  | shadow
  deriving DecidableEq

/-- The objects with the references that map entries hold, and for each copy-object that has
been returned what the source showed then. -/
structure Copies (D : Type) where
  objects : Objects D
  ext : ℕ → ℕ
  role : ℕ → Role
  snapshots : List (ℕ × (ℕ → D))

inductive CopyEvent (D : Type) where
  /-- `vm_object_copy` of the source, from an offset. -/
  | copy (srcOffset : Fin (2 ^ 32))
  /-- A write fault on the source, and the store. -/
  | write (offset : Fin (2 ^ 32)) (d : D)
  /-- A holder of a copy-object, or of a shadow of one, is to write: its reference goes to a
  new shadow. -/
  | shadow (o : ℕ) (offset length : Fin (2 ^ 32))
  /-- A write fault on such a shadow, and the store. -/
  | writeShadow (x : ℕ) (offset : Fin (2 ^ 32)) (d : D)
  | collapse (x : ℕ)
  /-- A holder gives up its reference. -/
  | deallocate (o : ℕ)

/-- One reference less. -/
def dropRef (ext : ℕ → ℕ) (o : ℕ) : ℕ → ℕ := update ext o (ext o - 1)

namespace Copies

/-- Only who has a reference can use it. -/
def Enabled (s : Copies D) : CopyEvent D → Prop
  | .copy _ => True
  | .write _ _ => True
  | .shadow o _ _ => s.role o ≠ .other ∧ 1 ≤ s.ext o
  | .writeShadow x _ _ => s.role x = .shadow ∧ 1 ≤ s.ext x
  | .collapse x => s.role x = .shadow ∧ (s.objects.table x).isSome
  | .deallocate o => s.role o ≠ .other ∧ 1 ≤ s.ext o

def step [Zero D] (source : ℕ) (s : Copies D) : CopyEvent D → Except Stop (Copies D)
  | .copy srcOffset => do
    let (r, g) ← vmObjectCopy s.objects (some source) srcOffset
    match r.dstObject with
    | none => return { s with objects := g }
    | some c =>
      return {
        objects := g
        ext := addRef s.ext (some c)
        role := update s.role c .copy
        snapshots := (c, s.objects.contents source) :: s.snapshots }
  | .write offset d => do
    let g ← vmWrite s.objects source offset d
    return { s with objects := g }
  | .shadow o offset length =>
    let (x, g) := vmObjectShadow s.objects (some o) offset length
    .ok { s with
      objects := g
      ext := addRef (dropRef s.ext o) (some x)
      role := update s.role x .shadow }
  | .writeShadow x offset d => do
    let g ← vmWrite s.objects x offset d
    return { s with objects := g }
  | .collapse x => do
    let g ← vmObjectCollapse s.objects (some x)
    return { s with objects := g }
  | .deallocate o => do
    let g ← vmObjectDeallocate s.objects (some o)
    return { s with objects := g, ext := dropRef s.ext o }

end Copies

theorem addRef_dropRef {ext : ℕ → ℕ} {o : ℕ} (h : 1 ≤ ext o) :
    addRef (dropRef ext o) (some o) = ext := by
  ext1 x
  by_cases hx : x = o
  · subst hx
    rw [addRef_self, dropRef, update_self]
    omega
  · rw [addRef_of_ne (fun heq => hx (Option.some.inj heq).symm), dropRef, update_of_ne hx]

/-! ## The objects above the source -/

/-- How the copy-objects and their shadows hang together. -/
structure Family (source : ℕ) (role : ℕ → Role) (g : Objects D) : Prop where
  copyLink : ∀ c cob, role c = .copy → g.table c = some cob → cob.copy = none ∧
    cob.shadowOffset = 0 ∧ cob.size ≤ 2 ^ 32 ∧
      ∃ s, cob.shadow = some s ∧ (s = source ∨ role s = .copy)
  shadowLink : ∀ x obx, role x = .shadow → g.table x = some obx → obx.copy = none ∧
    ∃ s, obx.shadow = some s ∧ role s ≠ .other
  backed : role source = .other ∧ ∃ sob, g.table source = some sob ∧ sob.pager.isSome ∧
    sob.internal = false ∧ sob.size ≤ 2 ^ 32
  current : ∀ sob c, g.table source = some sob → sob.copy = some c → role c = .copy ∧
    ∃ cob, g.table c = some cob ∧ cob.shadow = some source
  sole : ∀ sob x obx, g.table source = some sob → g.table x = some obx →
    obx.shadow = some source → sob.copy = some x
  bounded : ∀ x, role x ≠ .other → x < g.next

namespace Family
variable {g g' : Objects D} {source c x : ℕ} {role : ℕ → Role} {ext : ℕ → ℕ} {l : List ℕ}

theorem source_mem (h : Family source role g) {object : Option ℕ} (hl : g.Chain object l) :
    ∀ y, object = some y → role y ≠ .other → source ∈ l := by
  induction hl with
  | nil => simp
  | @cons o ob l ho hl ih =>
    intro y hy hrole
    cases hy
    apply List.mem_cons_of_mem
    obtain ⟨s, hs, hrole'⟩ : ∃ s, ob.shadow = some s ∧ (s = source ∨ role s ≠ .other) := by
      cases hr : role o with
      | other => exact absurd hr hrole
      | copy =>
        obtain ⟨-, -, -, s, hs, hcase⟩ := h.copyLink o ob hr ho
        exact ⟨s, hs, hcase.imp_right (fun heq => by rw [heq]; decide)⟩
      | shadow =>
        obtain ⟨-, s, hs, hcase⟩ := h.shadowLink o ob hr ho
        exact ⟨s, hs, .inr hcase⟩
    rcases hrole' with rfl | hrole'
    · rw [hs] at hl
      cases hl
      exact List.mem_cons_self
    · exact ih s hs hrole'

theorem other_of_below (h : Family source role g) (hl : g.Chain (some source) l)
    (hx : x ∈ l) : role x = .other := by
  by_contra hrole
  obtain ⟨l', hl', hsuf⟩ := hl.from_mem hx
  have hmem := h.source_mem hl' x rfl hrole
  have hne : x ≠ source := by
    rintro rfl
    exact hrole h.backed.1
  cases hl with
  | @cons _ _ r ho hr =>
    have hnd := (Objects.Chain.cons ho hr).nodup
    rcases List.suffix_cons_iff.mp hsuf with heq | hsuf'
    · rw [heq] at hl'
      cases hl'
      exact hne rfl
    · exact (List.nodup_cons.mp hnd).1 (hsuf'.mem hmem)

theorem notShadow_of_copy (h : Family source role g) {object : Option ℕ}
    (hl : g.Chain object l) :
    ∀ c, object = some c → role c = .copy → ∀ x ∈ l, role x ≠ .shadow := by
  induction hl with
  | nil => simp
  | @cons o ob l ho hl ih =>
    intro c hc hrole x hx
    cases hc
    rcases List.mem_cons.mp hx with rfl | hx
    · rw [hrole]
      decide
    · obtain ⟨-, -, -, s, hs, hcase⟩ := h.copyLink o ob hrole ho
      rcases hcase with rfl | hcase
      · rw [hs] at hl
        rw [h.other_of_below hl hx]
        decide
      · exact ih s hs hcase x hx

theorem frame (h : Family source role g) (hnext : g'.next = g.next)
    (hback : ∀ x obx', g'.table x = some obx' → ∃ obx, g.table x = some obx ∧
      obx'.copy = obx.copy ∧ obx'.shadow = obx.shadow ∧ obx'.shadowOffset = obx.shadowOffset ∧
      obx'.pager = obx.pager ∧ obx'.internal = obx.internal ∧ obx'.size = obx.size)
    (hlive : ∀ x obx, g.table x = some obx → ∃ obx', g'.table x = some obx') :
    Family source role g' := by
  refine ⟨?_, ?_, ?_, ?_, ?_, ?_⟩
  · intro c cob' hrole hc'
    obtain ⟨cob, hc, hcopy, hsh, hoff, -, -, hsize⟩ := hback c cob' hc'
    rw [hcopy, hsh, hoff, hsize]
    exact h.copyLink c cob hrole hc
  · intro x obx' hrole hx'
    obtain ⟨obx, hx, hcopy, hsh, -⟩ := hback x obx' hx'
    rw [hcopy, hsh]
    exact h.shadowLink x obx hrole hx
  · obtain ⟨hrole, sob, hs, hprops⟩ := h.backed
    obtain ⟨sob', hs'⟩ := hlive source sob hs
    obtain ⟨sob₁, hs₁, -, -, -, hpager, hint, hsize⟩ := hback source sob' hs'
    cases hs.symm.trans hs₁
    refine ⟨hrole, sob', hs', ?_⟩
    rw [hpager, hint, hsize]
    exact hprops
  · intro sob' c hs' hc
    obtain ⟨sob, hs, hcopy, -⟩ := hback source sob' hs'
    rw [hcopy] at hc
    obtain ⟨hrole, cob, hcob, hsh⟩ := h.current sob c hs hc
    obtain ⟨cob', hcob'⟩ := hlive c cob hcob
    obtain ⟨cob₁, hcob₁, -, hsh₁, -⟩ := hback c cob' hcob'
    cases hcob.symm.trans hcob₁
    exact ⟨hrole, cob', hcob', hsh₁.trans hsh⟩
  · intro sob' x obx' hs' hx' hsh'
    obtain ⟨sob, hs, hcopy, -⟩ := hback source sob' hs'
    obtain ⟨obx, hx, -, hsh, -⟩ := hback x obx' hx'
    rw [hcopy]
    exact h.sole sob x obx hs hx (hsh.symm.trans hsh')
  · intro x hrole
    rw [hnext]
    exact h.bounded x hrole

theorem sameView [Zero D] (h : Family source role g) (hv : SameView g g') :
    Family source role g' := by
  refine h.frame hv.next ?_ ?_
  · intro x obx' hx'
    obtain ⟨obx, hx, heq⟩ := hv.table x obx' hx'
    rw [heq]
    exact ⟨obx, hx, rfl, rfl, rfl, rfl, rfl, rfl⟩
  · intro x obx hx
    obtain ⟨obx', hx', -⟩ := hv.table' x obx hx
    exact ⟨obx', hx'⟩

theorem set_pages (h : Family source role g) {o : ℕ} {ob : VmObject D} (ho : g.table o = some ob)
    (memq : List (Page D)) : Family source role (g.set o { ob with memq := memq }) := by
  refine h.frame rfl ?_ ?_
  · intro x obx' hx'
    by_cases hxo : x = o
    · subst hxo
      cases Objects.set_self.symm.trans hx'
      exact ⟨ob, ho, rfl, rfl, rfl, rfl, rfl, rfl⟩
    · exact ⟨obx', (Objects.set_of_ne hxo).symm.trans hx', rfl, rfl, rfl, rfl, rfl, rfl⟩
  · intro x obx hx
    by_cases hxo : x = o
    · subst hxo
      exact ⟨_, Objects.set_self⟩
    · exact ⟨obx, (Objects.set_of_ne hxo).trans hx⟩

/-- A turn of `vm_object_collapse` on a shadow keeps the family: the current copy-object is
not taken in and not passed by. -/
theorem collapses (h : Family source role g) (hok : g.Ok ext) (hx : role x = .shadow)
    (hc : Collapses g x g') : Family source role g' := by
  obtain ⟨hsrole, sob, hsob, hsprops⟩ := h.backed
  have hxs : source ≠ x := by
    rintro rfl
    rw [hx] at hsrole
    cases hsrole
  -- the backing object is of the family, and its shadow is not the source
  have hbelow : ∀ backing ob back, g.table x = some ob → ob.shadow = some backing →
      g.table backing = some back → g.hasCopy back.shadow = .ok false →
      role backing ≠ .other ∧ ob.copy = none ∧ ∃ s, back.shadow = some s ∧ role s ≠ .other := by
    intro backing ob back hob hsh hback hguard
    obtain ⟨hcopy, b, hb, hrole⟩ := h.shadowLink x ob hx hob
    cases hsh.symm.trans hb
    refine ⟨hrole, hcopy, ?_⟩
    cases hr : role backing with
    | other => exact absurd hr hrole
    | shadow => exact (h.shadowLink backing back hr hback).2
    | copy =>
      obtain ⟨-, -, -, s, hs, hcase⟩ := h.copyLink backing back hr hback
      refine ⟨s, hs, ?_⟩
      rcases hcase with rfl | hcase
      · have hcur := h.sole sob backing back hsob hback hs
        rw [hs, Objects.hasCopy, Objects.get_eq hsob] at hguard
        simp [bind, Except.bind, pure, Except.pure, hcur] at hguard
      · rw [hcase]
        decide
  cases hc with
  | @collapse backing ob back hob hpager hsh hback _ hguard hone =>
    obtain ⟨hbrole, hcopy, s, hs, hsrole'⟩ := hbelow backing ob back hob hsh hback hguard
    have hne := hok.ne_shadow hob hsh
    have hsb : source ≠ backing := by
      rintro rfl
      exact hbrole hsrole
    have htable : ∀ y oby, (g.collapse x backing ob back).table y = some oby →
        (y = x ∧ oby = collapsed ob back) ∨ (y ≠ x ∧ y ≠ backing ∧ g.table y = some oby) := by
      intro y oby hy
      by_cases hyb : y = backing
      · rw [hyb, Objects.collapse, Objects.free_self] at hy
        cases hy
      by_cases hyx : y = x
      · subst hyx
        cases (collapse_object hne).symm.trans hy
        exact .inl ⟨rfl, rfl⟩
      · exact .inr ⟨hyx, hyb, (collapse_of_ne hyx hyb).symm.trans hy⟩
    have hsource : (g.collapse x backing ob back).table source = some sob :=
      (collapse_of_ne hxs hsb).trans hsob
    have hmove : (collapsed ob back).copy = none ∧ (collapsed ob back).shadow = some s := by
      obtain ⟨memq, heq⟩ := absorb_eq ob.shadowOffset ob back.memq
      rw [collapsed, heq]
      exact ⟨hcopy, hs⟩
    refine ⟨?_, ?_, ⟨hsrole, sob, hsource, hsprops⟩, ?_, ?_, h.bounded⟩
    · intro c cob hrole hcob
      rcases htable c cob hcob with ⟨rfl, -⟩ | ⟨-, -, hcob⟩
      · rw [hx] at hrole
        cases hrole
      · exact h.copyLink c cob hrole hcob
    · intro y oby hrole hy
      rcases htable y oby hy with ⟨-, rfl⟩ | ⟨-, -, hy⟩
      · exact ⟨hmove.1, s, hmove.2, hsrole'⟩
      · exact h.shadowLink y oby hrole hy
    · intro sob' c hs' hcur
      cases hsource.symm.trans hs'
      obtain ⟨hrole, cob, hcob, hcsh⟩ := h.current sob c hsob hcur
      have hcx : c ≠ x := by
        rintro rfl
        rw [hx] at hrole
        cases hrole
      have hcb : c ≠ backing := by
        rintro rfl
        cases hback.symm.trans hcob
        cases hs.symm.trans hcsh
        exact hsrole' hsrole
      exact ⟨hrole, cob, (collapse_of_ne hcx hcb).trans hcob, hcsh⟩
    · intro sob' y oby hs' hy hysh
      cases hsource.symm.trans hs'
      rcases htable y oby hy with ⟨-, rfl⟩ | ⟨-, -, hy⟩
      · cases hmove.2.symm.trans hysh
        exact absurd hsrole hsrole'
      · exact h.sole sob y oby hsob hy hysh
  | @bypass backing ob back hob _ hsh hback _ hguard hpaged hhidden =>
    obtain ⟨hbrole, hcopy, s, hs, hsrole'⟩ := hbelow backing ob back hob hsh hback hguard
    have htable : ∀ y oby, (g.bypass x backing ob back).table y = some oby →
        (y = x ∧ oby = bypassed ob back) ∨ (y ≠ x ∧ ∃ oby', g.table y = some oby' ∧
          oby = { oby' with refCount := oby.refCount }) := by
      intro y oby hy
      by_cases hyx : y = x
      · subst hyx
        cases bypass_object.symm.trans hy
        exact .inl ⟨rfl, rfl⟩
      · simp only [Objects.bypass, if_neg hyx, Option.map_eq_some_iff] at hy
        obtain ⟨oby', hy', rfl⟩ := hy
        exact .inr ⟨hyx, oby', hy', rfl⟩
    have hsource : (g.bypass x backing ob back).table source = _ := bypass_of_ne hxs hsob
    refine ⟨?_, ?_, ⟨hsrole, _, hsource, hsprops⟩, ?_, ?_, h.bounded⟩
    · intro c cob hrole hcob
      rcases htable c cob hcob with ⟨rfl, -⟩ | ⟨-, cob', hcob', heq⟩
      · rw [hx] at hrole
        cases hrole
      · rw [heq]
        exact h.copyLink c cob' hrole hcob'
    · intro y oby hrole hy
      rcases htable y oby hy with ⟨-, rfl⟩ | ⟨-, oby', hy', heq⟩
      · exact ⟨hcopy, s, hs, hsrole'⟩
      · rw [heq]
        exact h.shadowLink y oby' hrole hy'
    · intro sob' c hs' hcur
      cases hsource.symm.trans hs'
      obtain ⟨hrole, cob, hcob, hcsh⟩ := h.current sob c hsob hcur
      have hcx : c ≠ x := by
        rintro rfl
        rw [hx] at hrole
        cases hrole
      exact ⟨hrole, _, bypass_of_ne hcx hcob, hcsh⟩
    · intro sob' y oby hs' hy hysh
      cases hsource.symm.trans hs'
      rcases htable y oby hy with ⟨-, rfl⟩ | ⟨-, oby', hy', heq⟩
      · cases hs.symm.trans hysh
        exact absurd hsrole hsrole'
      · rw [heq] at hysh
        exact h.sole sob y oby' hsob hy' hysh

theorem released (h : Family source role g) (hr : Objects.Released g g')
    (hlive : ∃ sob', g'.table source = some sob') : Family source role g' := by
  obtain ⟨hsrole, sob, hsob, hsprops⟩ := h.backed
  obtain ⟨sob', hsob'⟩ := hlive
  obtain ⟨sob₁, hsob₁, hseq, hscopy⟩ := hr.kept source sob' hsob'
  cases hsob.symm.trans hsob₁
  refine ⟨?_, ?_, ⟨hsrole, sob', hsob', ?_⟩, ?_, ?_, ?_⟩
  · intro c cob' hrole hc'
    obtain ⟨cob, hc, heq, hcopy⟩ := hr.kept c cob' hc'
    obtain ⟨hnone, hrest⟩ := h.copyLink c cob hrole hc
    constructor
    · rcases hcopy with hcopy | hcopy
      · exact hcopy.trans hnone
      · exact hcopy.1
    · rw [heq]
      exact hrest
  · intro x obx' hrole hx'
    obtain ⟨obx, hx, heq, hcopy⟩ := hr.kept x obx' hx'
    obtain ⟨hnone, hrest⟩ := h.shadowLink x obx hrole hx
    constructor
    · rcases hcopy with hcopy | hcopy
      · exact hcopy.trans hnone
      · exact hcopy.1
    · rw [heq]
      exact hrest
  · rw [hseq]
    exact hsprops
  · intro sob₂ c hs₂ hcur
    cases hsob'.symm.trans hs₂
    have hcur₀ : sob.copy = some c := by
      rcases hscopy with hscopy | hscopy
      · exact hscopy.symm.trans hcur
      · rw [hscopy.1] at hcur
        cases hcur
    obtain ⟨hrole, cob, hcob, hcsh⟩ := h.current sob c hsob hcur₀
    cases hcob' : g'.table c with
    | none => exact absurd hcur (hr.detached c cob hcob hcob' source sob' hcsh hsob')
    | some cob' =>
      obtain ⟨cob₁, hcob₁, heq, -⟩ := hr.kept c cob' hcob'
      cases hcob.symm.trans hcob₁
      exact ⟨hrole, cob', rfl, by rw [heq]; exact hcsh⟩
  · intro sob₂ x obx' hs₂ hx' hxsh
    cases hsob'.symm.trans hs₂
    obtain ⟨obx, hx, heq, -⟩ := hr.kept x obx' hx'
    rw [heq] at hxsh
    have hcur := h.sole sob x obx hsob hx hxsh
    rcases hscopy with hscopy | ⟨-, hgone⟩
    · exact hscopy.trans hcur
    · rw [hgone x hcur] at hx'
      cases hx'
  · intro x hrole
    rw [hr.next]
    exact h.bounded x hrole

end Family

variable {g : Objects D} {source : ℕ} {role : ℕ → Role} {ext : ℕ → ℕ}

/-! ## A new copy-object -/

/-- The new copy-object `n` stands between the source and the copy-object before it. -/
structure Threaded (source n : ℕ) (sob : VmObject D) (g g' : Objects D) : Prop where
  next : g'.next = n + 1
  new : g'.table n = some { vmObjectTemplate sob.size with
    refCount := if sob.copy.isSome then 2 else 1, shadow := some source }
  top : g'.table source = some { sob with
    refCount := if sob.copy.isSome then sob.refCount else sob.refCount + 1, copy := some n }
  old : ∀ c cob, sob.copy = some c → g.table c = some cob →
    g'.table c = some { cob with shadow := some n }
  other : ∀ x, x ≠ n → x ≠ source → sob.copy ≠ some x → g'.table x = g.table x

theorem newCopyObject_spec (hok : g.Ok ext) (hfam : Family source role g) {sob : VmObject D}
    (hs : g.table source = some sob) (srcOffset : ℕ) :
    ∃ g', newCopyObject g source srcOffset = .ok (⟨some g.next, srcOffset, false⟩, g') ∧
      Threaded source g.next sob g g' := by
  have hsn : source ≠ g.next := by
    intro heq
    rw [heq, hok.next_free] at hs
    cases hs
  have hget : (vmObjectAllocate g sob.size).2.get (vmObjectAllocate g sob.size).1 =
      .ok (vmObjectTemplate sob.size) := Objects.get_eq Objects.set_self
  rw [newCopyObject, Objects.get_eq hs]
  simp only [bind, Except.bind, pure, Except.pure, hget]
  cases hcopy : sob.copy with
  | none =>
    refine ⟨_, rfl, rfl, ?_, ?_, ?_, ?_⟩
    · rw [Objects.set_of_ne hsn.symm, hcopy]
      exact Objects.set_self
    · rw [hcopy]
      exact Objects.set_self
    · intro c cob hc
      cases hcopy.symm.trans hc
    · intro x hxn hxs _
      exact (Objects.set_of_ne hxs).trans ((Objects.set_of_ne hxn).trans (Objects.set_of_ne hxn))
  | some old =>
    obtain ⟨hrole, cob, hcob, hsh⟩ := hfam.current sob old hs hcopy
    obtain ⟨-, hzero, -⟩ := hfam.copyLink old cob hrole hcob
    have hon : old ≠ g.next := by
      intro heq
      rw [heq, hok.next_free] at hcob
      cases hcob
    have hos : old ≠ source := by
      rintro rfl
      rw [hfam.backed.1] at hrole
      cases hrole
    have hget' : (vmObjectAllocate g sob.size).2.get old = .ok cob :=
      Objects.get_eq ((Objects.set_of_ne hon).trans hcob)
    have hcheck : ¬ (cob.shadow ≠ some source ∨ cob.shadowOffset ≠ 0) := by
      rw [hsh, hzero]
      simp
    simp only [hget', if_neg hcheck]
    refine ⟨_, rfl, rfl, ?_, ?_, ?_, ?_⟩
    · rw [Objects.set_of_ne hsn.symm, hcopy]
      exact Objects.set_self
    · refine Objects.set_self.trans ?_
      simp only [hcopy, Option.isSome_some, if_true, Int.sub_add_cancel]
      rfl
    · intro c cob' hc hcob'
      cases hcopy.symm.trans hc
      cases hcob.symm.trans hcob'
      exact (Objects.set_of_ne hos).trans ((Objects.set_of_ne hon).trans Objects.set_self)
    · intro x hxn hxs hxo
      have hxold : x ≠ old := fun heq => hxo (by rw [hcopy, heq])
      exact (Objects.set_of_ne hxs).trans ((Objects.set_of_ne hxn).trans
        ((Objects.set_of_ne hxold).trans (Objects.set_of_ne hxn)))

end Darwin.Vm
