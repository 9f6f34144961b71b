import Darwin.Vm.Collapse

/-! # References to objects

What allocation, references, deallocation and shadows do to a well-formed graph. `addRef`
adds one reference from outside; a caller that gives a reference away starts with one more
than it ends with.
-/
namespace Darwin.Vm
open Darwin.Lib Function

variable {D : Type} {g g' : Objects D} {ext ext' : ℕ → ℕ} {o x : ℕ} {ob obx : VmObject D}
  {l : List ℕ}

/-- One more reference to the object. -/
def addRef (ext : ℕ → ℕ) (object : Option ℕ) : ℕ → ℕ :=
  fun x => ext x + if object = some x then 1 else 0

@[simp] theorem addRef_none : addRef ext none = ext := by
  ext x
  simp [addRef]

@[simp] theorem addRef_self : addRef ext (some o) o = ext o + 1 := by
  simp [addRef]

theorem addRef_of_ne {object : Option ℕ} (h : object ≠ some x) : addRef ext object x = ext x := by
  rw [addRef, if_neg h, Nat.add_zero]

namespace Objects

theorem Ok.frame (h : g.Ok ext) (hnext : g'.next = g.next)
    (hdom : ∀ x obx', g'.table x = some obx' → ∃ obx, g.table x = some obx ∧
      obx'.refCount - ext' x = obx.refCount - ext x)
    (hdom' : ∀ x obx, g.table x = some obx → ∃ obx', g'.table x = some obx' ∧
      obx'.shadow = obx.shadow) (hlive : ∀ x, 1 ≤ ext' x → ∃ obx, g.table x = some obx) :
    g'.Ok ext' := by
  have hshadow : g'.shadowOf = g.shadowOf := by
    ext1 x
    cases hx : g.table x with
    | some obx =>
      obtain ⟨obx', hx', hsh⟩ := hdom' x obx hx
      rw [shadowOf_eq hx', shadowOf_eq hx, hsh]
    | none =>
      have hx' : g'.table x = none := by
        cases hx' : g'.table x with
        | none => rfl
        | some obx' =>
          obtain ⟨obx, hobx, -⟩ := hdom x obx' hx'
          cases hobx.symm.trans hx
      rw [shadowOf, hx', shadowOf, hx]
  refine ⟨?_, ?_, ?_, ?_⟩
  · intro x obx' hx'
    obtain ⟨obx, hx, -⟩ := hdom x obx' hx'
    rw [hnext]
    exact h.bounded x obx hx
  · intro x obx' hx'
    obtain ⟨obx, hx, -⟩ := hdom x obx' hx'
    obtain ⟨l, hl⟩ := h.ends x obx hx
    refine ⟨l, hl.congr (fun y hy => ?_)⟩
    obtain ⟨oby, hoby⟩ := hl.live y hy
    obtain ⟨oby', hoby', -⟩ := hdom' y oby hoby
    exact ⟨oby', hoby', by rw [← shadowOf_eq hoby', hshadow]⟩
  · intro x obx' hx'
    obtain ⟨obx, hx, hrefs⟩ := hdom x obx' hx'
    have hold := h.refs x obx hx
    rw [shadowers, hshadow, hnext]
    change _ = _ + (g.shadowers x : ℤ)
    omega
  · intro x hpos
    obtain ⟨obx, hx⟩ := hlive x hpos
    obtain ⟨obx', hx', -⟩ := hdom' x obx hx
    exact ⟨obx', hx'⟩

theorem Ok.set (h : g.Ok ext) (ho : g.table o = some ob) {ob' : VmObject D}
    (hsh : ob'.shadow = ob.shadow) (hrefs : ob'.refCount - ext' o = ob.refCount - ext o)
    (hext : ∀ x ≠ o, ext' x = ext x) : (g.set o ob').Ok ext' := by
  refine h.frame set_next ?_ ?_ ?_
  · intro x obx' hx'
    by_cases hxo : x = o
    · subst hxo
      cases (set_self).symm.trans hx'
      exact ⟨ob, ho, hrefs⟩
    · rw [set_of_ne hxo] at hx'
      exact ⟨obx', hx', by rw [hext x hxo]⟩
  · intro x obx hx
    by_cases hxo : x = o
    · subst hxo
      cases ho.symm.trans hx
      exact ⟨ob', set_self, hsh⟩
    · exact ⟨obx, (set_of_ne hxo).trans hx, rfl⟩
  · intro x hpos
    by_cases hxo : x = o
    · exact ⟨ob, hxo ▸ ho⟩
    · rw [hext x hxo] at hpos
      exact h.live x hpos

theorem Ok.reference (h : g.Ok ext) (ho : g.table o = some ob) :
    vmObjectReference g (some o) = .ok (g.set o { ob with refCount := ob.refCount + 1 }) ∧
      (g.set o { ob with refCount := ob.refCount + 1 }).Ok (addRef ext (some o)) := by
  constructor
  · rw [vmObjectReference, get_eq ho]
    rfl
  · refine h.set ho rfl ?_ ?_
    · rw [addRef_self]
      push_cast
      omega
    · intro x hx
      exact addRef_of_ne (fun heq => hx (Option.some.inj heq).symm)

theorem Ok.next_free (h : g.Ok ext) : g.table g.next = none := by
  cases hn : g.table g.next with
  | none => rfl
  | some ob => exact absurd (h.bounded _ _ hn) (Nat.lt_irrefl _)

theorem Chain.extend {object : Option ℕ} (hl : g.Chain object l)
    (hsame : ∀ x obx, g.table x = some obx → g'.table x = some obx) : g'.Chain object l := by
  apply hl.congr
  intro x hx
  obtain ⟨obx, hobx⟩ := hl.live x hx
  exact ⟨obx, hsame x obx hobx, shadowOf_eq hobx⟩

theorem Ok.new (h : g.Ok (addRef ext ob.shadow)) (hone : ob.refCount = 1)
    (hlive : ∀ s, ob.shadow = some s → ∃ sh, g.table s = some sh)
    (hnew : ∀ x, g'.table x = if x = g.next then some ob else g.table x)
    (hnext : g'.next = g.next + 1) : g'.Ok (addRef ext (some g.next)) := by
  have hself : g'.table g.next = some ob := by rw [hnew, if_pos rfl]
  have hother : ∀ x obx, g.table x = some obx → g'.table x = some obx := by
    intro x obx hx
    rw [hnew, if_neg (fun heq => ?_)]
    · exact hx
    · rw [heq, h.next_free] at hx
      cases hx
  have hcases : ∀ x obx, g'.table x = some obx →
      (x = g.next ∧ obx = ob) ∨ g.table x = some obx := by
    intro x obx hx
    rw [hnew] at hx
    split at hx
    · rename_i heq
      exact .inl ⟨heq, (Option.some.inj hx).symm⟩
    · exact .inr hx
  have hshadow : ∀ x < g.next, g'.shadowOf x = g.shadowOf x := by
    intro x hx
    rw [shadowOf, hnew, if_neg (by omega), shadowOf]
  have hcount : ∀ y, g'.shadowers y =
      g.shadowers y + if ob.shadow = some y then 1 else 0 := by
    intro y
    rw [shadowers, hnext, referrers_succ, shadowOf_eq hself, shadowers]
    congr 1
    exact referrers_congr (fun x hx => by rw [hshadow x hx])
  have hext : ext g.next = 0 := by
    by_contra hpos
    obtain ⟨obx, hx⟩ := h.live g.next (by rw [addRef]; omega)
    rw [h.next_free] at hx
    cases hx
  refine ⟨?_, ?_, ?_, ?_⟩
  · intro x obx hx
    rcases hcases x obx hx with ⟨rfl, -⟩ | hx
    · omega
    · have := h.bounded x obx hx
      omega
  · intro x obx hx
    rcases hcases x obx hx with ⟨rfl, rfl⟩ | hx
    · cases hs : obx.shadow with
      | none => exact ⟨[g.next], .cons hself (by rw [hs]; exact .nil)⟩
      | some s =>
        obtain ⟨sh, hsh⟩ := hlive s hs
        obtain ⟨l, hl⟩ := h.ends s sh hsh
        exact ⟨g.next :: l, .cons hself (by rw [hs]; exact hl.extend hother)⟩
    · obtain ⟨l, hl⟩ := h.ends x obx hx
      exact ⟨l, hl.extend hother⟩
  · intro x obx hx
    rw [hcount]
    rcases hcases x obx hx with ⟨rfl, rfl⟩ | hx
    · have hnone : g.shadowers g.next = 0 := by
        apply referrers_eq_zero
        intro y _ hy
        cases hoby : g.table y with
        | none =>
          rw [shadowOf, hoby] at hy
          cases hy
        | some oby =>
          rw [shadowOf_eq hoby] at hy
          obtain ⟨sh, hsh⟩ := h.shadow_live hoby hy
          rw [h.next_free] at hsh
          cases hsh
      have hself' : obx.shadow ≠ some g.next := by
        intro hs
        obtain ⟨sh, hsh⟩ := hlive _ hs
        rw [h.next_free] at hsh
        cases hsh
      rw [hone, hnone, if_neg hself', addRef_self, hext]
      rfl
    · have hrefs := h.refs x obx hx
      have hne : g.next ≠ x := by
        rintro rfl
        rw [h.next_free] at hx
        cases hx
      rw [addRef_of_ne (fun heq => hne (Option.some.inj heq))]
      rw [addRef] at hrefs
      push_cast at hrefs ⊢
      omega
  · intro x hpos
    by_cases hx : g.next = x
    · exact ⟨ob, hx ▸ hself⟩
    · rw [addRef_of_ne (fun heq => hx (Option.some.inj heq))] at hpos
      obtain ⟨obx, hobx⟩ := h.live x (by rw [addRef]; omega)
      exact ⟨obx, hother x obx hobx⟩

/-! ## Deallocation -/

theorem Ok.notMem_chain (h : g.Ok ext) (hnone : g.shadowers o = 0) {object : Option ℕ}
    (hl : g.Chain object l) (hne : object ≠ some o) : o ∉ l := by
  induction hl with
  | nil => simp
  | @cons y oby l hy hl ih =>
    intro hmem
    rcases List.mem_cons.mp hmem with rfl | hmem
    · exact hne rfl
    · refine ih ?_ hmem
      intro hs
      have hpos : 0 < g.shadowers o :=
        referrers_pos (h.bounded y oby hy) ((shadowOf_eq hy).trans hs)
      omega

/-- What is left after references have been given up: records change in their count, and
in their copy when the copy-object is gone. -/
structure Released (g g' : Objects D) : Prop where
  next : g'.next = g.next
  kept : ∀ x obx', g'.table x = some obx' → ∃ obx, g.table x = some obx ∧
    obx' = { obx with refCount := obx'.refCount, copy := obx'.copy } ∧
      (obx'.copy = obx.copy ∨ obx'.copy = none ∧ ∀ c, obx.copy = some c → g'.table c = none)
  detached : ∀ x obx, g.table x = some obx → g'.table x = none →
    ∀ s sh', obx.shadow = some s → g'.table s = some sh' → sh'.copy ≠ some x

theorem Released.refl (g : Objects D) : Released g g := by
  refine ⟨rfl, fun x obx hx => ⟨obx, hx, rfl, .inl rfl⟩, ?_⟩
  intro x obx hx hx'
  rw [hx] at hx'
  cases hx'

theorem Released.trans {g'' : Objects D} (h : Released g g') (h' : Released g' g'') :
    Released g g'' := by
  refine ⟨h'.next.trans h.next, ?_, ?_⟩
  · intro x obx'' hx''
    obtain ⟨obx', hx', heq', hcopy'⟩ := h'.kept x obx'' hx''
    obtain ⟨obx, hx, heq, hcopy⟩ := h.kept x obx' hx'
    refine ⟨obx, hx, ?_, ?_⟩
    · rw [heq', heq]
    · have hdead : ∀ c, g'.table c = none → g''.table c = none := by
        intro c hc
        cases hc'' : g''.table c with
        | none => rfl
        | some cob =>
          obtain ⟨cob', hcob', -⟩ := h'.kept c cob hc''
          rw [hc] at hcob'
          cases hcob'
      rcases hcopy' with hc' | ⟨hc', hgone'⟩
      · rw [hc']
        exact hcopy.imp_right (fun hc => ⟨hc.1, fun c heq => hdead c (hc.2 c heq)⟩)
      · refine .inr ⟨hc', ?_⟩
        intro c heq
        rcases hcopy with hc | ⟨-, hgone⟩
        · exact hgone' c (hc.trans heq)
        · exact hdead c (hgone c heq)
  · intro x obx hx hx'' s sh'' hs hs''
    obtain ⟨sh', hs', -, hcopy⟩ := h'.kept s sh'' hs''
    cases hx' : g'.table x with
    | none =>
      have hne := h.detached x obx hx hx' s sh' hs hs'
      rcases hcopy with hc | hc
      · rw [hc]
        exact hne
      · rw [hc.1]
        simp
    | some obx' =>
      obtain ⟨obx₁, hx₁, heq, -⟩ := h.kept x obx' hx'
      cases hx.symm.trans hx₁
      refine h'.detached x obx' hx' hx'' s sh'' ?_ hs''
      rw [heq]
      exact hs

theorem Released.chain (h : Released g g') {object : Option ℕ} (hl : g.Chain object l)
    (hstay : ∀ y ∈ l, ∃ oby', g'.table y = some oby') : g'.Chain object l := by
  apply hl.congr
  intro y hy
  obtain ⟨oby', hoby'⟩ := hstay y hy
  obtain ⟨oby, hoby, heq, -⟩ := h.kept y oby' hoby'
  exact ⟨oby', hoby', by rw [shadowOf_eq hoby, heq]⟩

/-- The shadows of the objects in `P` know of no other copy, and they are in `P` themselves
or have a reference that stays. -/
def Detachable (P : ℕ → Prop) (ext : ℕ → ℕ) (g : Objects D) : Prop :=
  ∀ x obx s sh, P x → g.table x = some obx → obx.shadow = some s → g.table s = some sh →
    (sh.copy = none ∨ sh.copy = some x) ∧ (P s ∨ 1 ≤ ext s)

theorem Detachable.released {P : ℕ → Prop} (h : Detachable P ext g) (hr : Released g g') :
    Detachable P ext g' := by
  intro x obx' s sh' hP hx' hs hs'
  obtain ⟨obx, hx, heq, -⟩ := hr.kept x obx' hx'
  obtain ⟨sh, hsh, -, hcopy⟩ := hr.kept s sh' hs'
  rw [heq] at hs
  obtain ⟨hc, hP'⟩ := h x obx s sh hP hx hs hsh
  refine ⟨?_, hP'⟩
  rcases hcopy with hcopy | hcopy
  · rw [hcopy]
    exact hc
  · exact .inl hcopy.1

theorem Ok.free (h : g.Ok ext) (ho : g.table o = some ob) (hext : ext o = 0)
    (hnone : g.shadowers o = 0) : (g.free o).Ok (addRef ext ob.shadow) := by
  have hlive : ∀ x obx, (g.free o).table x = some obx → x ≠ o ∧ g.table x = some obx := by
    intro x obx hx
    by_cases hxo : x = o
    · rw [hxo, free_self] at hx
      cases hx
    · exact ⟨hxo, (free_of_ne hxo).symm.trans hx⟩
  have hshadow : (g.free o).shadowOf = update g.shadowOf o none := by
    ext1 x
    by_cases hxo : x = o
    · rw [hxo, update_self, shadowOf, free_self, Option.bind_none]
    · rw [update_of_ne hxo, shadowOf, free_of_ne hxo, shadowOf]
  refine ⟨?_, ?_, ?_, ?_⟩
  · intro x obx hx
    exact h.bounded x obx (hlive x obx hx).2
  · intro x obx hx
    obtain ⟨hxo, hx⟩ := hlive x obx hx
    obtain ⟨l, hl⟩ := h.ends x obx hx
    have hmem := h.notMem_chain hnone hl (fun heq => hxo (Option.some.inj heq))
    refine ⟨l, hl.congr (fun y hy => ?_)⟩
    obtain ⟨oby, hoby⟩ := hl.live y hy
    have hne : y ≠ o := fun heq => hmem (heq ▸ hy)
    exact ⟨oby, (free_of_ne hne).trans hoby, shadowOf_eq hoby⟩
  · intro x obx hx
    obtain ⟨hxo, hx⟩ := hlive x obx hx
    have hrefs := h.refs x obx hx
    have hwrite := referrers_update (f := g.shadowOf) (a := x) none (h.bounded o ob ho)
    rw [shadowOf_eq ho] at hwrite
    simp only [reduceCtorEq, if_false] at hwrite
    change _ = _ + (referrers (g.free o).shadowOf g.next x : ℤ)
    rw [hshadow, addRef]
    change _ = _ + (referrers g.shadowOf g.next x : ℤ) at hrefs
    omega
  · intro x hpos
    obtain ⟨obx, hx⟩ : ∃ obx, g.table x = some obx := by
      rw [addRef] at hpos
      split at hpos
      · rename_i hs
        exact h.shadow_live ho hs
      · exact h.live x hpos
    refine ⟨obx, (free_of_ne ?_).trans hx⟩
    rintro rfl
    rw [addRef_of_ne (fun hs => h.ne_shadow ho hs rfl)] at hpos
    omega

theorem released_free (ho : g.table o = some ob)
    (hcopy : ∀ s sh, ob.shadow = some s → g.table s = some sh → sh.copy ≠ some o) :
    Released g (g.free o) := by
  have hlive : ∀ x obx, (g.free o).table x = some obx → g.table x = some obx := by
    intro x obx hx
    by_cases hxo : x = o
    · rw [hxo, free_self] at hx
      cases hx
    · exact (free_of_ne hxo).symm.trans hx
  refine ⟨rfl, fun x obx hx => ⟨obx, hlive x obx hx, rfl, .inl rfl⟩, ?_⟩
  intro x obx hx hx' s sh hs hsh
  by_cases hxo : x = o
  · subst hxo
    cases ho.symm.trans hx
    exact hcopy s sh hs (hlive s sh hsh)
  · rw [free_of_ne hxo, hx] at hx'
    cases hx'

theorem released_set {s : ℕ} {sh : VmObject D} (hsh : g.table s = some sh) (count : ℤ) :
    Released g (g.set s { sh with refCount := count }) := by
  refine ⟨rfl, ?_, ?_⟩
  · intro x obx hx
    by_cases hxs : x = s
    · subst hxs
      cases set_self.symm.trans hx
      exact ⟨sh, hsh, rfl, .inl rfl⟩
    · exact ⟨obx, (set_of_ne hxs).symm.trans hx, rfl, .inl rfl⟩
  · intro x obx hx hx'
    by_cases hxs : x = s
    · rw [hxs, set_self] at hx'
      cases hx'
    · rw [set_of_ne hxs, hx] at hx'
      cases hx'

theorem released_detach {s : ℕ} {sh : VmObject D} (hsh : g.table s = some sh)
    (hmine : sh.copy = some o) (ho : g.table o = some ob) (hs : ob.shadow = some s) :
    Released g ((g.set s { sh with copy := none }).free o) := by
  have hlive : ∀ x obx, ((g.set s { sh with copy := none }).free o).table x = some obx →
      x ≠ o ∧ (x = s ∧ obx = { sh with copy := none } ∨ g.table x = some obx) := by
    intro x obx hx
    by_cases hxo : x = o
    · rw [hxo, free_self] at hx
      cases hx
    · rw [free_of_ne hxo] at hx
      refine ⟨hxo, ?_⟩
      by_cases hxs : x = s
      · subst hxs
        exact .inl ⟨rfl, Option.some.inj (hx.symm.trans set_self)⟩
      · exact .inr ((set_of_ne hxs).symm.trans hx)
  refine ⟨rfl, ?_, ?_⟩
  · intro x obx hx
    rcases (hlive x obx hx).2 with ⟨rfl, rfl⟩ | hx
    · refine ⟨sh, hsh, rfl, .inr ⟨rfl, ?_⟩⟩
      intro c hc
      cases hmine.symm.trans hc
      exact free_self
    · exact ⟨obx, hx, rfl, .inl rfl⟩
  · intro x obx hx hx' t th ht hth
    by_cases hxo : x = o
    · subst hxo
      cases ho.symm.trans hx
      cases hs.symm.trans ht
      rcases (hlive s th hth).2 with ⟨-, rfl⟩ | hth'
      · simp
      · by_cases hso : s = x
        · exact absurd hso (hlive s th hth).1
        · rw [free_of_ne hso, set_self] at hth
          cases hth
          simp
    · rw [free_of_ne hxo] at hx'
      by_cases hxs : x = s
      · rw [hxs, set_self] at hx'
        cases hx'
      · rw [set_of_ne hxs, hx] at hx'
        cases hx'

theorem Ok.terminate (h : g.Ok ext) (ho : g.table o = some ob) (hext : ext o = 0)
    (hnone : g.shadowers o = 0)
    (hcopy : ∀ s sh, ob.shadow = some s → g.table s = some sh →
      sh.copy = none ∨ sh.copy = some o) :
    ∃ g', vmObjectTerminate g o = .ok g' ∧ g'.Ok (addRef ext ob.shadow) ∧ Released g g' ∧
      ∀ x ≠ o, ∀ obx, g.table x = some obx → ∃ obx', g'.table x = some obx' := by
  rw [vmObjectTerminate, get_eq ho]
  simp only [bind, Except.bind, pure, Except.pure]
  cases hs : ob.shadow with
  | none =>
    have hfree := h.free ho hext hnone
    rw [hs] at hfree
    refine ⟨g.free o, rfl, hfree, released_free ho (by simp [hs]), ?_⟩
    intro x hx obx hobx
    exact ⟨obx, (free_of_ne hx).trans hobx⟩
  | some s =>
    obtain ⟨sh, hsh⟩ := h.shadow_live ho hs
    have hne := h.ne_shadow ho hs
    simp only [get_eq hsh]
    by_cases hmine : sh.copy = some o
    · -- the shadow forgets its copy-object before this goes
      have hset : (g.set s { sh with copy := none }).Ok ext :=
        h.set hsh rfl rfl (fun _ _ => rfl)
      have ho' : (g.set s { sh with copy := none }).table o = some ob :=
        (set_of_ne hne.symm).trans ho
      have hnone' : (g.set s { sh with copy := none }).shadowers o = 0 := by
        have hold := h.refs o ob ho
        have hnew := hset.refs o ob ho'
        omega
      have hfree := hset.free ho' hext hnone'
      rw [hs] at hfree
      refine ⟨_, if_pos hmine, hfree, ?_, ?_⟩
      · exact released_detach hsh hmine ho hs
      · intro x hx obx hobx
        by_cases hxs : x = s
        · subst hxs
          exact ⟨_, (free_of_ne hx).trans set_self⟩
        · exact ⟨obx, (free_of_ne hx).trans ((set_of_ne hxs).trans hobx)⟩
    · have hfree := h.free ho hext hnone
      rw [hs] at hfree
      have hnull : sh.copy = none := (hcopy s sh hs hsh).resolve_right hmine
      refine ⟨g.free o, ?_, hfree, released_free ho ?_, ?_⟩
      · rw [hnull]
        rfl
      · intro t th ht hth
        cases hs.symm.trans ht
        cases hsh.symm.trans hth
        exact hmine
      · intro x hx obx hobx
        exact ⟨obx, (free_of_ne hx).trans hobx⟩

theorem deallocateLoop_spec {P : ℕ → Prop} {fuel : ℕ} {object : Option ℕ}
    (h : g.Ok (addRef ext object)) (hl : g.Chain object l) (hfuel : l.length ≤ fuel)
    (hP : ∀ o, object = some o → P o ∨ 1 ≤ ext o) (hdet : Detachable P ext g) :
    ∃ g', deallocateLoop fuel g object = .ok g' ∧ g'.Ok ext ∧ Released g g' := by
  induction fuel generalizing g object l with
  | zero =>
    cases hl with
    | nil =>
      rw [addRef_none] at h
      exact ⟨g, rfl, h, Released.refl g⟩
    | cons _ _ => simp at hfuel
  | succ fuel ih =>
    cases hl with
    | nil =>
      rw [addRef_none] at h
      exact ⟨g, rfl, h, Released.refl g⟩
    | @cons o ob l ho hl =>
      have hrefs := h.refs o ob ho
      rw [addRef_self] at hrefs
      have hset : (g.set o { ob with refCount := ob.refCount - 1 }).Ok ext := by
        refine h.set ho rfl ?_ (fun x hx => (addRef_of_ne ?_).symm)
        · rw [addRef_self]
          push_cast
          omega
        · exact fun heq => hx (Option.some.inj heq).symm
      have hrel : Released g (g.set o { ob with refCount := ob.refCount - 1 }) :=
        released_set ho _
      have hstay : ∀ x obx, g.table x = some obx →
          ∃ obx', (g.set o { ob with refCount := ob.refCount - 1 }).table x = some obx' := by
        intro x obx hx
        by_cases hxo : x = o
        · subst hxo
          exact ⟨_, set_self⟩
        · exact ⟨obx, (set_of_ne hxo).trans hx⟩
      rw [deallocateLoop, get_eq ho]
      simp only [bind, Except.bind, pure, Except.pure]
      split
      · exact ⟨_, rfl, hset, hrel⟩
      split
      · exact ⟨_, rfl, hset, hrel⟩
      rename_i hzero _
      rw [not_not] at hzero
      have hext : ext o = 0 := by omega
      have ho' : (g.set o { ob with refCount := ob.refCount - 1 }).table o =
        some { ob with refCount := ob.refCount - 1 } := set_self
      have hnone : (g.set o { ob with refCount := ob.refCount - 1 }).shadowers o = 0 := by
        have hnew := hset.refs o _ ho'
        simp only at hnew
        omega
      have hPo : P o := (hP o rfl).resolve_right (by omega)
      have hdet' := hdet.released hrel
      obtain ⟨g₁, hrun, hok₁, hrel₁, hstay₁⟩ := hset.terminate ho' hext hnone
        (fun s sh hs hsh => (hdet' o _ s sh hPo ho' hs hsh).1)
      have hl₁ : g₁.Chain ob.shadow l := by
        refine (hrel.trans hrel₁).chain hl (fun y hy => ?_)
        obtain ⟨oby, hoby⟩ := hl.live y hy
        obtain ⟨oby', hoby'⟩ := hstay y oby hoby
        refine hstay₁ y ?_ oby' hoby'
        rintro rfl
        exact (List.nodup_cons.mp (Chain.cons ho hl).nodup).1 hy
      have hP₁ : ∀ s, ob.shadow = some s → P s ∨ 1 ≤ ext s := by
        intro s hs
        obtain ⟨sh, hsh⟩ := hset.shadow_live ho' hs
        exact (hdet' o _ s sh hPo ho' hs hsh).2
      obtain ⟨g', hrun', hok', hrel'⟩ := ih hok₁ hl₁ (by simpa using hfuel) hP₁
        (hdet'.released hrel₁)
      refine ⟨g', ?_, hok', (hrel.trans hrel₁).trans hrel'⟩
      rw [hrun]
      exact hrun'

theorem Ok.deallocate {P : ℕ → Prop} {object : Option ℕ} (h : g.Ok (addRef ext object))
    (hP : ∀ o, object = some o → P o ∨ 1 ≤ ext o) (hdet : Detachable P ext g) :
    ∃ g', vmObjectDeallocate g object = .ok g' ∧ g'.Ok ext ∧ Released g g' := by
  obtain ⟨l, hl⟩ : ∃ l, g.Chain object l := by
    cases object with
    | none => exact ⟨[], .nil⟩
    | some o =>
      obtain ⟨ob, ho⟩ := h.live o (by rw [addRef_self]; omega)
      exact h.ends o ob ho
  exact deallocateLoop_spec h hl (h.chain_length hl) hP hdet

theorem Released.contents [Zero D] (hr : Released g g') (h : g.Ok ext) (h' : g'.Ok ext')
    (hx : g'.table x = some obx) (offset : ℕ) : g'.contents x offset = g.contents x offset := by
  obtain ⟨l, hl⟩ := h'.ends x obx hx
  have hl₀ : g.Chain (some x) l := by
    apply hl.congr
    intro y hy
    obtain ⟨oby', hoby'⟩ := hl.live y hy
    obtain ⟨oby, hoby, heq, -⟩ := hr.kept y oby' hoby'
    exact ⟨oby, hoby, by rw [shadowOf_eq hoby', heq]⟩
  rw [h'.contents_eq hl, h.contents_eq hl₀]
  apply visible_congr
  intro y hy
  obtain ⟨oby', hoby'⟩ := hl.live y hy
  obtain ⟨oby, hoby, heq, -⟩ := hr.kept y oby' hoby'
  constructor
  · intro offset
    rw [held_eq hoby', held_eq hoby, heq]
    rfl
  · rw [shadowOffsetOf_eq hoby', shadowOffsetOf_eq hoby, heq]

end Objects

theorem shadow_table (source : Option ℕ) (offset length : ℕ) (x : ℕ) :
    (vmObjectShadow g source offset length).2.table x = if x = g.next then
      some { vmObjectTemplate length with shadow := source, shadowOffset := offset }
    else g.table x := by
  split
  · rename_i hx
    rw [hx]
    exact Objects.set_self
  · rename_i hx
    exact (Objects.set_of_ne hx).trans (Objects.set_of_ne hx)

theorem Objects.Ok.shadow (h : g.Ok (addRef ext (some o))) (offset length : ℕ) :
    (vmObjectShadow g (some o) offset length).2.Ok (addRef ext (some g.next)) := by
  refine Objects.Ok.new ?_ ?_ ?_ (shadow_table (some o) offset length) rfl
  · exact h
  · rfl
  · intro s hs
    cases hs
    exact h.live o (by rw [addRef_self]; omega)

end Darwin.Vm
