import Darwin.Vm.Contents
import Mathlib.Logic.Relation

/-! # `vm_object_collapse` keeps what is visible

A turn of the loop either takes the backing object into its parent or lets the parent pass
by it. Both leave the chain of the parent one object shorter, and every search that stays
inside the parent finds what it found before.
-/
namespace Darwin.Vm
open Darwin.Lib Function

variable {D : Type} {g g' : Objects D} {ext : ℕ → ℕ} {object backing : ℕ} {ob back : VmObject D}
  {l : List ℕ}

/-! ## Pages of the parent -/

theorem absorb_eq (backingOffset : ℕ) (ob : VmObject D) (ps : List (Page D)) :
    ∃ memq, absorb backingOffset ob ps = { ob with memq := memq } := by
  induction ps generalizing ob with
  | nil => exact ⟨ob.memq, rfl⟩
  | cons p ps ih =>
    unfold absorb
    split
    · exact ih ob
    · split
      · exact ih ob
      · exact ih (ob.vmPageInsert _)

theorem absorb_size (backingOffset : ℕ) (ob : VmObject D) (ps : List (Page D)) :
    (absorb backingOffset ob ps).size = ob.size := by
  obtain ⟨memq, heq⟩ := absorb_eq backingOffset ob ps
  rw [heq]

theorem absorb_refCount (backingOffset : ℕ) (ob : VmObject D) (ps : List (Page D)) :
    (absorb backingOffset ob ps).refCount = ob.refCount := by
  obtain ⟨memq, heq⟩ := absorb_eq backingOffset ob ps
  rw [heq]

theorem vmPageLookup_insert (ob : VmObject D) (p : Page D) (offset : ℕ) :
    ((ob.vmPageInsert p).vmPageLookup offset).map Page.data =
      ((ob.vmPageLookup offset).map Page.data).or
        (if p.offset = offset then some p.data else none) := by
  simp only [VmObject.vmPageLookup, VmObject.vmPageInsert, List.find?_append]
  cases ob.memq.find? (fun p => p.offset == offset) with
  | some q => rfl
  | none =>
    by_cases hp : p.offset = offset
    · simp [hp]
    · simp [hp]

theorem absorb_lookup (backingOffset : ℕ) (ob : VmObject D) (ps : List (Page D)) {offset : ℕ}
    (hsize : offset < ob.size) :
    ((absorb backingOffset ob ps).vmPageLookup offset).map Page.data =
      ((ob.vmPageLookup offset).map Page.data).or
        ((ps.find? (fun p => p.offset == offset + backingOffset)).map Page.data) := by
  induction ps generalizing ob with
  | nil => rw [List.find?_nil, Option.map_none, Option.or_none, absorb]
  | cons p ps ih =>
    unfold absorb
    by_cases hp : p.offset = offset + backingOffset
    · rw [if_neg (by omega), List.find?_cons_of_pos (by simpa using hp)]
      have hnew : p.offset - backingOffset = offset := by omega
      rw [hnew]
      cases hown : ob.vmPageLookup offset with
      | some q =>
        rw [if_pos Option.isSome_some, ih ob hsize, hown]
        rfl
      | none =>
        have hins := vmPageLookup_insert ob ⟨offset, p.data⟩ offset
        rw [if_neg (by simp), ih _ (by exact hsize), hins, hown]
        simp
    · rw [List.find?_cons_of_neg (by simpa using hp)]
      split
      · exact ih ob hsize
      · split
        · exact ih ob hsize
        · have hins := vmPageLookup_insert ob ⟨p.offset - backingOffset, p.data⟩ offset
          rw [ih _ (by exact hsize), hins, if_neg (by simp only; omega), Option.or_none]

theorem collapsed_held (hpager : ob.pager = none) {offset : ℕ} (hsize : offset < ob.size)
    (hwrap : offset + ob.shadowOffset < 2 ^ 32) : (collapsed ob back).held offset =
      (ob.held offset).or (back.held (u32 (offset + ob.shadowOffset))) := by
  have hu : u32 (offset + ob.shadowOffset) = offset + ob.shadowOffset := u32_eq hwrap
  have hlook := absorb_lookup ob.shadowOffset ob back.memq hsize
  have hpage : (collapsed ob back).paged offset = back.paged (offset + ob.shadowOffset) := by
    unfold VmObject.paged collapsed
    have harith : u32 (offset + u32 (back.pagingOffset + ob.shadowOffset)) =
        u32 (offset + ob.shadowOffset + back.pagingOffset) := by
      simp only [u32]
      omega
    simp only [harith]
  have hown : ob.paged offset = none := by rw [VmObject.paged, hpager, Option.bind_none]
  rw [hu]
  unfold VmObject.held
  rw [hpage, hown, Option.or_none]
  change (Option.map Page.data ((absorb ob.shadowOffset ob back.memq).vmPageLookup offset)).or _ = _
  rw [hlook, Option.or_assoc]
  rfl

/-! ## One turn -/

/-- The parent has taken the backing object in. -/
def Objects.collapse (g : Objects D) (object backing : ℕ) (ob back : VmObject D) : Objects D :=
  (g.set object (collapsed ob back)).free backing

/-- The parent passes by the backing object. -/
def Objects.bypass (g : Objects D) (object backing : ℕ) (ob back : VmObject D) : Objects D :=
  { g with table := fun x => if x = object then some (bypassed ob back) else
      (g.table x).map (fun obx => { obx with refCount := obx.refCount +
        (if back.shadow = some x then 1 else 0) - (if x = backing then 1 else 0) }) }

/-- What one turn of the loop does. The backing object is internal and not the copy-object
of its shadow. -/
inductive Collapses (g : Objects D) (object : ℕ) : Objects D → Prop where
  | collapse {backing : ℕ} {ob back : VmObject D} (hob : g.table object = some ob)
      (hpager : ob.pager = none) (hsh : ob.shadow = some backing)
      (hback : g.table backing = some back) (hint : back.internal = true)
      (hguard : g.hasCopy back.shadow = .ok false) (hone : back.refCount = 1) :
      Collapses g object (g.collapse object backing ob back)
  | bypass {backing : ℕ} {ob back : VmObject D} (hob : g.table object = some ob)
      (hpager : ob.pager = none) (hsh : ob.shadow = some backing)
      (hback : g.table backing = some back) (hint : back.internal = true)
      (hguard : g.hasCopy back.shadow = .ok false) (hpaged : back.pager = none)
      (hhidden : ∀ p ∈ back.memq, stillNeeded ob p = false) :
      Collapses g object (g.bypass object backing ob back)

namespace Objects

theorem Ok.ne_shadow (h : g.Ok ext) (hob : g.table object = some ob)
    (hsh : ob.shadow = some backing) : backing ≠ object := by
  obtain ⟨l, hl, hl'⟩ := h.chain_self hob
  rw [hsh] at hl'
  cases hl' with
  | cons _ _ =>
    have hnd := hl.nodup
    rintro rfl
    simp at hnd

theorem Ok.ne_shadow_shadow (h : g.Ok ext) (hob : g.table object = some ob)
    (hsh : ob.shadow = some backing) (hback : g.table backing = some back) {s : ℕ}
    (hs : back.shadow = some s) : s ≠ object ∧ s ≠ backing := by
  refine ⟨?_, h.ne_shadow hback hs⟩
  obtain ⟨l, hl, hl'⟩ := h.chain_self hob
  have hnd := hl.nodup
  rw [hsh] at hl'
  cases hl' with
  | cons hb hr =>
    cases hback.symm.trans hb
    rw [hs] at hr
    cases hr with
    | cons _ _ =>
      rintro rfl
      simp at hnd

theorem Ok.hasCopy_ok (h : g.Ok ext) (hback : g.table backing = some back) :
    ∃ b, g.hasCopy back.shadow = .ok b := by
  cases hs : back.shadow with
  | none => exact ⟨false, rfl⟩
  | some s =>
    obtain ⟨sh, hsh⟩ := h.shadow_live hback hs
    exact ⟨sh.copy.isSome, by rw [hasCopy, get_eq hsh]; rfl⟩

end Objects

theorem hasCopy_set {s : Option ℕ} (h : ∀ x, s = some x → x ≠ object) :
    (g.set object ob).hasCopy s = g.hasCopy s := by
  cases s with
  | none => rfl
  | some x =>
    have hget : (g.set object ob).get x = g.get x := by
      rw [Objects.get, Objects.get, Objects.set_of_ne (h x rfl)]
    rw [Objects.hasCopy, Objects.hasCopy, hget]

theorem bypass_eq (h : g.Ok ext) (hob : g.table object = some ob)
    (hsh : ob.shadow = some backing) (hback : g.table backing = some back) :
    (do let g ← vmObjectReference (g.set object (bypassed ob back)) back.shadow
        let back ← g.get backing
        return some (g.set backing { back with refCount := back.refCount - 1 })) =
      (.ok (some (g.bypass object backing ob back)) : Except Stop (Option (Objects D))) := by
  have hne := h.ne_shadow hob hsh
  cases hs : back.shadow with
  | none =>
    have hget : (g.set object (bypassed ob back)).get backing = .ok back :=
      Objects.get_eq ((Objects.set_of_ne hne).trans hback)
    simp only [vmObjectReference, bind, Except.bind, hget, pure, Except.pure]
    congr 2
    unfold Objects.bypass Objects.set
    congr 1
    ext1 x
    by_cases hx : x = backing
    · subst hx
      simp [hne, hback, hs]
    · by_cases hxo : x = object
      · subst hxo
        simp [hx]
      · simp [hx, hxo, hs]
  | some s =>
    obtain ⟨hso, hsb⟩ := h.ne_shadow_shadow hob hsh hback hs
    obtain ⟨sh, hsht⟩ := h.shadow_live hback hs
    have hget : (g.set object (bypassed ob back)).get s = .ok sh :=
      Objects.get_eq ((Objects.set_of_ne hso).trans hsht)
    have hget' : ((g.set object (bypassed ob back)).set s
        { sh with refCount := sh.refCount + 1 }).get backing = .ok back := by
      apply Objects.get_eq
      rw [Objects.set_of_ne hsb.symm, Objects.set_of_ne hne, hback]
    simp only [vmObjectReference, bind, Except.bind, hget, hget', pure, Except.pure]
    congr 2
    unfold Objects.bypass Objects.set
    congr 1
    ext1 x
    by_cases hx : x = backing
    · subst hx
      simp [hne, hback, hs, hsb]
    · by_cases hxs : x = s
      · subst hxs
        simp [hx, hso, hs, hsht]
      · by_cases hxo : x = object
        · subst hxo
          simp [hx, hxs]
        · have hsx : some s ≠ some x := fun heq => hxs (Option.some.inj heq).symm
          simp [hx, hxo, hxs, hs, hsx]

theorem collapseStep_spec (h : g.Ok ext) (hob : g.table object = some ob) :
    collapseStep g object = .ok none ∨
      ∃ g', collapseStep g object = .ok (some g') ∧ Collapses g object g' := by
  have hget := Objects.get_eq hob
  unfold collapseStep
  simp only [hget, bind, Except.bind, pure, Except.pure]
  split
  · exact .inl rfl
  rename_i hidle
  rw [not_or, not_not, Bool.not_eq_true, Option.isSome_eq_false_iff, Option.isNone_iff_eq_none]
    at hidle
  cases hsh : ob.shadow with
  | none => exact .inl rfl
  | some backing =>
    obtain ⟨back, hback⟩ := h.shadow_live hob hsh
    obtain ⟨b, hcopy⟩ := h.hasCopy_ok hback
    have hkeep : (g.set object (collapsed ob back)).hasCopy back.shadow = .ok b := by
      rw [hasCopy_set (fun x hx => (h.ne_shadow_shadow hob hsh hback hx).1), hcopy]
    have hbypass := bypass_eq h hob hsh hback
    simp only [bind, Except.bind, pure, Except.pure] at hbypass
    simp only [Objects.get_eq hback, hcopy, hkeep]
    split
    · exact .inl rfl
    rename_i hint
    rw [not_or, Bool.not_eq_false] at hint
    split
    · exact .inl rfl
    rename_i hb
    rw [Bool.not_eq_true] at hb
    subst hb
    split
    · rename_i hone
      exact .inr ⟨_, rfl, .collapse hob hidle.2 hsh hback hint.1 hcopy hone⟩
    split
    · exact .inl rfl
    rename_i hpaged
    rw [Bool.not_eq_true, Option.isSome_eq_false_iff, Option.isNone_iff_eq_none] at hpaged
    split
    · exact .inl rfl
    rename_i hany
    refine .inr ⟨_, hbypass, .bypass hob hidle.2 hsh hback hint.1 hcopy hpaged ?_⟩
    simpa using hany

/-! ## What a turn keeps -/

/-- Searches that stay inside the first `size` bytes of `object` find the same in both
graphs. -/
structure Keeps [Zero D] (object size : ℕ) (g g' : Objects D) : Prop where
  next : g'.next = g.next
  survives : ∀ x obx, g'.table x = some obx → ∃ obx', g.table x = some obx'
  chain : ∀ x l, g.Chain (some x) l → (∃ obx, g'.table x = some obx) →
    ∃ l', g'.Chain (some x) l' ∧ ∀ offset, g.Within object size l offset →
      g'.Within object size l' offset ∧ g'.visible l' offset = g.visible l offset

theorem Keeps.refl [Zero D] (object size : ℕ) (g : Objects D) : Keeps object size g g :=
  ⟨rfl, fun _ obx hx => ⟨obx, hx⟩, fun _ l hl _ => ⟨l, hl, fun _ hw => ⟨hw, rfl⟩⟩⟩

theorem Keeps.trans [Zero D] {size : ℕ} {g'' : Objects D} (h : Keeps object size g g')
    (h' : Keeps object size g' g'') : Keeps object size g g'' := by
  refine ⟨h'.next.trans h.next, ?_, ?_⟩
  · intro x obx hx
    obtain ⟨obx', hx'⟩ := h'.survives x obx hx
    exact h.survives x obx' hx'
  · intro x l hl hx
    obtain ⟨obx, hobx⟩ := hx
    obtain ⟨l', hl', hsame⟩ := h.chain x l hl (h'.survives x obx hobx)
    obtain ⟨l'', hl'', hsame'⟩ := h'.chain x l' hl' ⟨obx, hobx⟩
    refine ⟨l'', hl'', fun offset hw => ?_⟩
    obtain ⟨hw', hv⟩ := hsame offset hw
    obtain ⟨hw'', hv'⟩ := hsame' offset hw'
    exact ⟨hw'', hv'.trans hv⟩

theorem chain_below (h : g.Ok ext) (hob : g.table object = some ob)
    (hsh : ob.shadow = some backing) (hback : g.table backing = some back) :
    ∃ rest, g.Chain back.shadow rest ∧ g.Chain (some object) (object :: backing :: rest) ∧
      object ∉ rest ∧ backing ∉ rest := by
  obtain ⟨l, hl, hl'⟩ := h.chain_self hob
  rw [hsh] at hl'
  cases hl' with
  | cons hb hr =>
    cases hback.symm.trans hb
    have hnd := hl.nodup
    simp only [List.nodup_cons, List.mem_cons, not_or] at hnd
    exact ⟨_, hr, hl, hnd.1.2, hnd.2.1⟩

theorem visible_cons [Zero D] (hob : g.table object = some ob) (rest : List ℕ) (offset : ℕ) :
    g.visible (object :: rest) offset =
      (ob.held offset).getD (g.visible rest (u32 (offset + ob.shadowOffset))) := by
  rw [Objects.visible, Objects.held_eq hob, Objects.shadowOffsetOf_eq hob]
  cases ob.held offset <;> rfl

theorem visible_through [Zero D] (hob : g.table object = some ob)
    (hback : g.table backing = some back) (rest : List ℕ) (offset : ℕ) :
    g.visible (object :: backing :: rest) offset =
      ((ob.held offset).or (back.held (u32 (offset + ob.shadowOffset)))).getD
        (g.visible rest (u32 (offset + u32 (ob.shadowOffset + back.shadowOffset)))) := by
  have harith : u32 (u32 (offset + ob.shadowOffset) + back.shadowOffset) =
      u32 (offset + u32 (ob.shadowOffset + back.shadowOffset)) := by
    simp only [u32]
    omega
  rw [visible_cons hob, visible_cons hback, harith]
  cases ob.held offset <;> rfl

/-! ### The parent takes the backing object in -/

theorem collapse_sole (h : g.Ok ext) (hob : g.table object = some ob)
    (hsh : ob.shadow = some backing) (hback : g.table backing = some back)
    (hone : back.refCount = 1) {x : ℕ} {obx : VmObject D} (hx : g.table x = some obx)
    (hxs : obx.shadow = some backing) : x = object := by
  have hrefs := h.refs backing back hback
  have hsole : g.shadowers backing ≤ 1 := by omega
  exact referrers_unique hsole (h.bounded x obx hx) (h.bounded object ob hob)
    ((Objects.shadowOf_eq hx).trans hxs) ((Objects.shadowOf_eq hob).trans hsh)

theorem collapse_object (hne : backing ≠ object) :
    (g.collapse object backing ob back).table object = some (collapsed ob back) := by
  rw [Objects.collapse, Objects.free_of_ne hne.symm, Objects.set_self]

theorem collapse_of_ne {x : ℕ} (hx : x ≠ object) (hx' : x ≠ backing) :
    (g.collapse object backing ob back).table x = g.table x := by
  rw [Objects.collapse, Objects.free_of_ne hx', Objects.set_of_ne hx]

theorem collapse_chain [Zero D] (h : g.Ok ext) (hob : g.table object = some ob)
    (hpager : ob.pager = none) (hsh : ob.shadow = some backing)
    (hback : g.table backing = some back) (hone : back.refCount = 1)
    {size : ℕ} (hwrap : ∀ offset < size, offset < ob.size ∧ offset + ob.shadowOffset < 2 ^ 32)
    {o : Option ℕ} (hl : g.Chain o l) :
    o ≠ some backing → ∃ l', (g.collapse object backing ob back).Chain o l' ∧
      ∀ offset, g.Within object size l offset →
        (g.collapse object backing ob back).Within object size l' offset ∧
          (g.collapse object backing ob back).visible l' offset = g.visible l offset := by
  have hobject : (g.collapse object backing ob back).table object = some (collapsed ob back) :=
    collapse_object (h.ne_shadow hob hsh)
  obtain ⟨rest, hrest, hall, hobr, hbr⟩ := chain_below h hob hsh hback
  have hsame : ∀ x ∈ rest, (g.collapse object backing ob back).table x = g.table x := by
    intro x hx
    exact collapse_of_ne (fun heq => hobr (heq ▸ hx)) (fun heq => hbr (heq ▸ hx))
  -- the induction is on the chain from above; below the parent nothing has changed
  induction hl with
  | nil =>
    intro _
    exact ⟨[], .nil, fun _ _ => ⟨trivial, rfl⟩⟩
  | @cons x obx l hx hl ih =>
    intro hxb
    by_cases hxo : x = object
    · subst hxo
      cases (Objects.Chain.cons hx hl).unique hall
      have hrest' : (g.collapse x backing ob back).Chain back.shadow rest := by
        apply hrest.congr
        intro y hy
        obtain ⟨oby, hoby⟩ := hrest.live y hy
        exact ⟨oby, (hsame y hy).trans hoby, Objects.shadowOf_eq hoby⟩
      have hvis : ∀ offset, (g.collapse x backing ob back).visible rest offset =
          g.visible rest offset := by
        apply Objects.visible_congr
        intro y hy
        simp only [Objects.held, Objects.shadowOffsetOf, hsame y hy, implies_true, and_self]
      refine ⟨x :: rest, .cons hobject hrest', fun offset hw => ?_⟩
      have hsize := hw.1 rfl
      refine ⟨⟨fun _ => hsize, fun _ => Objects.within_of_notMem hobr _⟩, ?_⟩
      rw [visible_cons hobject, visible_through hob hback, hvis,
        collapsed_held hpager (hwrap offset hsize).1 (hwrap offset hsize).2]
      rfl
    · have hxne : x ≠ backing := fun heq => hxb (congrArg some heq)
      have hxs : obx.shadow ≠ some backing :=
        fun heq => hxo (collapse_sole h hob hsh hback hone hx heq)
      have hx' : (g.collapse object backing ob back).table x = some obx :=
        (collapse_of_ne hxo hxne).trans hx
      obtain ⟨l', hl', hkeep⟩ := ih hxs
      refine ⟨x :: l', .cons hx' hl', fun offset hw => ?_⟩
      rw [visible_cons hx', visible_cons hx]
      have hrec := hw.2
      rw [Objects.held_eq hx, Objects.shadowOffsetOf_eq hx] at hrec
      constructor
      · refine ⟨fun heq => absurd heq hxo, ?_⟩
        rw [Objects.held_eq hx', Objects.shadowOffsetOf_eq hx']
        exact fun hn => (hkeep _ (hrec hn)).1
      · cases hheld : obx.held offset with
        | some d => rfl
        | none => exact (hkeep _ (hrec hheld)).2

theorem keeps_collapse [Zero D] (h : g.Ok ext) (hob : g.table object = some ob)
    (hpager : ob.pager = none) (hsh : ob.shadow = some backing)
    (hback : g.table backing = some back) (hone : back.refCount = 1)
    {size : ℕ} (hwrap : ∀ offset < size, offset < ob.size ∧ offset + ob.shadowOffset < 2 ^ 32) :
    Keeps object size g (g.collapse object backing ob back) := by
  refine ⟨rfl, ?_, ?_⟩
  · intro x obx hx
    by_cases hxo : x = object
    · exact ⟨ob, hxo ▸ hob⟩
    by_cases hxb : x = backing
    · exact ⟨back, hxb ▸ hback⟩
    exact ⟨obx, (collapse_of_ne hxo hxb).symm.trans hx⟩
  · rintro x l hl ⟨obx, hx⟩
    apply collapse_chain h hob hpager hsh hback hone hwrap hl
    intro heq
    cases heq
    rw [Objects.collapse, Objects.free_self] at hx
    cases hx

theorem Objects.Ok.collapse [Zero D] (h : g.Ok ext) (hob : g.table object = some ob)
    (hpager : ob.pager = none) (hsh : ob.shadow = some backing)
    (hback : g.table backing = some back) (hone : back.refCount = 1) :
    (g.collapse object backing ob back).Ok ext := by
  have hne := h.ne_shadow hob hsh
  -- the shadows as two writes: the parent gets the shadow that the backing object loses
  have hshadow : (g.collapse object backing ob back).shadowOf =
      update (update g.shadowOf object back.shadow) backing none := by
    ext1 x
    by_cases hxb : x = backing
    · subst hxb
      rw [update_self, Objects.shadowOf, Objects.collapse, Objects.free_self,
        Option.bind_none]
    · rw [update_of_ne hxb]
      by_cases hxo : x = object
      · subst hxo
        rw [update_self, Objects.shadowOf_eq (collapse_object hne)]
        rfl
      · rw [update_of_ne hxo, Objects.shadowOf, collapse_of_ne hxo hxb, Objects.shadowOf]
  have hcount : ∀ x ≠ backing, (g.collapse object backing ob back).shadowers x =
      g.shadowers x := by
    intro x hx
    have hob' : object < g.next := h.bounded object ob hob
    have hback' : backing < g.next := h.bounded backing back hback
    have hfirst := referrers_update (f := g.shadowOf) (a := x) back.shadow hob'
    have hsecond := referrers_update (f := update g.shadowOf object back.shadow) (a := x)
      none hback'
    rw [Objects.shadowOf_eq hob, hsh, if_neg (fun heq => hx (Option.some.inj heq).symm)] at hfirst
    rw [update_of_ne hne, Objects.shadowOf_eq hback] at hsecond
    simp only [reduceCtorEq, if_false] at hsecond
    change referrers (g.collapse object backing ob back).shadowOf g.next x = _
    rw [hshadow, Objects.shadowers]
    omega
  have hkeep := keeps_collapse h hob hpager hsh hback hone
    (fun offset hoff => absurd hoff (Nat.not_lt_zero offset))
  refine ⟨?_, ?_, ?_, ?_⟩
  · intro x obx hx
    obtain ⟨obx', hx'⟩ := hkeep.survives x obx hx
    exact h.bounded x obx' hx'
  · intro x obx hx
    obtain ⟨obx', hx'⟩ := hkeep.survives x obx hx
    obtain ⟨l, hl⟩ := h.ends x obx' hx'
    obtain ⟨l', hl', -⟩ := hkeep.chain x l hl ⟨obx, hx⟩
    exact ⟨l', hl'⟩
  · intro x obx hx
    have hxb : x ≠ backing := by
      rintro rfl
      rw [Objects.collapse, Objects.free_self] at hx
      cases hx
    rw [hcount x hxb]
    by_cases hxo : x = object
    · subst hxo
      cases (collapse_object hne).symm.trans hx
      exact (absorb_refCount _ _ _).trans (h.refs x ob hob)
    · exact h.refs x obx ((collapse_of_ne hxo hxb).symm.trans hx)
  · intro x hpos
    have hxb : x ≠ backing := by
      rintro rfl
      have hrefs := h.refs x back hback
      have hsole : 0 < g.shadowers x :=
        referrers_pos (h.bounded object ob hob) ((Objects.shadowOf_eq hob).trans hsh)
      omega
    by_cases hxo : x = object
    · subst hxo
      exact ⟨_, collapse_object hne⟩
    · obtain ⟨obx, hx⟩ := h.live x hpos
      exact ⟨obx, (collapse_of_ne hxo hxb).trans hx⟩

/-! ### The parent passes by the backing object -/

theorem bypass_object : (g.bypass object backing ob back).table object =
    some (bypassed ob back) := if_pos rfl

theorem bypass_of_ne {x : ℕ} {obx : VmObject D} (hxo : x ≠ object) (hx : g.table x = some obx) :
    (g.bypass object backing ob back).table x = some { obx with refCount := obx.refCount +
      (if back.shadow = some x then 1 else 0) - (if x = backing then 1 else 0) } := by
  rw [Objects.bypass]
  simp only [if_neg hxo, hx, Option.map_some]

theorem hidden_held (hpaged : back.pager = none)
    (hhidden : ∀ p ∈ back.memq, stillNeeded ob p = false) {offset : ℕ} (hsize : offset < ob.size)
    (hwrap : offset + ob.shadowOffset < 2 ^ 32) (hnone : ob.held offset = none) :
    back.held (u32 (offset + ob.shadowOffset)) = none := by
  rw [VmObject.held, Option.or_eq_none_iff, Option.map_eq_none_iff] at hnone
  rw [u32_eq hwrap, VmObject.held, VmObject.paged, hpaged, Option.bind_none, Option.or_none,
    Option.map_eq_none_iff]
  cases hfind : back.vmPageLookup (offset + ob.shadowOffset) with
  | none => rfl
  | some p =>
    have hmem := List.mem_of_find?_eq_some hfind
    have hoff : p.offset = offset + ob.shadowOffset := by
      simpa using List.find?_some hfind
    have hp := hhidden p hmem
    have hback : p.offset - ob.shadowOffset = offset := by omega
    simp only [stillNeeded, hback, hnone.1, decide_eq_false_iff_not] at hp
    exact absurd ⟨by omega, by omega, rfl⟩ hp

theorem bypass_chain [Zero D] (h : g.Ok ext) (hob : g.table object = some ob)
    (hsh : ob.shadow = some backing) (hback : g.table backing = some back)
    (hpaged : back.pager = none) (hhidden : ∀ p ∈ back.memq, stillNeeded ob p = false)
    {size : ℕ} (hwrap : ∀ offset < size, offset < ob.size ∧ offset + ob.shadowOffset < 2 ^ 32)
    {o : Option ℕ} (hl : g.Chain o l) :
    ∃ l', (g.bypass object backing ob back).Chain o l' ∧
      ∀ offset, g.Within object size l offset →
        (g.bypass object backing ob back).Within object size l' offset ∧
          (g.bypass object backing ob back).visible l' offset = g.visible l offset := by
  obtain ⟨rest, hrest, hall, hobr, -⟩ := chain_below h hob hsh hback
  induction hl with
  | nil => exact ⟨[], .nil, fun _ _ => ⟨trivial, rfl⟩⟩
  | @cons x obx l hx hl ih =>
    by_cases hxo : x = object
    · subst hxo
      cases (Objects.Chain.cons hx hl).unique hall
      have hrest' : (g.bypass x backing ob back).Chain back.shadow rest := by
        apply hrest.congr
        intro y hy
        obtain ⟨oby, hoby⟩ := hrest.live y hy
        exact ⟨_, bypass_of_ne (fun heq => hobr (heq ▸ hy)) hoby,
          (Objects.shadowOf_eq hoby).trans rfl⟩
      have hvis : ∀ offset, (g.bypass x backing ob back).visible rest offset =
          g.visible rest offset := by
        apply Objects.visible_congr
        intro y hy
        obtain ⟨oby, hoby⟩ := hrest.live y hy
        have hoby' : (g.bypass x backing ob back).table y = _ :=
          bypass_of_ne (fun heq => hobr (heq ▸ hy)) hoby
        constructor
        · intro offset
          rw [Objects.held_eq hoby', Objects.held_eq hoby]
          rfl
        · rw [Objects.shadowOffsetOf_eq hoby', Objects.shadowOffsetOf_eq hoby]
      refine ⟨x :: rest, .cons bypass_object hrest', fun offset hw => ?_⟩
      have hsize := hw.1 rfl
      refine ⟨⟨fun _ => hsize, fun _ => Objects.within_of_notMem hobr _⟩, ?_⟩
      rw [visible_cons bypass_object, visible_through hob hback, hvis]
      change (ob.held offset).getD _ = _
      cases hheld : ob.held offset with
      | some d => rfl
      | none =>
        rw [hidden_held hpaged hhidden (hwrap offset hsize).1 (hwrap offset hsize).2 hheld]
        rfl
    · have hx' : (g.bypass object backing ob back).table x = _ := bypass_of_ne hxo hx
      obtain ⟨l', hl', hkeep⟩ := ih
      refine ⟨x :: l', .cons hx' hl', fun offset hw => ?_⟩
      have hrec := hw.2
      rw [Objects.held_eq hx, Objects.shadowOffsetOf_eq hx] at hrec
      rw [visible_cons hx', visible_cons hx]
      constructor
      · refine ⟨fun heq => absurd heq hxo, ?_⟩
        rw [Objects.held_eq hx', Objects.shadowOffsetOf_eq hx']
        exact fun hn => (hkeep _ (hrec hn)).1
      · change (obx.held offset).getD _ = _
        cases hheld : obx.held offset with
        | some d => rfl
        | none => exact (hkeep _ (hrec hheld)).2

theorem keeps_bypass [Zero D] (h : g.Ok ext) (hob : g.table object = some ob)
    (hsh : ob.shadow = some backing) (hback : g.table backing = some back)
    (hpaged : back.pager = none) (hhidden : ∀ p ∈ back.memq, stillNeeded ob p = false)
    {size : ℕ} (hwrap : ∀ offset < size, offset < ob.size ∧ offset + ob.shadowOffset < 2 ^ 32) :
    Keeps object size g (g.bypass object backing ob back) := by
  refine ⟨rfl, ?_, fun x l hl _ => bypass_chain h hob hsh hback hpaged hhidden hwrap hl⟩
  intro x obx hx
  by_cases hxo : x = object
  · exact ⟨ob, hxo ▸ hob⟩
  · simp only [Objects.bypass, if_neg hxo, Option.map_eq_some_iff] at hx
    obtain ⟨obx', hx', -⟩ := hx
    exact ⟨obx', hx'⟩

theorem Objects.Ok.bypass [Zero D] (h : g.Ok ext) (hob : g.table object = some ob)
    (hsh : ob.shadow = some backing) (hback : g.table backing = some back)
    (hpaged : back.pager = none) (hhidden : ∀ p ∈ back.memq, stillNeeded ob p = false) :
    (g.bypass object backing ob back).Ok ext := by
  have hne := h.ne_shadow hob hsh
  have hkeep := keeps_bypass h hob hsh hback hpaged hhidden
    (fun offset hoff => absurd hoff (Nat.not_lt_zero offset))
  have hshadow : (g.bypass object backing ob back).shadowOf =
      update g.shadowOf object back.shadow := by
    ext1 x
    by_cases hxo : x = object
    · subst hxo
      rw [update_self, Objects.shadowOf_eq bypass_object]
      rfl
    · rw [update_of_ne hxo]
      cases hx : g.table x with
      | none => simp only [Objects.shadowOf, Objects.bypass, if_neg hxo, hx, Option.map_none]
      | some obx => rw [Objects.shadowOf_eq (bypass_of_ne hxo hx), Objects.shadowOf_eq hx]
  have hcount : ∀ x, (g.bypass object backing ob back).shadowers x +
      (if backing = x then 1 else 0) = g.shadowers x + (if back.shadow = some x then 1 else 0) := by
    intro x
    have hwrite := referrers_update (f := g.shadowOf) (a := x) back.shadow
      (h.bounded object ob hob)
    rw [Objects.shadowOf_eq hob, hsh] at hwrite
    simp only [Option.some.injEq] at hwrite
    change referrers (g.bypass object backing ob back).shadowOf g.next x + _ = _
    rw [hshadow, hwrite]
    rfl
  refine ⟨?_, ?_, ?_, ?_⟩
  · intro x obx hx
    obtain ⟨obx', hx'⟩ := hkeep.survives x obx hx
    exact h.bounded x obx' hx'
  · intro x obx hx
    obtain ⟨obx', hx'⟩ := hkeep.survives x obx hx
    obtain ⟨l, hl⟩ := h.ends x obx' hx'
    obtain ⟨l', hl', -⟩ := hkeep.chain x l hl ⟨obx, hx⟩
    exact ⟨l', hl'⟩
  · intro x obx hx
    have hx1 := hcount x
    by_cases hxo : x = object
    · subst hxo
      cases bypass_object.symm.trans hx
      have hrefs := h.refs x ob hob
      rw [if_neg hne, if_neg (fun hs => (h.ne_shadow_shadow hob hsh hback hs).1 rfl)] at hx1
      change ob.refCount = _
      omega
    · obtain ⟨obx', hx'⟩ := hkeep.survives x obx hx
      have hrefs := h.refs x obx' hx'
      cases (bypass_of_ne hxo hx').symm.trans hx
      simp only [eq_comm (a := x)]
      split_ifs at hx1 ⊢ <;> omega
  · intro x hpos
    by_cases hxo : x = object
    · subst hxo
      exact ⟨_, bypass_object⟩
    · obtain ⟨obx, hx⟩ := h.live x hpos
      exact ⟨_, bypass_of_ne hxo hx⟩

/-! ## The whole call -/

/-- No offset below `size` wraps on the way down the chain. -/
def Objects.Fits (g : Objects D) (size : ℕ) (l : List ℕ) : Prop :=
  size = 0 ∨ g.Unwrapped size l 0

/-- The graph after a turn of the loop. -/
structure Turn [Zero D] (g g' : Objects D) (ext : ℕ → ℕ) (object size : ℕ) (ob : VmObject D)
    (l : List ℕ) : Prop where
  ok : g'.Ok ext
  keeps : Keeps object size g g'
  parent : ∃ ob', g'.table object = some ob' ∧ ob'.size = ob.size
  shorter : ∃ l', g'.Chain (some object) l' ∧ l'.length < l.length ∧ g'.Fits size l'

theorem fits_window {size : ℕ} {rest : List ℕ} (hob : g.table object = some ob)
    (hsize : size ≤ ob.size) (hfits : g.Fits size (object :: backing :: rest)) :
    ∀ offset < size, offset < ob.size ∧ offset + ob.shadowOffset < 2 ^ 32 := by
  intro offset hoff
  rcases hfits with hzero | hun
  · omega
  · have hwin := hun.2.1
    rw [Objects.shadowOffsetOf_eq hob] at hwin
    omega

theorem fits_shorter {size : ℕ} {rest : List ℕ} {ob' : VmObject D}
    (hob : g.table object = some ob) (hback : g.table backing = some back)
    (hob' : g'.table object = some ob')
    (hoff : ob'.shadowOffset = u32 (ob.shadowOffset + back.shadowOffset))
    (hsame : ∀ x ∈ rest, g'.shadowOffsetOf x = g.shadowOffsetOf x)
    (hfits : g.Fits size (object :: backing :: rest)) : g'.Fits size (object :: rest) := by
  rcases hfits with hzero | hun
  · exact .inl hzero
  · have hrest := hun.2.2
    rw [Objects.shadowOffsetOf_eq hob, Objects.shadowOffsetOf_eq hback] at hrest
    refine .inr ⟨hun.1, Objects.unwrapped_congr hsame (hrest.mono ?_)⟩
    rw [Objects.shadowOffsetOf_eq hob', hoff]
    have hle : u32 (ob.shadowOffset + back.shadowOffset) ≤ ob.shadowOffset + back.shadowOffset :=
      Nat.mod_le _ _
    omega

theorem Collapses.turn [Zero D] (h : g.Ok ext) (hc : Collapses g object g')
    (hob : g.table object = some ob) {size : ℕ} (hsize : size ≤ ob.size)
    (hl : g.Chain (some object) l) (hfits : g.Fits size l) :
    Turn g g' ext object size ob l := by
  cases hc with
  | @collapse backing ob₁ back hob₁ hpager hsh hback _ _ hone =>
    cases hob.symm.trans hob₁
    obtain ⟨rest, hrest, hall, hobr, hbr⟩ := chain_below h hob hsh hback
    cases hl.unique hall
    have hparent : (g.collapse object backing ob back).table object = some (collapsed ob back) :=
      collapse_object (h.ne_shadow hob hsh)
    have hsame : ∀ x ∈ rest, (g.collapse object backing ob back).table x = g.table x :=
      fun x hx => collapse_of_ne (fun heq => hobr (heq ▸ hx)) (fun heq => hbr (heq ▸ hx))
    refine ⟨h.collapse hob hpager hsh hback hone,
      keeps_collapse h hob hpager hsh hback hone (fits_window hob hsize hfits),
      ⟨_, hparent, absorb_size _ _ _⟩, object :: rest, .cons hparent ?_, ?_, ?_⟩
    · apply hrest.congr
      intro y hy
      obtain ⟨oby, hoby⟩ := hrest.live y hy
      exact ⟨oby, (hsame y hy).trans hoby, Objects.shadowOf_eq hoby⟩
    · simp
    · apply fits_shorter hob hback hparent rfl ?_ hfits
      intro y hy
      rw [Objects.shadowOffsetOf, hsame y hy, Objects.shadowOffsetOf]
  | @bypass backing ob₁ back hob₁ _ hsh hback _ _ hpaged hhidden =>
    cases hob.symm.trans hob₁
    obtain ⟨rest, hrest, hall, hobr, -⟩ := chain_below h hob hsh hback
    cases hl.unique hall
    have hparent : (g.bypass object backing ob back).table object = some (bypassed ob back) :=
      bypass_object
    refine ⟨h.bypass hob hsh hback hpaged hhidden,
      keeps_bypass h hob hsh hback hpaged hhidden (fits_window hob hsize hfits),
      ⟨_, hparent, rfl⟩, object :: rest, .cons hparent ?_, ?_, ?_⟩
    · apply hrest.congr
      intro y hy
      obtain ⟨oby, hoby⟩ := hrest.live y hy
      exact ⟨_, bypass_of_ne (fun heq => hobr (heq ▸ hy)) hoby,
        (Objects.shadowOf_eq hoby).trans rfl⟩
    · simp
    · apply fits_shorter hob hback hparent rfl ?_ hfits
      intro y hy
      obtain ⟨oby, hoby⟩ := hrest.live y hy
      have hne : y ≠ object := fun heq => hobr (heq ▸ hy)
      rw [Objects.shadowOffsetOf_eq (bypass_of_ne hne hoby), Objects.shadowOffsetOf_eq hoby]

theorem Collapses.size (hc : Collapses g object g') {x : ℕ} {obx' : VmObject D}
    (hx' : g'.table x = some obx') : ∃ obx, g.table x = some obx ∧ obx'.size = obx.size := by
  cases hc with
  | @collapse backing ob back hob _ _ hback _ _ _ =>
    by_cases hxb : x = backing
    · rw [hxb, Objects.collapse, Objects.free_self] at hx'
      cases hx'
    by_cases hxo : x = object
    · subst hxo
      cases (collapse_object (fun heq => hxb heq.symm)).symm.trans hx'
      exact ⟨ob, hob, absorb_size _ _ _⟩
    · exact ⟨obx', (collapse_of_ne hxo hxb).symm.trans hx', rfl⟩
  | @bypass backing ob back hob _ _ _ _ _ _ _ =>
    by_cases hxo : x = object
    · subst hxo
      cases bypass_object.symm.trans hx'
      exact ⟨ob, hob, rfl⟩
    · simp only [Objects.bypass, if_neg hxo, Option.map_eq_some_iff] at hx'
      obtain ⟨obx, hx, rfl⟩ := hx'
      exact ⟨obx, hx, rfl⟩

theorem collapse_paged (hob : g.table object = some ob) (hpager : ob.pager.isSome) :
    vmObjectCollapse g (some object) = .ok g := by
  rw [vmObjectCollapse, collapseLoop, collapseStep, Objects.get_eq hob]
  simp only [bind, Except.bind, pure, Except.pure, hpager, or_true, if_true]

/-- The graphs that the loop goes through. -/
def CollapseSteps (object : ℕ) : Objects D → Objects D → Prop :=
  Relation.ReflTransGen (fun g g' => collapseStep g object = .ok (some g'))

theorem Collapses.destroyed (hc : Collapses g object g') {x : ℕ} {obx : VmObject D}
    (hx : g.table x = some obx) (hx' : g'.table x = none) :
    ∃ ob, g.table object = some ob ∧ ob.shadow = some x ∧ obx.refCount = 1 := by
  cases hc with
  | @collapse backing ob back hob _ hsh hback _ _ hone =>
    by_cases hxb : x = backing
    · subst hxb
      cases hback.symm.trans hx
      exact ⟨ob, hob, hsh, hone⟩
    · by_cases hxo : x = object
      · subst hxo
        rw [collapse_object (fun heq => hxb heq.symm)] at hx'
        cases hx'
      · rw [collapse_of_ne hxo hxb, hx] at hx'
        cases hx'
  | @bypass backing ob back hob _ _ _ _ _ _ _ =>
    by_cases hxo : x = object
    · subst hxo
      rw [bypass_object] at hx'
      cases hx'
    · rw [bypass_of_ne hxo hx] at hx'
      cases hx'

theorem collapseLoop_spec [Zero D] {size fuel : ℕ} (h : g.Ok ext) (hob : g.table object = some ob)
    (hsize : size ≤ ob.size) (hl : g.Chain (some object) l) (hfits : g.Fits size l)
    (hfuel : l.length ≤ fuel) :
    ∃ g', collapseLoop fuel g object = .ok g' ∧ g'.Ok ext ∧ Keeps object size g g' ∧
      (∃ ob', g'.table object = some ob') ∧
      ∀ x obx, g.table x = some obx → g'.table x = none → ∃ u obu xu, CollapseSteps object g u ∧
        u.table object = some obu ∧ obu.shadow = some x ∧ u.table x = some xu ∧
          xu.refCount = 1 := by
  -- each turn takes one object from the chain
  induction fuel generalizing g ob l with
  | zero =>
    cases hl
    simp at hfuel
  | succ fuel ih =>
    rcases collapseStep_spec h hob with hstep | ⟨g₁, hstep, hc⟩
    · refine ⟨g, by rw [collapseLoop, hstep]; rfl, h, Keeps.refl _ _ g, ⟨ob, hob⟩, ?_⟩
      intro x obx hx hx'
      rw [hx] at hx'
      cases hx'
    · obtain ⟨hok, hkeeps, ⟨ob₁, hob₁, hsize₁⟩, l₁, hl₁, hlen, hfits₁⟩ :=
        hc.turn h hob hsize hl hfits
      obtain ⟨g', hloop, hok', hkeeps', hlive, hdead⟩ :=
        ih hok hob₁ (hsize.trans hsize₁.ge) hl₁ hfits₁ (by omega)
      refine ⟨g', by rw [collapseLoop, hstep]; exact hloop, hok', hkeeps.trans hkeeps', hlive, ?_⟩
      intro x obx hx hx'
      cases hx₁ : g₁.table x with
      | none =>
        obtain ⟨ob₂, hob₂, hsh, hone⟩ := hc.destroyed hx hx₁
        exact ⟨g, ob₂, obx, .refl, hob₂, hsh, hx, hone⟩
      | some obx₁ =>
        obtain ⟨u, obu, xu, hu, hrest⟩ := hdead x obx₁ hx₁ hx'
        exact ⟨u, obu, xu, .head hstep hu, hrest⟩

theorem collapseLoop_invariant [Zero D] {I : Objects D → Prop}
    (hstep : ∀ g g', g.Ok ext → I g → Collapses g object g' → I g') {fuel : ℕ} (h : g.Ok ext)
    (hob : g.table object = some ob) (hI : I g) (hrun : collapseLoop fuel g object = .ok g') :
    I g' := by
  induction fuel generalizing g ob with
  | zero => cases hrun
  | succ fuel ih =>
    rcases collapseStep_spec h hob with hnone | ⟨g₁, hsome, hc⟩
    · rw [collapseLoop, hnone] at hrun
      cases hrun
      exact hI
    · obtain ⟨l, hl, -⟩ := h.chain_self hob
      obtain ⟨hok, -, ⟨ob₁, hob₁, -⟩, -⟩ := hc.turn h hob (Nat.zero_le _) hl (.inl rfl)
      rw [collapseLoop, hsome] at hrun
      exact ih hok hob₁ (hstep g g₁ h hI hc) hrun

theorem Objects.Ok.vmObjectCollapse [Zero D] (h : g.Ok ext) (hob : g.table object = some ob) :
    ∃ g', vmObjectCollapse g (some object) = .ok g' ∧ g'.Ok ext ∧ Keeps object 0 g g' ∧
      ∃ ob', g'.table object = some ob' := by
  obtain ⟨l, hl, -⟩ := h.chain_self hob
  obtain ⟨g', hrun, hok, hkeeps, hlive, -⟩ := collapseLoop_spec h hob (Nat.zero_le _) hl
    (.inl rfl) (Nat.le_succ_of_le (h.chain_length hl))
  exact ⟨g', hrun, hok, hkeeps, hlive⟩

theorem Keeps.contents [Zero D] {ext' : ℕ → ℕ} {size x offset : ℕ} {obx : VmObject D} (hk : Keeps object size g g')
    (h : g.Ok ext) (h' : g'.Ok ext') (hx : g'.table x = some obx)
    (hwithin : g.Within object size (g.chainOf g.next (some x)) offset) :
    g'.contents x offset = g.contents x offset := by
  obtain ⟨obx₀, hx₀⟩ := hk.survives x obx hx
  obtain ⟨lx, hlx⟩ := h.ends x obx₀ hx₀
  obtain ⟨lx', hlx', hsame⟩ := hk.chain x lx hlx ⟨obx, hx⟩
  rw [hlx.chainOf_eq (h.chain_length hlx)] at hwithin
  rw [h'.contents_eq hlx', h.contents_eq hlx]
  exact (hsame offset hwithin).2

/-- A call comes to an end without a panic; the reference counts are true again, and an object is
destroyed only while the collapsed object has the one reference to it. If the window of the object
does not wrap around anywhere on its chain, it shows the same at every offset below its size, and so
does every other object that is left where it does not look into it beyond its size. -/
theorem collapse_keeps_visible_pages [Zero D] (h : g.Ok ext) (hob : g.table object = some ob) :
    ∃ g', vmObjectCollapse g (some object) = .ok g' ∧ g'.Ok ext ∧
      (∃ ob', g'.table object = some ob') ∧
      (∀ x obx, g.table x = some obx → g'.table x = none → ∃ u obu xu, CollapseSteps object g u ∧
        u.table object = some obu ∧ obu.shadow = some x ∧ u.table x = some xu ∧ xu.refCount = 1) ∧
      (g.Unwrapped ob.size (g.chainOf g.next (some object)) 0 →
        (∀ offset < ob.size, g'.contents object offset = g.contents object offset) ∧
        ∀ x obx, g'.table x = some obx → ∀ offset,
          g.Within object ob.size (g.chainOf g.next (some x)) offset →
            g'.contents x offset = g.contents x offset) := by
  obtain ⟨l, hl, -⟩ := h.chain_self hob
  have hlen := h.chain_length hl
  obtain ⟨g', hloop, hok, -, ⟨ob', hob'⟩, hdead⟩ :=
    collapseLoop_spec h hob (Nat.zero_le _) hl (.inl rfl) (Nat.le_succ_of_le hlen)
  refine ⟨g', hloop, hok, ⟨ob', hob'⟩, hdead, fun hwrap => ?_⟩
  rw [hl.chainOf_eq hlen] at hwrap
  obtain ⟨g'', hloop', -, hkeeps, -⟩ := collapseLoop_spec h hob le_rfl hl (.inr hwrap) (Nat.le_succ_of_le hlen)
  obtain rfl := Except.ok.inj (hloop.symm.trans hloop')
  refine ⟨fun offset hoff => hkeeps.contents h hok hob' ?_, fun x obx hx offset => hkeeps.contents h hok hx⟩
  rw [hl.chainOf_eq hlen]
  exact ⟨fun _ => hoff, fun _ => Objects.within_of_notMem (List.nodup_cons.mp hl.nodup).1 _⟩

/-- An object of two pages whose shadow has `page` at offset 0. -/
def twoObjects (shadowOffset : ℕ) (page : ℕ) : Objects ℕ where
  table := fun o =>
    if o = 0 then
      some { vmObjectTemplate 8192 with shadow := some 1, shadowOffset := shadowOffset }
    else if o = 1 then some { vmObjectTemplate 8192 with memq := [⟨0, page⟩] }
    else none
  next := 2

theorem twoObjects_ok (shadowOffset page : ℕ) :
    (twoObjects shadowOffset page).Ok (fun o => if o = 0 then 1 else 0) := by
  have hcases : ∀ o ob, (twoObjects shadowOffset page).table o = some ob → o = 0 ∨ o = 1 := by
    intro o ob ho
    simp only [twoObjects] at ho
    split_ifs at ho with h0 h1
    · exact .inl h0
    · exact .inr h1
  have hbelow : (twoObjects shadowOffset page).Chain (some 1) [1] := .cons rfl .nil
  refine ⟨?_, ?_, ?_, ?_⟩
  · intro o ob ho
    rcases hcases o ob ho with rfl | rfl
    · exact Nat.zero_lt_two
    · exact Nat.one_lt_two
  · intro o ob ho
    rcases hcases o ob ho with rfl | rfl
    · exact ⟨[0, 1], .cons rfl hbelow⟩
    · exact ⟨[1], hbelow⟩
  · intro o ob ho
    rcases hcases o ob ho with rfl | rfl
    · cases ho
      rfl
    · cases ho
      rfl
  · intro o hpos
    by_cases ho : o = 0
    · subst ho
      exact ⟨_, rfl⟩
    · rw [if_neg ho] at hpos
      omega

theorem collapse_keeps_visible_pages_two :
    ∃ g', vmObjectCollapse (twoObjects 0 7) (some 0) = .ok g' ∧ g'.contents 0 0 = 7 := by
  have hwrap : (twoObjects 0 7).Unwrapped 8192 [0, 1] 0 := ⟨by decide, by decide, trivial⟩
  have hob : (twoObjects 0 7).table 0 = some _ := rfl
  obtain ⟨g', hg', -, -, -, hsame⟩ := collapse_keeps_visible_pages (twoObjects_ok 0 7) hob
  exact ⟨g', hg', ((hsame hwrap).1 0 (by decide)).trans rfl⟩

/-- With a window that wraps around, the page at offset 0 of the backing object is seen at
offset 4096 of its parent, and the call throws it away. -/
theorem wrapped_window_loses_page :
    (twoObjects (2 ^ 32 - 4096) 7).Ok (fun o => if o = 0 then 1 else 0) ∧
    (twoObjects (2 ^ 32 - 4096) 7).contents 0 4096 = 7 ∧
      ∃ g', vmObjectCollapse (twoObjects (2 ^ 32 - 4096) 7) (some 0) = .ok g' ∧
        g'.contents 0 4096 = 0 :=
  ⟨twoObjects_ok _ _, rfl, _, rfl, rfl⟩

end Darwin.Vm
