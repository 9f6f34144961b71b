import Darwin.Vm.References

/-! # Page faults

The part of `vm_fault` that follows the lookup in the map: the search down the shadow
chain, zero fill, the copy of the page into the first object, and the push of the old page
into its copy-object. A fault changes nothing that is visible.
-/
namespace Darwin.Vm
open Darwin.Lib List

variable {D : Type}

/-- The search: the object that has the page, and what the page holds. A page that comes
from the pager is then in memory. -/
def faultSearch : ℕ → Objects D → ℕ → ℕ → Except Stop (Option (ℕ × D) × Objects D)
  | 0, _, _, _ => .error .unfinished
  | fuel + 1, g, object, offset => do
    let ob ← g.get object
    match ob.vmPageLookup offset with
    | some p => return (some (object, p.data), g)
    | none =>
      match ob.paged offset with
      | some d => return (some (object, d), g.set object (ob.vmPageInsert ⟨offset, d⟩))
      | none =>
        match ob.shadow with
        | none => return (none, g)
        | some next => faultSearch fuel g next (u32 (offset + ob.shadowOffset))

/-- The page is copied to the copy-object unless it is there already, in memory or at the
pager. -/
def pushCopy (g : Objects D) (firstObject firstOffset : ℕ) (d : D) :
    Except Stop (Objects D) := do
  let first ← g.get firstObject
  match first.copy with
  | none => return g
  | some copyObject =>
    let copy ← g.get copyObject
    let copyOffset := u32Sub firstOffset copy.shadowOffset
    if (copy.held copyOffset).isSome then
      return g
    else
      return g.set copyObject (copy.vmPageInsert ⟨copyOffset, d⟩)

/-- The page that a fault enters into the physical map, when it is to be in the first
object: zeros, or a copy of the page that was found further down. -/
def topPage [Zero D] (g : Objects D) (firstObject firstOffset : ℕ) (write : Bool) :
    Option (ℕ × D) → Except Stop (D × Objects D)
  | none => do
    let first ← g.get firstObject
    return (0, g.set firstObject (first.vmPageInsert ⟨firstOffset, 0⟩))
  | some (object, d) => do
    if object = firstObject ∨ write = false then
      return (d, g)
    else
      let first ← g.get firstObject
      let g := g.set firstObject (first.vmPageInsert ⟨firstOffset, d⟩)
      let g ← vmObjectCollapse g (some firstObject)
      return (d, g)

def vmFault [Zero D] (g : Objects D) (firstObject firstOffset : ℕ) (write : Bool) :
    Except Stop (Objects D) := do
  let (found, g) ← faultSearch g.next g firstObject firstOffset
  let (d, g) ← topPage g firstObject firstOffset write found
  if write then pushCopy g firstObject firstOffset d else return g

/-- The store that follows a write fault. -/
def VmObject.store (ob : VmObject D) (offset : ℕ) (d : D) : VmObject D :=
  { ob with memq := ob.memq.map (fun p => if p.offset = offset then { p with data := d } else p) }

def vmWrite [Zero D] (g : Objects D) (object offset : ℕ) (d : D) : Except Stop (Objects D) := do
  let g ← vmFault g object offset true
  let ob ← g.get object
  return g.set object (ob.store offset d)

variable {g g' : Objects D} {ext : ℕ → ℕ} {o x object offset : ℕ} {ob obx : VmObject D} {d : D}
  {l : List ℕ}

/-! ## Pages that change nothing -/

/-- The graphs differ in resident pages only, and every chain shows the same. -/
structure SameView [Zero D] (g g' : Objects D) : Prop where
  next : g'.next = g.next
  table : ∀ x obx', g'.table x = some obx' → ∃ obx, g.table x = some obx ∧
    obx' = { obx with memq := obx'.memq }
  table' : ∀ x obx, g.table x = some obx → ∃ obx', g'.table x = some obx' ∧
    obx' = { obx with memq := obx'.memq }
  visible : ∀ object l, g.Chain object l → ∀ offset, g'.visible l offset = g.visible l offset

namespace SameView

theorem refl [Zero D] (g : Objects D) : SameView g g :=
  ⟨rfl, fun _ obx hx => ⟨obx, hx, rfl⟩, fun _ obx hx => ⟨obx, hx, rfl⟩, fun _ _ _ _ => rfl⟩

theorem chain [Zero D] (h : SameView g g') {object : Option ℕ} (hl : g.Chain object l) :
    g'.Chain object l := by
  apply hl.congr
  intro y hy
  obtain ⟨oby, hoby⟩ := hl.live y hy
  obtain ⟨oby', hoby', heq⟩ := h.table' y oby hoby
  exact ⟨oby', hoby', by rw [Objects.shadowOf_eq hoby, heq]⟩

theorem trans [Zero D] {g'' : Objects D} (h : SameView g g') (h' : SameView g' g'') :
    SameView g g'' := by
  refine ⟨h'.next.trans h.next, ?_, ?_, ?_⟩
  · intro x obx'' hx''
    obtain ⟨obx', hx', heq'⟩ := h'.table x obx'' hx''
    obtain ⟨obx, hx, heq⟩ := h.table x obx' hx'
    exact ⟨obx, hx, by rw [heq', heq]⟩
  · intro x obx hx
    obtain ⟨obx', hx', heq⟩ := h.table' x obx hx
    obtain ⟨obx'', hx'', heq'⟩ := h'.table' x obx' hx'
    exact ⟨obx'', hx'', by rw [heq', heq]⟩
  · intro object l hl offset
    rw [h'.visible object l (h.chain hl), h.visible object l hl]

theorem ok [Zero D] (h : SameView g g') (hok : g.Ok ext) : g'.Ok ext := by
  refine hok.frame h.next ?_ ?_ hok.live
  · intro x obx' hx'
    obtain ⟨obx, hx, heq⟩ := h.table x obx' hx'
    exact ⟨obx, hx, by rw [heq]⟩
  · intro x obx hx
    obtain ⟨obx', hx', heq⟩ := h.table' x obx hx
    exact ⟨obx', hx', by rw [heq]⟩

theorem contents [Zero D] (h : SameView g g') (hok : g.Ok ext) (hx : g.table x = some obx)
    (offset : ℕ) : g'.contents x offset = g.contents x offset := by
  obtain ⟨l, hl⟩ := hok.ends x obx hx
  rw [(h.ok hok).contents_eq (h.chain hl), hok.contents_eq hl, h.visible _ l hl]

end SameView

theorem held_insert (ob : VmObject D) (offset : ℕ) (d : D) (y : ℕ) :
    (ob.vmPageInsert ⟨offset, d⟩).held y = ((ob.vmPageLookup y).map Page.data).or
      ((if offset = y then some d else none).or (ob.paged y)) := by
  rw [VmObject.held, vmPageLookup_insert, Option.or_assoc]
  rfl

theorem held_insert_of_ne (ob : VmObject D) (d : D) {y : ℕ} (h : offset ≠ y) :
    (ob.vmPageInsert ⟨offset, d⟩).held y = ob.held y := by
  rw [held_insert, if_neg h]
  rfl

theorem sameView_insert [Zero D] (ho : g.table o = some ob) (hlook : ob.vmPageLookup offset = none)
    (hl : g.Chain (some o) (o :: l))
    (hshow : (ob.paged offset).getD (g.visible l (u32 (offset + ob.shadowOffset))) = d) :
    SameView g (g.set o (ob.vmPageInsert ⟨offset, d⟩)) := by
  have hself : (g.set o (ob.vmPageInsert ⟨offset, d⟩)).table o =
    some (ob.vmPageInsert ⟨offset, d⟩) := Objects.set_self
  have hvis : ∀ object l', g.Chain object l' → ∀ y,
      (g.set o (ob.vmPageInsert ⟨offset, d⟩)).visible l' y = g.visible l' y := by
    intro object l' hl'
    induction hl' with
    | nil => exact fun _ => rfl
    | @cons x obx l' hx hl' ih =>
      intro y
      by_cases hxo : x = o
      · subst hxo
        cases ho.symm.trans hx
        cases (Objects.Chain.cons hx hl').unique hl
        rw [visible_cons hself, visible_cons ho]
        by_cases hy : offset = y
        · subst hy
          rw [held_insert, hlook, if_pos rfl, VmObject.held, hlook]
          simp only [Option.map_none, Option.none_or, Option.some_or, Option.getD_some]
          exact hshow.symm
        · rw [held_insert_of_ne ob d hy, ih]
          rfl
      · rw [visible_cons (Objects.set_of_ne hxo |>.trans hx), visible_cons hx, ih]
  refine ⟨rfl, ?_, ?_, hvis⟩
  · intro x obx hx
    by_cases hxo : x = o
    · subst hxo
      cases hself.symm.trans hx
      exact ⟨ob, ho, rfl⟩
    · exact ⟨obx, (Objects.set_of_ne hxo).symm.trans hx, rfl⟩
  · intro x obx hx
    by_cases hxo : x = o
    · subst hxo
      cases ho.symm.trans hx
      exact ⟨_, hself, rfl⟩
    · exact ⟨obx, (Objects.set_of_ne hxo).trans hx, rfl⟩

/-! ## The search -/

theorem faultSearch_spec [Zero D] {fuel : ℕ} (hl : g.Chain (some object) l)
    (hfuel : l.length ≤ fuel) (offset : ℕ) :
    ∃ found g', faultSearch fuel g object offset = .ok (found, g') ∧ SameView g g' ∧
      (∀ y ∉ l, g'.table y = g.table y) ∧
      (match found with
        | none => g.visible l offset = 0 ∧
            ∀ ob, g'.table object = some ob → ob.held offset = none
        | some (o, d) => g.visible l offset = d ∧ o ∈ l ∧ ∀ ob, g'.table object = some ob →
            if o = object then ob.held offset = some d ∧ (ob.vmPageLookup offset).isSome
            else ob.held offset = none) := by
  induction fuel generalizing object offset l with
  | zero =>
    cases hl
    simp at hfuel
  | succ fuel ih =>
    cases hl with
    | @cons _ ob l ho hl =>
      rw [faultSearch, Objects.get_eq ho]
      simp only [bind, Except.bind, pure, Except.pure]
      rw [visible_cons ho]
      cases hlook : ob.vmPageLookup offset with
      | some p =>
        have hheld : ob.held offset = some p.data := by rw [VmObject.held, hlook]; rfl
        refine ⟨_, _, rfl, .refl g, fun _ _ => rfl, ?_, mem_cons_self, ?_⟩
        · rw [hheld, Option.getD_some]
        · intro ob' ho'
          cases ho.symm.trans ho'
          rw [if_pos rfl, hlook]
          exact ⟨hheld, rfl⟩
      | none =>
        cases hpage : ob.paged offset with
        | some d =>
          have hheld : ob.held offset = some d := by rw [VmObject.held, hlook, hpage]; rfl
          refine ⟨_, _, rfl, sameView_insert ho hlook (.cons ho hl) (by rw [hpage]; rfl), ?_, ?_,
            mem_cons_self, ?_⟩
          · intro y hy
            exact Objects.set_of_ne (fun heq => hy (heq ▸ mem_cons_self))
          · rw [hheld, Option.getD_some]
          · intro ob' ho'
            cases Objects.set_self.symm.trans ho'
            rw [if_pos rfl]
            constructor
            · rw [held_insert, hlook, if_pos rfl]
              rfl
            · have hins := vmPageLookup_insert ob ⟨offset, d⟩ offset
              rw [hlook, if_pos rfl] at hins
              cases hnew : (ob.vmPageInsert ⟨offset, d⟩).vmPageLookup offset with
              | none =>
                rw [hnew] at hins
                cases hins
              | some p => rfl
        | none =>
          have hheld : ob.held offset = none := by rw [VmObject.held, hlook, hpage]; rfl
          rw [hheld, Option.getD_none]
          cases hs : ob.shadow with
          | none =>
            rw [hs] at hl
            cases hl
            refine ⟨_, _, rfl, .refl g, fun _ _ => rfl, rfl, ?_⟩
            intro ob' ho'
            cases ho.symm.trans ho'
            exact hheld
          | some next =>
            rw [hs] at hl
            have hnd := (Objects.Chain.cons ho (by rw [hs]; exact hl)).nodup
            obtain ⟨found, g', hrun, hsame, hframe, hfound⟩ := ih hl (by simpa using hfuel) _
            refine ⟨found, g', hrun, hsame, ?_, ?_⟩
            · intro y hy
              exact hframe y (fun hmem => hy (mem_cons_of_mem _ hmem))
            have hheld' : ∀ ob', g'.table object = some ob' → ob'.held offset = none := by
              intro ob' ho'
              rw [hframe object (nodup_cons.mp hnd).1, ho] at ho'
              cases ho'
              exact hheld
            cases found with
            | none => exact ⟨hfound.1, hheld'⟩
            | some found =>
              obtain ⟨o, d⟩ := found
              refine ⟨hfound.1, mem_cons_of_mem _ hfound.2.1, ?_⟩
              intro ob' ho'
              rw [if_neg ?_]
              · exact hheld' ob' ho'
              · rintro rfl
                exact (nodup_cons.mp hnd).1 hfound.2.1

theorem sameView_fill [Zero D] (ho : g.table o = some ob) (hheld : ob.held offset = none)
    (hl : g.Chain (some o) (o :: l)) (hshow : g.visible (o :: l) offset = d) :
    SameView g (g.set o (ob.vmPageInsert ⟨offset, d⟩)) ∧
      (ob.vmPageInsert ⟨offset, d⟩).held offset = some d ∧
        ((ob.vmPageInsert ⟨offset, d⟩).vmPageLookup offset).isSome := by
  obtain ⟨hlook, hpage⟩ := Option.or_eq_none_iff.mp hheld
  rw [Option.map_eq_none_iff] at hlook
  rw [visible_cons ho, hheld, Option.getD_none] at hshow
  refine ⟨sameView_insert ho hlook hl (by rw [hpage]; exact hshow), ?_, ?_⟩
  · rw [held_insert, hlook, if_pos rfl]
    rfl
  · have hins := vmPageLookup_insert ob ⟨offset, d⟩ offset
    rw [hlook, if_pos rfl] at hins
    cases hnew : (ob.vmPageInsert ⟨offset, d⟩).vmPageLookup offset with
    | none =>
      rw [hnew] at hins
      cases hins
    | some p => rfl

/-- A write fault up to the push: every chain shows the same, the first object has the page
in memory, and then it may be collapsed. -/
theorem topPage_spec [Zero D] (h : g.Ok ext) (ho : g.table object = some ob) (offset : ℕ) :
    ∃ found g₀ d g₁ g₂, faultSearch g.next g object offset = .ok (found, g₀) ∧
      topPage g₀ object offset true found = .ok (d, g₂) ∧ SameView g g₁ ∧
      (g₂ = g₁ ∨ vmObjectCollapse g₁ (some object) = .ok g₂) ∧
      ∃ ob₁, g₁.table object = some ob₁ ∧ ob₁.held offset = some d ∧
        (ob₁.vmPageLookup offset).isSome := by
  obtain ⟨l, hl, -⟩ := h.chain_self ho
  obtain ⟨found, g₀, hsearch, hsame, -, hfound⟩ :=
    faultSearch_spec hl (h.chain_length hl) offset
  obtain ⟨ob₀, ho₀, -⟩ := hsame.table' object ob ho
  have hl₀ := hsame.chain hl
  cases found with
  | none =>
    obtain ⟨hzero, hheld⟩ := hfound
    obtain ⟨hfill, hdata, hin⟩ := sameView_fill (d := 0) ho₀ (hheld ob₀ ho₀) hl₀
      ((hsame.visible _ _ hl offset).trans hzero)
    refine ⟨none, g₀, 0, _, _, hsearch, ?_, hsame.trans hfill, .inl rfl, _, Objects.set_self,
      hdata, hin⟩
    rw [topPage, Objects.get_eq ho₀]
    rfl
  | some found =>
    obtain ⟨o, d⟩ := found
    obtain ⟨hshow, -, htop⟩ := hfound
    have htop' := htop ob₀ ho₀
    by_cases hoo : o = object
    · rw [if_pos hoo] at htop'
      refine ⟨_, g₀, d, g₀, g₀, hsearch, ?_, hsame, .inl rfl, ob₀, ho₀, htop'⟩
      rw [topPage, if_pos (.inl hoo)]
      rfl
    · rw [if_neg hoo] at htop'
      obtain ⟨hfill, hdata, hin⟩ := sameView_fill (d := d) ho₀ htop' hl₀
        ((hsame.visible _ _ hl offset).trans hshow)
      obtain ⟨g₂, hcol, -⟩ := (hfill.ok (hsame.ok h)).vmObjectCollapse
        (Objects.set_self (g := g₀) (o := object))
      refine ⟨_, g₀, d, _, g₂, hsearch, ?_, hsame.trans hfill, .inr hcol, _, Objects.set_self,
        hdata, hin⟩
      rw [topPage, if_neg (by simpa using hoo), Objects.get_eq ho₀]
      simp only [bind, Except.bind, hcol, pure, Except.pure]

/-! ## The store -/

theorem held_store_of_ne (ob : VmObject D) (d : D) {y : ℕ} (h : y ≠ offset) :
    (ob.store offset d).held y = ob.held y := by
  have hfind : ((ob.store offset d).vmPageLookup y).map Page.data =
      (ob.vmPageLookup y).map Page.data := by
    unfold VmObject.store VmObject.vmPageLookup
    induction ob.memq with
    | nil => rfl
    | cons p ps ih =>
      rw [map_cons]
      by_cases hp : p.offset = offset
      · rw [if_pos hp, List.find?_cons_of_neg (by simp; omega),
          List.find?_cons_of_neg (by simp; omega)]
        exact ih
      · rw [if_neg hp]
        by_cases hy : p.offset = y
        · rw [List.find?_cons_of_pos (by simpa using hy), List.find?_cons_of_pos (by simpa using hy)]
        · rw [List.find?_cons_of_neg (by simpa using hy), List.find?_cons_of_neg (by simpa using hy)]
          exact ih
  rw [VmObject.held, hfind]
  rfl

theorem visible_store [Zero D] (hmem : o ∉ l) (y : ℕ) :
    (g.set o (ob.store offset d)).visible l y = g.visible l y := by
  apply Objects.visible_congr
  intro x hx
  have hne : x ≠ o := fun heq => hmem (heq ▸ hx)
  simp only [Objects.held, Objects.shadowOffsetOf, Objects.set_of_ne hne, implies_true, and_self]

theorem ok_store (hok : g.Ok ext) (ho : g.table o = some ob) :
    (g.set o (ob.store offset d)).Ok ext :=
  hok.set ho rfl rfl (fun _ _ => rfl)

theorem chain_store (ho : g.table o = some ob) {object : Option ℕ} (hl : g.Chain object l) :
    (g.set o (ob.store offset d)).Chain object l := by
  apply hl.congr
  intro y hy
  by_cases hyo : y = o
  · subst hyo
    exact ⟨_, Objects.set_self, (Objects.shadowOf_eq ho).trans rfl⟩
  · obtain ⟨oby, hoby⟩ := hl.live y hy
    exact ⟨oby, (Objects.set_of_ne hyo).trans hoby, Objects.shadowOf_eq hoby⟩

end Darwin.Vm
