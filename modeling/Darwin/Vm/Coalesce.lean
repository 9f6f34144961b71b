import Darwin.Vm.MapQuiet
import Darwin.Vm.References

/-! # What coalescing leaves visible

`vm_object_coalesce` collapses the object of an entry, drops its pages behind the entry and makes it
larger. Whatever is mapped shows the same as before.
-/
namespace Darwin.Vm
open Darwin.Lib

variable {D : Type} {g g' : Objects D} {ext : ℕ → ℕ} {o x k : ℕ} {ob : VmObject D}

theorem VmObject.held_pageRemove (ob : VmObject D) {start stop : ℕ} (h : k < start) :
    (ob.pageRemove start stop).held k = ob.held k := by
  have hlookup : (ob.pageRemove start stop).vmPageLookup k = ob.vmPageLookup k := by
    simp only [vmPageLookup, pageRemove, List.find?_filter]
    refine List.find?_congr fun p _ => ?_
    by_cases hp : p.offset = k
    · simp [hp, Nat.not_le.mpr h]
    · simp [hp]
  rw [held, held, hlookup]
  rfl

theorem Objects.Ok.extend [Zero D] (h : g.Ok ext) (hob : g.table o = some ob) (hpos : 1 ≤ ext o)
    (hone : ob.refCount ≤ 1) (hshadow : ob.shadow = none) (start stop size : ℕ) :
    (g.set o { ob.pageRemove start stop with size := size }).Ok ext ∧
      ∀ x k, 1 ≤ ext x → (x = o → k < start) →
        (g.set o { ob.pageRemove start stop with size := size }).contents x k = g.contents x k := by
  have hok : (g.set o { ob.pageRemove start stop with size := size }).Ok ext :=
    h.set hob rfl rfl fun _ _ => rfl
  refine ⟨hok, fun x k hx hk => ?_⟩
  obtain ⟨obx, hobx⟩ := h.live x hx
  have hnone : g.shadowers o = 0 := by
    have := h.refs o ob hob
    omega
  by_cases hxo : x = o
  · subst hxo
    have hl : g.Chain (some x) [x] := .cons hob (hshadow ▸ .nil)
    have hl' : (g.set x { ob.pageRemove start stop with size := size }).Chain (some x) [x] :=
      .cons Objects.set_self (hshadow ▸ .nil)
    have hheld : (g.set x { ob.pageRemove start stop with size := size }).held x k = g.held x k := by
      rw [Objects.held_eq Objects.set_self, Objects.held_eq hob]
      exact ob.held_pageRemove (hk rfl)
    rw [hok.contents_eq hl', h.contents_eq hl]
    simp only [Objects.visible, hheld]
  · obtain ⟨l, hl⟩ := h.ends x obx hobx
    have hne : ∀ y ∈ l, y ≠ o := by
      rintro y hy rfl
      exact h.notMem_chain hnone hl (fun heq => hxo (Option.some.inj heq)) hy
    have hl' : (g.set o { ob.pageRemove start stop with size := size }).Chain (some x) l := by
      refine hl.congr fun y hy => ?_
      obtain ⟨oby, hoby⟩ := hl.live y hy
      exact ⟨oby, (Objects.set_of_ne (hne y hy)).trans hoby, Objects.shadowOf_eq hoby⟩
    rw [hok.contents_eq hl', h.contents_eq hl]
    refine Objects.visible_congr (fun y hy => ?_) k
    rw [Objects.shadowOffsetOf, Objects.set_of_ne (hne y hy), Objects.shadowOffsetOf]
    refine ⟨fun offset => ?_, rfl⟩
    rw [Objects.held, Objects.set_of_ne (hne y hy), Objects.held]

theorem Objects.Ok.coalesce [Zero D] (h : g.Ok ext) (hob : g.table o = some ob) (hpos : 1 ≤ ext o)
    (hwrap : g.Unwrapped ob.size (g.chainOf g.next (some o)) 0) (hsize : ob.size < 2 ^ 32)
    {offset size n : ℕ} (hin : offset + size ≤ ob.size) {b : Bool}
    (hrun : vmObjectCoalesce g (some o) offset size n = .ok (b, g')) :
    g'.Ok ext ∧ (b = true → ext o ≤ 1) ∧ ∀ x k, 1 ≤ ext x → (b = true → x = o → k < offset + size) →
      g.Within o ob.size (g.chainOf g.next (some x)) k → g'.contents x k = g.contents x k := by
  obtain ⟨l, hl, -⟩ := h.chain_self hob
  have hlen := h.chain_length hl
  rw [hl.chainOf_eq hlen] at hwrap
  obtain ⟨g₁, hloop, hok, hkeeps, ⟨ob₁, hob₁⟩, -⟩ :=
    collapseLoop_spec h hob le_rfl hl (.inr hwrap) (Nat.le_succ_of_le hlen)
  have hsame : ∀ x k, 1 ≤ ext x → g.Within o ob.size (g.chainOf g.next (some x)) k →
      g₁.contents x k = g.contents x k := by
    intro x k hx hwithin
    obtain ⟨obx, hobx⟩ := hok.live x hx
    exact hkeeps.contents h hok hobx hwithin
  obtain ⟨g₂, hg₂, hrun⟩ := ok_of_bind hrun
  obtain rfl := Except.ok.inj (hloop.symm.trans hg₂)
  obtain ⟨ob₂, hob₂, hrun⟩ := ok_of_bind hrun
  cases hob₁.symm.trans (Objects.table_of_get hob₂)
  dsimp only at hrun
  split at hrun
  · cases hrun
    exact ⟨hok, by simp, fun x k hx _ => hsame x k hx⟩
  · rename_i hcond
    cases hrun
    push Not at hcond
    obtain ⟨hone, -, hshadow, -⟩ := hcond
    obtain ⟨hok', hextend⟩ := hok.extend hob₁ hpos hone (by simpa using hshadow)
      (u32 (offset + size)) (u32 (offset + size + n)) (max ob₁.size (u32 (offset + size + n)))
    refine ⟨hok', fun _ => ?_, fun x k hx hk hwithin => ?_⟩
    · have := hok.refs o ob₁ hob₁
      omega
    · rw [← hsame x k hx hwithin]
      refine hextend x k hx fun hxo => ?_
      rw [u32_eq (by omega)]
      exact hk rfl hxo

namespace SameContents

theorem record (h : SameContents g g') (o : ℕ) : g'.table o = none ∧ g.table o = none ∨
    ∃ ob ob', g.table o = some ob ∧ g'.table o = some ob' ∧ { ob' with refCount := 0 } = { ob with refCount := 0 } := by
  have ho := h.records o
  cases hob : g.table o with
  | none =>
    rw [hob] at ho
    exact .inl ⟨Option.map_eq_none_iff.mp ho, rfl⟩
  | some ob =>
    rw [hob, Option.map_some, Option.map_eq_some_iff] at ho
    obtain ⟨ob', hob', heq⟩ := ho
    exact .inr ⟨ob, ob', rfl, hob', heq⟩

theorem contents [Zero D] (h : SameContents g g') (x k : ℕ) :
    g'.contents x k = g.contents x k := by
  have hsame : ∀ o, g'.shadowOf o = g.shadowOf o ∧ g'.shadowOffsetOf o = g.shadowOffsetOf o ∧
      ∀ k, g'.held o k = g.held o k := by
    intro o
    rcases h.record o with ⟨hnone', hnone⟩ | ⟨ob, ob', hob, hob', heq⟩
    · simp only [Objects.shadowOf, Objects.shadowOffsetOf, Objects.held, hnone, hnone', implies_true, and_self]
    · rw [Objects.shadowOf_eq hob, Objects.shadowOf_eq hob', Objects.shadowOffsetOf_eq hob,
        Objects.shadowOffsetOf_eq hob']
      have hshadow := congrArg VmObject.shadow heq
      have hoffset := congrArg VmObject.shadowOffset heq
      refine ⟨hshadow, hoffset, fun k => ?_⟩
      have hheld := congrArg (fun ob => VmObject.held ob k) heq
      rw [Objects.held_eq hob, Objects.held_eq hob']
      exact hheld
  have hchain : ∀ n object, g'.chainOf n object = g.chainOf n object := by
    intro n
    induction n with
    | zero =>
      intro object
      cases object <;> rfl
    | succ n ih =>
      intro object
      cases object with
      | none => rfl
      | some o => rw [Objects.chainOf, Objects.chainOf, (hsame o).1, ih]
  rw [Objects.contents, Objects.contents, h.next, hchain]
  exact Objects.visible_congr (fun o _ => ⟨(hsame o).2.2, (hsame o).2.1⟩) k

end SameContents

end Darwin.Vm
