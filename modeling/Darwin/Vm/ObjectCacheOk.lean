import Darwin.Vm.ObjectCache
import Darwin.Vm.References

/-! # The object cache is well formed

The list holds the objects without references, and the hash table those with a pager of their own.
-/
namespace Darwin.Vm
open Darwin.Lib Function List

variable {s s' : ObjectCache} {ext ext' : ℕ → ℕ} {o x : ℕ} {ob ob' : CacheObject}

namespace ObjectCache

def shadowOf (s : ObjectCache) (o : ℕ) : Option ℕ := (s.table o).bind CacheObject.shadow

/-- The number of objects whose shadow the object is. -/
def shadowers (s : ObjectCache) (o : ℕ) : ℕ := referrers s.shadowOf s.next o

def liveNum (s : ObjectCache) : ℕ := referrers (fun o => (s.table o).map (fun _ => ())) s.next ()

/-- `ext` counts the references that are not from shadows. -/
structure Ok (s : ObjectCache) (ext : ℕ → ℕ) : Prop where
  bounded : ∀ o ob, s.table o = some ob → o < s.next
  refs : ∀ o ob, s.table o = some ob → ob.refCount = ext o + s.shadowers o
  held : ∀ o, ext o ≠ 0 → ∃ ob, s.table o = some ob
  shadow : ∀ o ob t, s.table o = some ob → ob.shadow = some t → ∃ obt, s.table t = some obt
  cached : ∀ o, o ∈ s.vmObjectCachedList ↔ ∃ ob, s.table o = some ob ∧ ob.refCount = 0
  cachedNodup : s.vmObjectCachedList.Nodup
  num : s.vmObjectCached = s.vmObjectCachedList.length
  entries : ∀ b o, o ∈ s.vmObjectHashtable b →
    ∃ ob p, s.table o = some ob ∧ ob.pager = some p ∧ vmObjectHash (some p) = b
  entriesNodup : ∀ b, (s.vmObjectHashtable b).Nodup
  pagers : ∀ o ob o' ob' p, s.table o = some ob → s.table o' = some ob' → ob.pager = some p →
    ob'.pager = some p → o = o'
  persist : ∀ o ob, s.table o = some ob → ob.canPersist = true → o ∈ s.vmObjectHashtable (vmObjectHash ob.pager)
  idle : ∀ o ob, s.table o = some ob → ob.refCount = 0 → ob.canPersist = true

@[simp] theorem set_self : (s.set o ob).table o = some ob := update_self ..
theorem set_of_ne (h : x ≠ o) : (s.set o ob).table x = s.table x := update_of_ne h ..

theorem set_cases {obx : CacheObject} (hx : (s.set o ob).table x = some obx) :
    (x = o ∧ obx = ob) ∨ (x ≠ o ∧ s.table x = some obx) := by
  by_cases hxo : x = o
  · subst hxo
    rw [set_self] at hx
    exact .inl ⟨rfl, (Option.some.inj hx).symm⟩
  · rw [set_of_ne hxo] at hx
    exact .inr ⟨hxo, hx⟩

theorem set_live {obx : CacheObject} (hx : s.table x = some obx) : ∃ obx', (s.set o ob).table x = some obx' := by
  by_cases hxo : x = o
  · rw [hxo]
    exact ⟨ob, set_self⟩
  · exact ⟨obx, (set_of_ne hxo).trans hx⟩

theorem get_eq (h : s.table o = some ob) : s.get o = .ok ob := by
  rw [get, h]

theorem shadowOf_eq (h : s.table o = some ob) : s.shadowOf o = ob.shadow := by
  rw [shadowOf, h]
  rfl

theorem shadowOf_set (ho : s.table o = some ob) (hshadow : ob'.shadow = ob.shadow) :
    (s.set o ob').shadowOf = s.shadowOf := by
  funext x
  by_cases hx : x = o
  · rw [hx, shadowOf_eq set_self, shadowOf_eq ho, hshadow]
  · rw [shadowOf, set_of_ne hx, shadowOf]

theorem liveNum_set (ho : s.table o = some ob) : (s.set o ob').liveNum = s.liveNum := by
  refine referrers_congr (fun x _ => ?_)
  by_cases hx : x = o
  · rw [hx, set_self, ho]
    simp
  · rw [set_of_ne hx]

/-! ## One object changes -/

theorem Ok.change (h : s.Ok ext) (ho : s.table o = some ob) {list : List ℕ} {num : ℤ}
    (hpager : ob'.pager = ob.pager) (hshadow : ob'.shadow = ob.shadow)
    (hrefs : ob'.refCount - ext' o = ob.refCount - ext o) (hext : ∀ x ≠ o, ext' x = ext x)
    (hpersist : ob'.canPersist = true → o ∈ s.vmObjectHashtable (vmObjectHash ob.pager))
    (hidle : ob'.refCount = 0 → ob'.canPersist = true)
    (hself : o ∈ list ↔ ob'.refCount = 0) (hlist : ∀ x ≠ o, x ∈ list ↔ x ∈ s.vmObjectCachedList)
    (hnodup : list.Nodup) (hnum : num = list.length) :
    Ok { s.set o ob' with vmObjectCachedList := list, vmObjectCached := num } ext' := by
  have hshadows : ∀ x, (s.set o ob').shadowers x = s.shadowers x := by
    intro x
    rw [shadowers, shadowOf_set ho hshadow]
    rfl
  refine ⟨?_, ?_, ?_, ?_, ?_, hnodup, hnum, ?_, h.entriesNodup, ?_, ?_, ?_⟩
  · intro x obx hx
    rcases set_cases hx with ⟨rfl, -⟩ | ⟨-, hx⟩
    · exact h.bounded x ob ho
    · exact h.bounded x obx hx
  · intro x obx hx
    change obx.refCount = ext' x + (s.set o ob').shadowers x
    rw [hshadows]
    rcases set_cases hx with ⟨rfl, rfl⟩ | ⟨hxo, hx⟩
    · have hold := h.refs x ob ho
      omega
    · rw [hext x hxo]
      exact h.refs x obx hx
  · intro x hx
    by_cases hxo : x = o
    · rw [hxo]
      exact ⟨ob', set_self⟩
    · rw [hext x hxo] at hx
      obtain ⟨obx, hobx⟩ := h.held x hx
      exact set_live hobx
  · intro x obx t hx ht
    rcases set_cases hx with ⟨rfl, rfl⟩ | ⟨-, hx⟩
    · rw [hshadow] at ht
      obtain ⟨obt, hobt⟩ := h.shadow x ob t ho ht
      exact set_live hobt
    · obtain ⟨obt, hobt⟩ := h.shadow x obx t hx ht
      exact set_live hobt
  · intro x
    by_cases hxo : x = o
    · subst hxo
      change x ∈ list ↔ ∃ obx, (s.set x ob').table x = some obx ∧ obx.refCount = 0
      rw [hself, set_self]
      simp
    · change x ∈ list ↔ ∃ obx, (s.set o ob').table x = some obx ∧ obx.refCount = 0
      rw [hlist x hxo, set_of_ne hxo]
      exact h.cached x
  · intro b x hx
    obtain ⟨obx, p, hobx, hp, hb⟩ := h.entries b x hx
    by_cases hxo : x = o
    · subst hxo
      cases ho.symm.trans hobx
      exact ⟨ob', p, set_self, hpager.trans hp, hb⟩
    · exact ⟨obx, p, (set_of_ne hxo).trans hobx, hp, hb⟩
  · have hold : ∀ x obx p, (s.set o ob').table x = some obx → obx.pager = some p →
        ∃ obx', s.table x = some obx' ∧ obx'.pager = some p := by
      intro x obx p hx hp
      rcases set_cases hx with ⟨rfl, rfl⟩ | ⟨-, hx⟩
      · exact ⟨ob, ho, hpager.symm.trans hp⟩
      · exact ⟨obx, hx, hp⟩
    intro x obx y oby p hx hy hpx hpy
    obtain ⟨obx', hx', hpx'⟩ := hold x obx p hx hpx
    obtain ⟨oby', hy', hpy'⟩ := hold y oby p hy hpy
    exact h.pagers x obx' y oby' p hx' hy' hpx' hpy'
  · intro x obx hx hpers
    rcases set_cases hx with ⟨rfl, rfl⟩ | ⟨-, hx⟩
    · rw [hpager]
      exact hpersist hpers
    · exact h.persist x obx hx hpers
  · intro x obx hx hzero
    rcases set_cases hx with ⟨rfl, rfl⟩ | ⟨-, hx⟩
    · exact hidle hzero
    · exact h.idle x obx hx hzero

theorem Ok.set (h : s.Ok ext) (ho : s.table o = some ob) (hpager : ob'.pager = ob.pager)
    (hshadow : ob'.shadow = ob.shadow) (hrefs : ob'.refCount - ext' o = ob.refCount - ext o)
    (hext : ∀ x ≠ o, ext' x = ext x)
    (hpersist : ob'.canPersist = true → o ∈ s.vmObjectHashtable (vmObjectHash ob.pager))
    (hidle : ob'.refCount = 0 → ob'.canPersist = true) (hzero : ob'.refCount = 0 ↔ ob.refCount = 0) :
    (s.set o ob').Ok ext' := by
  refine h.change ho hpager hshadow hrefs hext hpersist hidle ?_ (fun _ _ => .rfl) h.cachedNodup h.num
  rw [h.cached o, ho, hzero]
  simp

/-! ## The hash table -/

theorem findEntry_spec (pager : Option ℕ) {l : List ℕ} (hl : ∀ x ∈ l, ∃ obx, s.table x = some obx) :
    ∃ r, s.findEntry pager l = .ok r ∧
      (∀ o, r = some o → o ∈ l ∧ ∃ ob, s.table o = some ob ∧ ob.pager = pager) ∧
      (r = none → ∀ x ∈ l, ∀ obx, s.table x = some obx → obx.pager ≠ pager) := by
  induction l with
  | nil => exact ⟨none, rfl, fun _ h => (by cases h), fun _ _ h => absurd h not_mem_nil⟩
  | cons y rest ih =>
    obtain ⟨⟨oby, hy⟩, hrest⟩ := forall_mem_cons.mp hl
    simp only [findEntry, get_eq hy, bind, Except.bind, pure, Except.pure]
    split_ifs with hmatch
    · refine ⟨some y, rfl, ?_, fun h => (by cases h)⟩
      rintro _ ⟨⟩
      exact ⟨mem_cons_self, oby, hy, hmatch⟩
    · obtain ⟨r, hr, hfound, hnone⟩ := ih hrest
      refine ⟨r, hr, fun o ho => ?_, fun h => ?_⟩
      · obtain ⟨hmem, hob⟩ := hfound o ho
        exact ⟨mem_cons_of_mem y hmem, hob⟩
      · refine forall_mem_cons.mpr ⟨fun obx hx => ?_, hnone h⟩
        cases hy.symm.trans hx
        exact hmatch

theorem removeEntry_eq {pager : Option ℕ} {l : List ℕ}
    (hl : ∀ x ∈ l, ∃ obx, s.table x = some obx ∧ (obx.pager = pager ↔ x = o)) :
    s.removeEntry pager l = .ok (l.erase o) := by
  induction l with
  | nil => rfl
  | cons y rest ih =>
    obtain ⟨⟨oby, hy, hiff⟩, hrest⟩ := forall_mem_cons.mp hl
    simp only [removeEntry, get_eq hy, bind, Except.bind, pure, Except.pure, ih hrest]
    split_ifs with hmatch
    · rw [hiff.mp hmatch, erase_cons_head]
    · rw [erase_cons_tail]
      simpa using fun heq => hmatch (hiff.mpr heq)

/-- The state in which the object has one more reference, and is no longer on the list. -/
def revived (s : ObjectCache) (o : ℕ) (ob : CacheObject) : ObjectCache :=
  (if ob.refCount = 0 then
    { s with
      vmObjectCachedList := s.vmObjectCachedList.erase o
      vmObjectCached := s.vmObjectCached - 1 }
  else s).set o { ob with refCount := ob.refCount + 1 }

theorem revived_self : (s.revived o ob).table o = some { ob with refCount := ob.refCount + 1 } := set_self

theorem Ok.ref_nonneg (h : s.Ok ext) (ho : s.table o = some ob) : 0 ≤ ob.refCount := by
  rw [h.refs o ob ho]
  positivity

theorem Ok.revived (h : s.Ok ext) (ho : s.table o = some ob) : (s.revived o ob).Ok (addRef ext (some o)) := by
  have hext : ∀ x ≠ o, addRef ext (some o) x = ext x :=
    fun x hx => addRef_of_ne (fun heq => hx (Option.some.inj heq).symm)
  have hrefs : ob.refCount + 1 - (addRef ext (some o) o : ℤ) = ob.refCount - ext o := by
    rw [addRef_self]
    push_cast
    omega
  have hpos := h.ref_nonneg ho
  have hnot : ¬ ob.refCount + 1 = 0 := by omega
  rw [ObjectCache.revived]
  split_ifs with hzero
  · have hmem : o ∈ s.vmObjectCachedList := (h.cached o).mpr ⟨ob, ho, hzero⟩
    have hlen := length_erase_of_mem hmem
    have hpos := length_pos_of_mem hmem
    refine h.change ho rfl rfl hrefs hext (h.persist o ob ho) (fun heq => absurd heq hnot) ?_ ?_ ?_ ?_
    · exact ⟨fun hin => absurd hin h.cachedNodup.not_mem_erase, fun heq => absurd heq hnot⟩
    · exact fun x hx => mem_erase_of_ne hx
    · exact h.cachedNodup.erase o
    · change s.vmObjectCached - 1 = _
      rw [h.num, hlen]
      omega
  · exact h.set ho rfl rfl hrefs hext (h.persist o ob ho) (fun heq => absurd heq hnot)
      ⟨fun heq => absurd heq hnot, fun heq => absurd heq hzero⟩

theorem revived_liveNum (ho : s.table o = some ob) : (s.revived o ob).liveNum = s.liveNum := by
  rw [revived]
  split_ifs
  · exact liveNum_set ho
  · exact liveNum_set ho

theorem Ok.lookup (h : s.Ok ext) (pager : Option ℕ) :
    (∃ o ob, s.table o = some ob ∧ ob.pager = pager ∧ o ∈ s.vmObjectHashtable (vmObjectHash pager) ∧
      s.vmObjectLookup pager = .ok (some o, s.revived o ob)) ∨
    (s.vmObjectLookup pager = .ok (none, s) ∧
      ∀ o ob, s.table o = some ob → o ∈ s.vmObjectHashtable (vmObjectHash pager) → ob.pager ≠ pager) := by
  have hlive : ∀ x ∈ s.vmObjectHashtable (vmObjectHash pager), ∃ obx, s.table x = some obx := by
    intro x hx
    obtain ⟨obx, _, hobx, -⟩ := h.entries _ x hx
    exact ⟨obx, hobx⟩
  obtain ⟨r, hr, hfound, hnone⟩ := findEntry_spec pager hlive
  rw [vmObjectLookup, hr]
  cases r with
  | none => exact .inr ⟨rfl, fun o ob ho hmem => hnone rfl o hmem ob ho⟩
  | some o =>
    obtain ⟨hmem, ob, ho, hpager⟩ := hfound o rfl
    refine .inl ⟨o, ob, ho, hpager, hmem, ?_⟩
    simp only [bind, Except.bind, pure, Except.pure, get_eq ho]
    rfl

/-! ## An object goes -/

/-- The state without the object and its entry. -/
def terminated (s : ObjectCache) (o : ℕ) (ob : CacheObject) : ObjectCache :=
  (s.setBucket (vmObjectHash ob.pager) ((s.vmObjectHashtable (vmObjectHash ob.pager)).erase o)).free o

@[simp] theorem terminated_next : (s.terminated o ob).next = s.next := rfl

@[simp] theorem terminated_self : (s.terminated o ob).table o = none := update_self ..

theorem terminated_of_ne (h : x ≠ o) : (s.terminated o ob).table x = s.table x := update_of_ne h ..

theorem terminated_hashtable : (s.terminated o ob).vmObjectHashtable = update s.vmObjectHashtable
    (vmObjectHash ob.pager) ((s.vmObjectHashtable (vmObjectHash ob.pager)).erase o) := rfl

theorem Ok.terminated (h : s.Ok (addRef ext (some o))) (ho : s.table o = some ob) (hone : ob.refCount = 1) :
    (s.terminated o ob).Ok (addRef ext ob.shadow) := by
  have hrefs := h.refs o ob ho
  rw [hone, addRef_self] at hrefs
  push_cast at hrefs
  have hself : ext o = 0 := by omega
  have hnone : s.shadowers o = 0 := by omega
  have hlone : ∀ x obx, s.table x = some obx → obx.shadow ≠ some o := by
    intro x obx hx hs
    have hpos : 0 < s.shadowers o := referrers_pos (h.bounded x obx hx) ((shadowOf_eq hx).trans hs)
    omega
  have hlive : ∀ x obx, (s.terminated o ob).table x = some obx → x ≠ o ∧ s.table x = some obx := by
    intro x obx hx
    by_cases hxo : x = o
    · subst hxo
      rw [terminated_self] at hx
      cases hx
    · exact ⟨hxo, (terminated_of_ne hxo).symm.trans hx⟩
  have hstays : ∀ x obx, x ≠ o → s.table x = some obx → (s.terminated o ob).table x = some obx :=
    fun x obx hxo hx => (terminated_of_ne hxo).trans hx
  have hshadows : ∀ x, (s.terminated o ob).shadowers x + (if ob.shadow = some x then 1 else 0) =
      s.shadowers x := by
    intro x
    have hupdate := referrers_update (f := s.shadowOf) (a := x) none (h.bounded o ob ho)
    rw [shadowOf_eq ho] at hupdate
    have hfun : (s.terminated o ob).shadowOf = update s.shadowOf o none := by
      funext y
      by_cases hyo : y = o
      · subst hyo
        rw [update_self, shadowOf, terminated_self]
        rfl
      · rw [update_of_ne hyo, shadowOf, shadowOf, terminated_of_ne hyo]
    rw [shadowers, hfun, terminated_next, shadowers]
    simpa using hupdate
  have hsub : ∀ b x, x ∈ (s.terminated o ob).vmObjectHashtable b → x ≠ o ∧ x ∈ s.vmObjectHashtable b := by
    intro b x hx
    rw [terminated_hashtable] at hx
    by_cases hb : b = vmObjectHash ob.pager
    · subst hb
      rw [update_self] at hx
      refine ⟨?_, mem_of_mem_erase hx⟩
      rintro rfl
      exact (h.entriesNodup _).not_mem_erase hx
    · rw [update_of_ne hb] at hx
      refine ⟨?_, hx⟩
      rintro rfl
      obtain ⟨obx, p, hobx, hp, hpb⟩ := h.entries b x hx
      cases ho.symm.trans hobx
      exact hb (by rw [hp, hpb])
  refine ⟨?_, ?_, ?_, ?_, ?_, h.cachedNodup, h.num, ?_, ?_, ?_, ?_, ?_⟩
  · exact fun x obx hx => h.bounded x obx (hlive x obx hx).2
  · intro x obx hx
    obtain ⟨hxo, hx⟩ := hlive x obx hx
    have hold := h.refs x obx hx
    have hcount := hshadows x
    rw [addRef_of_ne (fun heq => hxo (Option.some.inj heq).symm)] at hold
    rw [addRef]
    omega
  · intro x hx
    by_cases hs : ob.shadow = some x
    · obtain ⟨obx, hobx⟩ := h.shadow o ob x ho hs
      refine ⟨obx, hstays x obx ?_ hobx⟩
      rintro rfl
      exact hlone x ob ho hs
    · rw [addRef_of_ne hs] at hx
      obtain ⟨obx, hobx⟩ := h.held x (by rw [addRef]; omega)
      refine ⟨obx, hstays x obx ?_ hobx⟩
      rintro rfl
      exact hx hself
  · intro x obx t hx ht
    have hold := (hlive x obx hx).2
    obtain ⟨obt, hobt⟩ := h.shadow x obx t hold ht
    refine ⟨obt, hstays t obt ?_ hobt⟩
    rintro rfl
    exact hlone x obx hold ht
  · intro x
    change x ∈ s.vmObjectCachedList ↔ _
    rw [h.cached x]
    constructor
    · rintro ⟨obx, hx, hzero⟩
      refine ⟨obx, hstays x obx ?_ hx, hzero⟩
      rintro rfl
      cases ho.symm.trans hx
      omega
    · rintro ⟨obx, hx, hzero⟩
      exact ⟨obx, (hlive x obx hx).2, hzero⟩
  · intro b x hx
    obtain ⟨hxo, hx⟩ := hsub b x hx
    obtain ⟨obx, p, hobx, hp⟩ := h.entries b x hx
    exact ⟨obx, p, hstays x obx hxo hobx, hp⟩
  · intro b
    rw [terminated_hashtable]
    by_cases hb : b = vmObjectHash ob.pager
    · subst hb
      rw [update_self]
      exact (h.entriesNodup _).erase o
    · rw [update_of_ne hb]
      exact h.entriesNodup b
  · exact fun x obx y oby p hx hy => h.pagers x obx y oby p (hlive x obx hx).2 (hlive y oby hy).2
  · intro x obx hx hpers
    obtain ⟨hxo, hx⟩ := hlive x obx hx
    have hmem := h.persist x obx hx hpers
    rw [terminated_hashtable]
    by_cases hb : vmObjectHash obx.pager = vmObjectHash ob.pager
    · rw [hb, update_self]
      rw [hb] at hmem
      exact (mem_erase_of_ne hxo).mpr hmem
    · rw [update_of_ne hb]
      exact hmem
  · exact fun x obx hx => h.idle x obx (hlive x obx hx).2

theorem terminated_liveNum (hlt : o < s.next) (ho : s.table o = some ob) :
    (s.terminated o ob).liveNum + 1 = s.liveNum := by
  have hupdate := referrers_update (f := fun x => (s.table x).map (fun _ => ())) (a := ()) none hlt
  have hfun : (fun x => ((s.terminated o ob).table x).map (fun _ => ())) =
      update (fun x => (s.table x).map (fun _ => ())) o none := by
    funext x
    by_cases hxo : x = o
    · subst hxo
      rw [update_self, terminated_self]
      rfl
    · rw [update_of_ne hxo, terminated_of_ne hxo]
  rw [liveNum, hfun, terminated_next, liveNum]
  simpa [ho] using hupdate

theorem liveNum_pos (hlt : o < s.next) (ho : s.table o = some ob) : 0 < s.liveNum :=
  referrers_pos hlt (by rw [ho]; rfl)

end ObjectCache

end Darwin.Vm
