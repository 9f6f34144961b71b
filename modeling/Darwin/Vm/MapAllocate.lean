import Darwin.Vm.MapRefused
import Darwin.Vm.Coalesce

/-! # Allocation anywhere in a map

`vm_allocate` takes the first space that is large enough, as an entry of its own or as a part of the
entry in front of it, whose object it may extend for that.
-/
namespace Darwin.Vm
open Darwin.Lib List

variable {D : Type} {s s' : Maps D} {g : Objects D} {m d d' : VmMap} {l l' : List ℕ}
  {id e x a o start stop : ℕ} {rs ts : List VmMapEntry} {T : Option (VmMapEntry × Bool) → Prop}

/-! ## The search for a space -/

/-- The bounds of the entries are page boundaries, as all allocations make them. -/
def VmMap.PageAligned (m : VmMap) : Prop :=
  m.minOffset % pageSize = 0 ∧ ∀ e ∈ m.entries, (m.entry e).vmeEnd % pageSize = 0

theorem truncPage_of_aligned (h : x % pageSize = 0) : truncPage x = x := by
  rw [truncPage, h, Nat.sub_zero]

theorem roundPage_of_aligned (h : x % pageSize = 0) (hx : x < 2 ^ 32) : roundPage x = x := by
  rw [pageSize] at h
  rw [roundPage, truncPage, u32, pageSize]
  omega

theorem findLoop_aligned (hok : MapOk m l) (hends : ∀ e ∈ l, (m.entry e).vmeEnd % pageSize = 0)
    {length fuel entry : ℕ} :
    ∀ {e start}, e ∈ 0 :: l → start % pageSize = 0 →
      m.findLoop length fuel e start = .ok (some (entry, x)) → x % pageSize = 0 := by
  induction fuel with
  | zero =>
    intro e start _ _ hrun
    cases hrun
  | succ fuel ih =>
    intro e start he hstart hrun
    rw [VmMap.findLoop] at hrun
    split_ifs at hrun with _ hfit
    · cases hrun
    · cases hrun
      exact hstart
    · have hnext := hok.next_mem he
      have hne : m.next e ≠ 0 := fun hz => hfit (.inl hz)
      exact ih hnext (hends _ ((mem_cons.mp hnext).resolve_left hne)) hrun

/-- The search of `vm_map_find` from the start of the map. -/
def VmMap.findRoom (m : VmMap) (length : ℕ) : Except Stop (Option (ℕ × ℕ)) :=
  m.findLoop length (m.nentries + 1) m.firstFree
    (if m.firstFree = 0 then m.minOffset else (m.entry m.firstFree).vmeEnd)

/-- The search ends at `start`, and the range can be inserted there. -/
def VmMap.HasRoom (m : VmMap) (length start : ℕ) : Prop :=
  (∃ entry, m.findRoom length = .ok (some (entry, start))) ∧ Insertable m start (u32 (start + length))

theorem vmMapFind_room {size addr : ℕ} {code : KernReturn} (hd : s.table id = some d)
    (h : vmMapFind s id none 0 d.minOffset size true = .ok (code, addr, s')) :
    (code ≠ .success ∧ s' = s ∧ (d.maxOffset < d.minOffset ∨ d.findRoom size = .ok none)) ∨
      ∃ entry, d.findRoom size = .ok (some (entry, addr)) ∧
        vmMapInsert (s.setMap id { d with hint := entry }) id none 0 addr (u32 (addr + size)) =
          .ok (code, s') := by
  rw [vmMapFind, if_pos rfl] at h
  replace h := Maps.bind_getMap hd h
  simp only [Nat.lt_irrefl, if_false] at h
  split at h
  · rename_i hmax
    cases h
    exact .inl ⟨by simp, rfl, .inl hmax⟩
  obtain ⟨⟨e, start, s₁⟩, hs₁, hrun⟩ := ok_of_bind h
  clear h
  replace hs₁ := Maps.bind_getMap hd hs₁
  rw [if_pos rfl] at hs₁
  have hfrom : e = d.firstFree ∧ start = (if d.firstFree = 0 then d.minOffset else
      (d.entry d.firstFree).vmeEnd) ∧ s₁ = s := by
    split at hs₁
    · rename_i hz
      cases hs₁
      exact ⟨hz.symm, (if_pos hz).symm, rfl⟩
    · rename_i hz
      cases hs₁
      exact ⟨rfl, (if_neg hz).symm, rfl⟩
  obtain ⟨rfl, rfl, rfl⟩ := hfrom
  replace hrun := Maps.bind_getMap hd hrun
  obtain ⟨r, hr, h⟩ := ok_of_bind hrun
  cases r with
  | none =>
    cases h
    exact .inl ⟨by simp, rfl, .inr hr⟩
  | some r =>
    obtain ⟨entry, start⟩ := r
    obtain ⟨⟨result, s₂⟩, hs₂, h⟩ := ok_of_bind h
    cases h
    exact .inr ⟨entry, hr, hs₂⟩

theorem findRoom_mem (hok : MapOk m l) {size entry : ℕ} (h : m.findRoom size = .ok (some (entry, a))) :
    entry ∈ 0 :: l :=
  findLoop_mem hok hok.firstFree h

theorem findRoom_aligned (hok : MapOk m l) (ha : m.PageAligned) {size entry : ℕ}
    (h : m.findRoom size = .ok (some (entry, a))) : a % pageSize = 0 := by
  have hends : ∀ e ∈ l, (m.entry e).vmeEnd % pageSize = 0 := hok.entries_eq ▸ ha.2
  refine findLoop_aligned hok hends hok.firstFree ?_ h
  split_ifs with hz
  · exact ha.1
  · exact hends _ ((mem_cons.mp hok.firstFree).resolve_left hz)

theorem vmAllocate_spec {size addr : ℕ} {code : KernReturn} (hg : Good s)
    (hd : s.table id = some d) (hok : MapOk d l) (ha : d.PageAligned)
    (hsize : size % pageSize = 0 ∧ size < 2 ^ 32)
    (h : vmAllocate s id 0 size true = .ok (code, addr, s')) :
    (code ≠ .success ∧ Hinted s s' ∧ ∀ start, ¬ d.HasRoom size start) ∨ (code = .success ∧ size = 0 ∧ s' = s) ∨
      (code = .success ∧ 0 < size ∧ d.HasRoom size addr ∧ addr % pageSize = 0 ∧ addr + size < 2 ^ 32 ∧
        (d.minOffset ≤ addr ∧ addr + size ≤ d.maxOffset ∧
          Free (l.map d.entry) addr (addr + size)) ∧
        ∃ d' l' g, s' = { s with objects := g }.setMap id d' ∧
          HasInserted s.objects g none 0 addr (addr + size) d d' l l') := by
  rw [vmAllocate] at h
  split at h
  · rename_i hz
    cases h
    exact .inr (.inl ⟨rfl, hz, rfl⟩)
  rename_i hz
  replace h := Maps.bind_getMap hd h
  simp only [if_true] at h
  rw [roundPage_of_aligned hsize.1 hsize.2] at h
  rcases vmMapFind_room hd h with ⟨hne, rfl, hroom⟩ | ⟨entry, hroom, hrun⟩
  · refine .inl ⟨hne, .refl hg, ?_⟩
    rintro start ⟨⟨entry, hfound⟩, hmin, hlt, hmax, -⟩
    rcases hroom with hle | hnone
    · omega
    · rw [hnone] at hfound
      cases hfound
  have hentry := findRoom_mem hok hroom
  rcases vmMapInsert_spec Maps.setMap_self (hok.setHint hentry) hrun with
    ⟨hne, hnot, hint, hhint, rfl⟩ | ⟨rfl, ⟨hmin, hlt, hmax, hfree⟩, d', l', g, rfl, hins⟩
  · refine .inl ⟨hne, ?_, ?_⟩
    · rw [Maps.setMap_setMap]
      exact Hinted.setMap (m := d) hg hd hok hhint
    · rintro start ⟨⟨entry', hfound⟩, hall⟩
      rw [hroom] at hfound
      cases hfound
      rw [Insertable, hok.entries_eq] at hall
      exact hnot hall
  have hbound := hok.bound
  have hroom' : d.HasRoom size addr := by
    refine ⟨⟨entry, hroom⟩, hmin, hlt, hmax, ?_⟩
    rw [hok.entries_eq]
    exact hfree
  have hstop : u32 (addr + size) = addr + size := by
    have hsize := hsize.2
    have hmax' : u32 (addr + size) ≤ d.maxOffset := hmax
    rw [u32] at hlt hmax' ⊢
    omega
  rw [hstop] at hlt hmax hfree hins
  have hmax' : addr + size ≤ d.maxOffset := hmax
  refine .inr (.inr ⟨rfl, Nat.pos_of_ne_zero hz, hroom', findRoom_aligned hok ha hroom, by omega,
    ⟨hmin, hmax, hfree⟩, d', l', g, ?_, ⟨hins.ok, hins.records, hins.header, hins.isMainMap, hins.size⟩⟩)
  exact Maps.setMap_setMap (s := { s with objects := g }) (m := { d with hint := entry })

/-! ## What the map shows then -/

theorem Inserted.view {isMainMap : Bool} {object : Option ℕ} {offset : ℕ}
    (h : Inserted T isMainMap object offset start stop rs ts)
    (ha : ¬ (start ≤ a ∧ a < stop)) (hlt : start < stop) : viewOf ts a = viewOf rs a := by
  cases h with
  | new rs ts r _ =>
    obtain ⟨hs, he⟩ := inserted_extent r isMainMap object offset start stop
    have hnot : (r.inserted isMainMap object offset start stop).covers a = false := by
      rw [Bool.eq_false_iff, Ne, VmMapEntry.covers_eq_true, hs, he]
      exact ha
    rw [viewOf_append, viewOf_cons, hnot, viewOf_append]
    rfl
  | extend rs ts r hr =>
    have hend := extends_end hr
    have hcovers : ({ r with vmeEnd := stop } : VmMapEntry).covers a = r.covers a := by
      rw [Bool.eq_iff_iff, VmMapEntry.covers_eq_true, VmMapEntry.covers_eq_true]
      simp only
      omega
    rw [viewOf_append, viewOf_cons, viewOf_append, viewOf_cons, hcovers]
    rfl

theorem viewOf_of_free (h : Free rs start stop) (ha : start ≤ a ∧ a < stop) :
    viewOf rs a = none := by
  rw [viewOf_eq_none]
  intro r hr hcov
  have := h r hr
  omega

/-- The new range as an entry of its own. -/
def newRange (start stop : ℕ) : VmMapEntry :=
  { VmMapEntry.zero with vmeStart := start, vmeEnd := stop, protection := vmProtDefault }

theorem Inserted.allowed_iff {offset prot lo hi : ℕ} (h : Inserted T true none offset start stop rs ts)
    (hvalid : ∀ r ∈ rs, r.vmeStart ≤ r.vmeEnd) (hlt : start < stop) :
    Allowed ts lo hi prot ↔ Allowed (newRange start stop :: rs) lo hi prot := by
  have hmapped : ∀ a, Mapped ts a ↔ Mapped (newRange start stop :: rs) a := by
    intro a
    cases h with
    | new rs ts r _ =>
      rw [mapped_append, mapped_cons, mapped_cons, mapped_append]
      exact or_left_comm
    | extend rs ts r hr =>
      have hend := extends_end hr
      have hle := hvalid r (mem_append_right _ mem_cons_self)
      have hparts : (r.vmeStart ≤ a ∧ a < stop) ↔
          (start ≤ a ∧ a < stop) ∨ (r.vmeStart ≤ a ∧ a < r.vmeEnd) := by omega
      rw [mapped_append, mapped_cons, mapped_cons, mapped_append, mapped_cons]
      dsimp only [newRange]
      rw [hparts, or_assoc]
      exact or_left_comm
  have hprot : lo < hi → ((∀ r ∈ ts, lo < r.vmeEnd → r.vmeStart < hi → r.protection &&& prot = prot) ↔
      ∀ r ∈ newRange start stop :: rs, lo < r.vmeEnd → r.vmeStart < hi → r.protection &&& prot = prot) := by
    intro hlohi
    cases h with
    | new rs ts r _ =>
      rw [forall_mem_append, forall_mem_cons, forall_mem_cons, forall_mem_append]
      exact and_left_comm
    | extend rs ts r hr =>
      have hend := extends_end hr
      have hle := hvalid r (mem_append_right _ mem_cons_self)
      have hr' := hr
      rw [VmMapEntry.extends, decide_eq_true_iff] at hr'
      have hparts : (lo < stop → r.vmeStart < hi → r.protection &&& prot = prot) ↔
          (lo < stop → start < hi → vmProtDefault &&& prot = prot) ∧
            (lo < r.vmeEnd → r.vmeStart < hi → r.protection &&& prot = prot) := by
        rw [hr'.2.2.2.2.1]
        constructor
        · exact fun hall => ⟨fun h₁ h₂ => hall h₁ (by omega), fun h₁ h₂ => hall (by omega) h₂⟩
        · rintro ⟨hnew, hold⟩ h₁ h₂
          by_cases hin : lo < r.vmeEnd
          · exact hold hin h₂
          · exact hnew h₁ (by omega)
      rw [forall_mem_append, forall_mem_cons, forall_mem_cons, forall_mem_append,
        forall_mem_cons]
      dsimp only [newRange]
      rw [hparts, and_assoc]
      exact and_left_comm
  constructor
  · rintro ⟨h₁, h₂, h₃⟩
    exact ⟨(hmapped _).mp h₁, fun a hs he => (hmapped a).mp (h₂ a hs he), fun hlt => (hprot hlt).mp (h₃ hlt)⟩
  · rintro ⟨h₁, h₂, h₃⟩
    exact ⟨(hmapped _).mpr h₁, fun a hs he => (hmapped a).mpr (h₂ a hs he), fun hlt => (hprot hlt).mpr (h₃ hlt)⟩

theorem allowed_newRange (hfree : Free rs start stop) (hlt : start < stop) :
    Allowed (newRange start stop :: rs) start stop vmProtWrite := by
  refine ⟨mapped_cons.mpr (.inl ⟨le_refl _, hlt⟩), fun a hs he => mapped_cons.mpr (.inl ⟨hs, he⟩), ?_⟩
  intro _ r hr hafter hbefore
  rcases mem_cons.mp hr with rfl | hr
  · change vmProtDefault &&& vmProtWrite = vmProtWrite
    decide
  · have := hfree r hr
    omega

/-! ## The objects behind the maps -/

theorem Inserted.holders_le {isMainMap : Bool} {offset : ℕ}
    (h : Inserted T isMainMap none offset start stop rs ts) (o : ℕ) : holders ts o ≤ holders rs o := by
  cases h with
  | new rs ts r _ =>
    have hobject : (r.inserted isMainMap none offset start stop).object = .null := by
      cases isMainMap <;> rfl
    simp [hobject]
  | extend rs ts r hr => simp

theorem Inserted.quiet {isMainMap : Bool} {offset : ℕ} (h : Inserted T isMainMap none offset start stop rs ts)
    (hfree : Free rs start stop) : ∀ t ∈ ts, t.vmeStart < stop → start < t.vmeEnd →
      t.Plain ∧ ∀ o, t.object = .object o → ∃ r ∈ rs, T (some (r, true)) ∧ r.object = .object o ∧
        r.vmeEnd = start ∧ t.vmeStart = r.vmeStart := by
  have hold : ∀ r ∈ rs, r.vmeStart < stop → ¬ start < r.vmeEnd := by
    intro r hr hlt hin
    have := hfree r hr
    omega
  cases h with
  | new rs ts r _ =>
    intro t ht hlt hin
    rcases mem_append.mp ht with ht | ht
    · exact absurd hin (hold t (mem_append_left _ ht) hlt)
    rcases mem_cons.mp ht with rfl | ht
    · refine ⟨by cases isMainMap <;> exact ⟨rfl, rfl⟩, fun o ho => ?_⟩
      cases isMainMap <;> cases ho
    · exact absurd hin (hold t (mem_append_right _ ht) hlt)
  | extend rs ts r hr _ hT =>
    intro t ht hlt hin
    rcases mem_append.mp ht with ht | ht
    · exact absurd hin (hold t (mem_append_left _ ht) hlt)
    rcases mem_cons.mp ht with rfl | ht
    · have hend := extends_end hr
      rw [VmMapEntry.extends, decide_eq_true_iff] at hr
      exact ⟨⟨hr.2.1, hr.2.2.1⟩, fun o ho =>
        ⟨r, mem_append_right _ mem_cons_self, hT, ho, hend, rfl⟩⟩
    · exact absurd hin (hold t (mem_append_right _ (mem_cons_of_mem _ ht)) hlt)

theorem Inserted.tried {isMainMap : Bool} {object : Option ℕ} {offset : ℕ}
    (h : Inserted T isMainMap object offset start stop rs ts) : T none ∨ ∃ r ∈ rs, ∃ b, T (some (r, b)) := by
  cases h with
  | new rs ts r hT => exact hT.imp_right fun ⟨t, ht, hT⟩ => ⟨t, ht, false, hT⟩
  | extend rs ts r _ _ hT => exact .inr ⟨r, mem_append_right _ mem_cons_self, true, hT⟩

/-- An entry of one of the maps shows the object at the offset. -/
def Maps.Shows (s : Maps D) (o k : ℕ) : Prop :=
  ∃ id m a r, s.table id = some m ∧ m.view a = some r ∧ r.object = .object o ∧ r.offset = k

/-- Whatever the maps show of the objects is the same in `g`. -/
def Maps.KeptBy [Zero D] (s : Maps D) (g : Objects D) : Prop :=
  ∀ o k, s.Shows o k → g.contents o k = s.objects.contents o k

/-- The entry `y.2` of the map `y.1` stands for the object. -/
def Maps.Holds (s : Maps D) (o : ℕ) (y : ℕ × ℕ) : Prop :=
  ∃ m, s.table y.1 = some m ∧ y.2 ∈ m.entries ∧ (m.entry y.2).object = .object o

/-- The objects behind the maps: the reference counts are true, with one reference for each entry and
one for the kernel object; each entry lies inside its object, and no window into an object wraps around or
looks beyond its size. -/
structure Maps.Backed (s : Maps D) (ext : ℕ → ℕ) : Prop where
  objects : s.objects.Ok ext
  refs : ∀ o (ys : List (ℕ × ℕ)), ys.Nodup → (∀ y ∈ ys, s.Holds o y) →
    ys.length + (if o = s.kernelObject then 1 else 0) ≤ ext o
  inside : ∀ o ob id m e, s.objects.table o = some ob → s.table id = some m → e ∈ m.entries →
    (m.entry e).object = .object o → (m.entry e).offset + ((m.entry e).vmeEnd - (m.entry e).vmeStart) ≤ ob.size
  size : ∀ o ob, s.objects.table o = some ob → ob.size < 2 ^ 32
  unwrapped : ∀ o ob, s.objects.table o = some ob →
    s.objects.Unwrapped ob.size (s.objects.chainOf s.objects.next (some o)) 0
  within : ∀ o ob x k, s.objects.table o = some ob → s.Shows x k →
    s.objects.Within o ob.size (s.objects.chainOf s.objects.next (some x)) k

namespace Maps.Backed
variable {ext : ℕ → ℕ}

theorem one_le (hb : s.Backed ext) {y : ℕ × ℕ} (hy : s.Holds o y) :
    1 + (if o = s.kernelObject then 1 else 0) ≤ ext o :=
  hb.refs o [y] (nodup_singleton y) fun z hz => by
    rw [mem_singleton.mp hz]
    exact hy

theorem two_le (hb : s.Backed ext) {y z : ℕ × ℕ} (hy : s.Holds o y) (hz : s.Holds o z) (hne : y ≠ z) :
    2 ≤ ext o := by
  have h := hb.refs o [y, z] (by simp [hne]) (by simp [hy, hz])
  exact (Nat.le_add_right 2 _).trans h

theorem holders_le (hb : s.Backed ext) (hm : s.table id = some m) (hok : MapOk m l) (o : ℕ) :
    holders (l.map m.entry) o ≤ ext o := by
  have h := hb.refs o ((l.filter (fun e => (m.entry e).object = .object o)).map (fun e => (id, e)))
    ((hok.nodup.filter _).map fun _ _ he => (Prod.mk.inj he).2) (fun y hy => by
      obtain ⟨e, he, rfl⟩ := mem_map.mp hy
      obtain ⟨he, ho⟩ := mem_filter.mp he
      exact ⟨m, hm, hok.entries_eq ▸ he, by simpa using ho⟩)
  rw [length_map, ← countP_eq_length_filter] at h
  rw [holders, countP_map]
  exact (Nat.le_add_right _ _).trans h

theorem tried [Zero D] (hb : s.Backed ext) (hm : s.table id = some m) (hok : MapOk m l) {r : VmMapEntry}
    (hr : r ∈ l.map m.entry) {b : Bool} (ht : Tried s.objects stop g (some (r, b))) :
    g.Ok ext ∧ (b = true → ∀ o, r.object = .object o → o ≠ s.kernelObject) ∧ s.KeptBy g := by
  obtain ⟨y, hy, hrun⟩ := ht
  cases y with
  | none =>
    cases hrun
    refine ⟨hb.objects, fun _ o ho => ?_, fun _ _ _ => rfl⟩
    rw [hy] at ho
    cases ho
  | some o =>
    obtain ⟨e, he, rfl⟩ := mem_map.mp hr
    have hholds : s.Holds o (id, e) := ⟨m, hm, hok.entries_eq ▸ he, hy⟩
    have hone := hb.one_le hholds
    obtain ⟨ob, hob⟩ := hb.objects.live o (by omega)
    have hin := hb.inside o ob id m e hob hm (hok.entries_eq ▸ he) hy
    have hsize := hb.size o ob hob
    rw [u32Sub_of_valid hok he (hok.valid he).2.1 (le_refl _)] at hrun
    obtain ⟨hok', hle, hsame⟩ := hb.objects.coalesce hob (by omega) (hb.unwrapped o ob hob) hsize hin hrun
    refine ⟨hok', fun hbt o' ho' hkernel => ?_, fun x k hshows => ?_⟩
    · cases hy.symm.trans ho'
      rw [if_pos hkernel] at hone
      have := hle hbt
      omega
    · have hwithin := hb.within o ob x k hob hshows
      obtain ⟨id', m', a, v, hm', hv, hvo, rfl⟩ := hshows
      obtain ⟨t, ht, hts, hte, rfl⟩ := viewOf_eq_some hv
      obtain ⟨e', he', rfl⟩ := mem_map.mp ht
      have hholds' : s.Holds x (id', e') := ⟨m', hm', he', hvo⟩
      have hone' := hb.one_le hholds'
      refine hsame x _ (by omega) (fun hbt hxo => ?_) hwithin
      -- no other entry stands for an object that can be extended
      subst hxo
      by_cases heq : (id', e') = (id, e)
      · cases heq
        cases hm.symm.trans hm'
        change u32 ((m.entry e).offset + (a - (m.entry e).vmeStart)) < _
        rw [u32_eq (by omega)]
        omega
      · have := hb.two_le hholds' hholds heq
        have := hle hbt
        omega

theorem allocated [Zero D] (hb : s.Backed ext) (hd : s.table id = some d) (hok : MapOk d l)
    (hins : HasInserted s.objects g none 0 start stop d d' l l') :
    g.Ok ext ∧ s.KeptBy g ∧ Counted g (l'.map d'.entry) := by
  have hgraph : g.Ok ext ∧ s.KeptBy g := by
    rcases hins.records.tried with rfl | ⟨r, hr, b, ht⟩
    · exact ⟨hb.objects, fun _ _ _ => rfl⟩
    · obtain ⟨hok', -, hkept⟩ := hb.tried hd hok hr ht
      exact ⟨hok', hkept⟩
  refine ⟨hgraph.1, hgraph.2, fun o ob hob => ?_⟩
  have hrefs := hgraph.1.refs o ob hob
  have hle := (hins.records.holders_le o).trans (hb.holders_le hd hok o)
  omega

end Maps.Backed

end Darwin.Vm
