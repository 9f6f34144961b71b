import Darwin.Vm.MapCopyKept
import Darwin.Vm.MapMove
import Darwin.Lib.Run

/-! # The size of a map

`map->size` is kept apart from the entries, by insertion, extension and deletion. In every run
in which only maps whose entries are all to be copied are forked, it is the sum of the
lengths of the entries.
-/
namespace Darwin.Vm
open Darwin.Lib Function List Maps

variable {D : Type} {s s' : Maps D} {m m' : VmMap} {l l' p q : List ℕ}
  {id e a start stop : ℕ} {rs ts : List VmMapEntry}

/-! ## The invariant -/

/-- A map whose size is right, and which refers to no other map. -/
structure Sized (m : VmMap) (l : List ℕ) : Prop where
  ok : MapOk m l
  main : m.isMainMap = true
  size : m.size = total (l.map m.entry)
  noMap : ∀ r ∈ l.map m.entry, ∀ k, r.object ≠ .map k

/-- Every map is right, and those still to be created are not there yet. -/
structure SizedMaps (s : Maps D) : Prop where
  maps : ∀ id m, s.table id = some m → ∃ l, Sized m l
  fresh : ∀ id, s.next ≤ id → s.table id = none

theorem SizedMaps.good (h : SizedMaps s) : Good s := by
  intro id m hm
  obtain ⟨l, hs⟩ := h.maps id m hm
  exact ⟨l, hs.ok⟩

theorem SizedMaps.get (h : SizedMaps s) (hm : s.table id = some m) (hok : MapOk m l) :
    Sized m l := by
  obtain ⟨l', hs⟩ := h.maps id m hm
  have hl : l' = l := by rw [← hs.ok.entries_eq, hok.entries_eq]
  exact hl ▸ hs

theorem SizedMaps.lt (h : SizedMaps s) (hm : s.table id = some m) : id < s.next := by
  by_contra hle
  cases hm.symm.trans (h.fresh id (Nat.le_of_not_lt hle))

theorem SizedMaps.setMap (h : SizedMaps s) (hid : id < s.next) (hs : Sized m l) :
    SizedMaps (s.setMap id m) := by
  constructor
  · intro id' m' hm'
    by_cases heq : id' = id
    · subst heq
      cases setMap_self.symm.trans hm'
      exact ⟨l, hs⟩
    · exact h.maps id' m' ((setMap_of_ne heq).symm.trans hm')
  · intro id' hle
    have hne : id' ≠ id := by
      rintro rfl
      exact absurd hle (Nat.not_le.mpr hid)
    rw [setMap_of_ne hne]
    exact h.fresh id' hle

theorem SizedMaps.objects (h : SizedMaps s) (g : Objects D) : SizedMaps { s with objects := g } :=
  ⟨h.maps, h.fresh⟩

theorem Sized.setHint (h : Sized m l) {x : ℕ} (hx : x ∈ 0 :: l) :
    Sized { m with hint := x } l :=
  ⟨h.ok.setHint hx, h.main, h.size, h.noMap⟩

/-- A change that brings in no map. -/
def EntryChange.NoMap (V : EntryChange) : Prop :=
  ∀ {id r t}, V.rel id r t → (∀ k, r.object ≠ .map k) → ∀ k, t.object ≠ .map k

theorem Evolved.noMap {V : EntryChange} (hV : V.NoMap) (h : Evolved V id m m' l l')
    (hl : ∀ r ∈ l.map m.entry, ∀ k, r.object ≠ .map k) :
    ∀ r ∈ l'.map m'.entry, ∀ k, r.object ≠ .map k := by
  intro t ht
  obtain ⟨r, hr, hp⟩ := h.parts t ht
  have hsame := hV (hp.change _ (Nat.le_refl _))
  exact hsame (hl r hr)

theorem Sized.evolved {V : EntryChange} (hV : V.NoMap) (hs : Sized m l)
    (h : Evolved V id m m' l l') : Sized m' l' :=
  ⟨h.ok, h.isMainMap.trans hs.main, by rw [h.size, hs.size, h.total], h.noMap hV hs.noMap⟩

theorem SizedMaps.evolves {V : EntryChange} (hV : V.NoMap) (h : SizedMaps s)
    (hev : Evolves V s s') : SizedMaps s' := by
  constructor
  · intro id m' hm'
    cases hm : s.table id with
    | none => cases (hev.free id hm).symm.trans hm'
    | some m =>
      obtain ⟨l, hs⟩ := h.maps id m hm
      obtain ⟨m₁, l₁, hm₁, hevd⟩ := hev.maps id m l hm hs.ok
      cases hm₁.symm.trans hm'
      exact ⟨l₁, hs.evolved hV hevd⟩
  · intro id hle
    rw [hev.next] at hle
    exact hev.free id (h.fresh id hle)

/-! ## Creation, insertion and deletion -/

theorem SizedMaps.create (h : SizedMaps s) (min : ℕ) {max : ℕ} (hmax : max < 2 ^ 32) :
    SizedMaps (vmMapCreate s min max).2 := by
  obtain ⟨m, heq, hok, hsize, hmain, -⟩ := vmMapCreate_spec s min hmax
  rw [heq]
  constructor
  · intro id m' hm'
    by_cases hid : id = s.next
    · subst hid
      cases setMap_self.symm.trans hm'
      exact ⟨[], hok, hmain, hsize, by simp⟩
    · exact h.maps id m' ((setMap_of_ne hid).symm.trans hm')
  · intro id hle
    have hid : id ≠ s.next := Nat.ne_of_gt hle
    exact (setMap_of_ne hid).trans (h.fresh id (Nat.le_of_succ_le hle))

theorem Sized.inserted {object : Option ℕ} {offset : ℕ} {g g' : Objects D} (h : Sized m l) (hlt : start < stop)
    (hins : HasInserted g g' object offset start stop m m' l l') : Sized m' l' := by
  refine ⟨hins.ok, hins.isMainMap.trans h.main, ?_, ?_⟩
  · have htotal := hins.records.total h.ok.laid hlt
    rw [hins.size, h.size, ← htotal, u32_eq (hins.ok.laid.total_lt hins.ok.bound)]
  · refine hins.records.forall h.noMap (fun r k => ?_) (fun r _ hr => hr)
    have hobject : (r.inserted m.isMainMap object offset start stop).object = .ofObject object := by
      cases m.isMainMap <;> rfl
    rw [hobject]
    exact ofObject_ne_map object k

theorem SizedMaps.allocates {object : Option ℕ} {offset : ℕ} {code : KernReturn}
    (h : SizedMaps s) (hm : s.table id = some m) (hs : Sized m l)
    (hrun : s.Allocates id m l object offset start stop code s') : SizedMaps s' := by
  rcases hrun with ⟨-, hint, hhint, rfl⟩ | ⟨-, ⟨-, hlt, -⟩, m', l', g, rfl, hins⟩
  · exact h.setMap (h.lt hm) (hs.setHint hhint)
  · exact (h.objects g).setMap (h.lt hm) (hs.inserted hlt hins)

theorem vmMapInsert_allocates (hm : s.table id = some m) (hok : MapOk m l) {object : Option ℕ}
    {offset : ℕ} {code : KernReturn}
    (h : vmMapInsert s id object offset start stop = .ok (code, s')) :
    s.Allocates id m l object offset start stop code s' := by
  rcases vmMapInsert_spec hm hok h with ⟨hne, -, hfail⟩ | hsuccess
  · exact .inl ⟨hne, hfail⟩
  · exact .inr hsuccess

theorem SizedMaps.insert (h : SizedMaps s) {object : Option ℕ} {offset : ℕ} {code : KernReturn}
    (hrun : vmMapInsert s id object offset start stop = .ok (code, s')) : SizedMaps s' := by
  obtain ⟨m, hm, -⟩ := ok_of_bind hrun
  replace hm := table_of_getMap hm
  obtain ⟨l, hs⟩ := h.maps id m hm
  exact h.allocates hm hs (vmMapInsert_allocates hm hs.ok hrun)

theorem vmMapFind_map {object : Option ℕ} {offset addr addr' length : ℕ} {findSpace : Bool}
    {code : KernReturn}
    (h : vmMapFind s id object offset addr length findSpace = .ok (code, addr', s')) :
    ∃ m, s.table id = some m := by
  rw [vmMapFind] at h
  split at h
  · obtain ⟨m, hm, -⟩ := ok_of_bind h
    exact ⟨m, table_of_getMap hm⟩
  · obtain ⟨⟨code', s₁⟩, hs₁, -⟩ := ok_of_bind h
    obtain ⟨m, hm, -⟩ := ok_of_bind hs₁
    exact ⟨m, table_of_getMap hm⟩

theorem SizedMaps.find (h : SizedMaps s) {object : Option ℕ} {offset addr addr' length : ℕ}
    {findSpace : Bool} {code : KernReturn}
    (hrun : vmMapFind s id object offset addr length findSpace = .ok (code, addr', s')) :
    SizedMaps s' := by
  obtain ⟨m, hm⟩ := vmMapFind_map hrun
  obtain ⟨l, hs⟩ := h.maps id m hm
  exact h.allocates hm hs (vmMapFind_spec hm hs.ok hrun)

theorem FoundEntry.total (h : FoundEntry start stop rs ts) {lo hi : ℕ} (hlaid : Laid lo hi rs)
    (hle : start ≤ stop) : total ts = total rs + (stop - start) := by
  cases h with
  | new rs ts r =>
    rw [total_append, total_cons, total_append, VmMapEntry.length]
    simp only [VmMapEntry.found]
    omega
  | extend rs ts r hr =>
    have hval := hlaid.valid r (mem_append_right _ mem_cons_self)
    rw [total_append, total_cons, total_append, total_cons, VmMapEntry.length, VmMapEntry.length]
    simp only
    omega

theorem FoundEntry.noMap (h : FoundEntry start stop rs ts)
    (hrs : ∀ r ∈ rs, ∀ k, r.object ≠ .map k) : ∀ r ∈ ts, ∀ k, r.object ≠ .map k := by
  cases h with
  | new rs ts r =>
    intro t ht
    rcases mem_append.mp ht with ht | ht
    · exact hrs t (mem_append_left _ ht)
    rcases mem_cons.mp ht with rfl | ht
    · exact fun k hk => by cases hk
    · exact hrs t (mem_append_right _ ht)
  | extend rs ts r hr =>
    intro t ht
    rcases mem_append.mp ht with ht | ht
    · exact hrs t (mem_append_left _ ht)
    rcases mem_cons.mp ht with rfl | ht
    · exact hrs r (mem_append_right _ mem_cons_self)
    · exact hrs t (mem_append_right _ (mem_cons_of_mem _ ht))

theorem SizedMaps.findEntry (h : SizedMaps s) {size mask : ℕ} {object : Option ℕ}
    {code : KernReturn} (hsize : size < 2 ^ 32)
    (hsafe : ∀ m, s.table id = some m → FindEntrySafe m size mask)
    (hrun : vmMapFindEntry s id size mask object = .ok (code, a, e, s')) : SizedMaps s' := by
  have hmap := hrun
  obtain ⟨m, hm, -⟩ := ok_of_bind hmap
  replace hm := table_of_getMap hm
  obtain ⟨l, hs⟩ := h.maps id m hm
  rcases vmMapFindEntry_spec hm hs.ok hsize (hsafe m hm) hrun with
    ⟨-, rfl⟩ | ⟨-, m', l', rfl, hfound⟩
  · exact h
  · refine h.setMap (h.lt hm) (l := l') ⟨hfound.ok, hfound.isMainMap.trans hs.main, ?_,
      hfound.records.noMap hs.noMap⟩
    have htotal := hfound.records.total hs.ok.laid (Nat.le_add_right a size)
    rw [Nat.add_sub_cancel_left] at htotal
    rw [hfound.size, hs.size, ← htotal, u32_eq (hfound.ok.laid.total_lt hfound.ok.bound)]

theorem SizedMaps.delete (h : SizedMaps s) (hrun : vmMapDelete s id start stop = .ok s') :
    SizedMaps s' := by
  have hmap := hrun
  obtain ⟨⟨e, s₁⟩, hs₁, -⟩ := ok_of_bind hmap
  obtain ⟨⟨found, e', s₂⟩, hs₂, -⟩ := ok_of_bind hs₁
  obtain ⟨m, hm, -⟩ := ok_of_bind hs₂
  replace hm := table_of_getMap hm
  obtain ⟨l, hs⟩ := h.maps id m hm
  obtain ⟨-, hbut, m', l', hm', hdel⟩ := vmMapDelete_spec h.good hm hs.ok hrun
  constructor
  · intro id' m₁ hm₁
    by_cases hid : id' = id
    · subst hid
      cases hm'.symm.trans hm₁
      refine ⟨l', hdel.ok, hdel.isMainMap.trans hs.main, hdel.size hs.size, fun t ht => ?_⟩
      obtain ⟨r, hr, hp⟩ := hdel.pieces t ht
      have hclip := hp.clipTo _ (Nat.le_refl _)
      have hobject : t.object = r.object := by
        have hsame := congrArg VmMapEntry.object hclip
        exact hsame
      rw [hobject]
      exact hs.noMap r hr
    · obtain ⟨c, hc⟩ := hbut.table id' m₁ hid hm₁
      obtain ⟨l₁, hs₁⟩ := h.maps id' _ hc
      exact ⟨l₁, hs₁.ok.setRefCount m₁.refCount, hs₁.main, hs₁.size, hs₁.noMap⟩
  · intro id' hle
    rw [hbut.next] at hle
    have hid : id' ≠ id := by
      rintro rfl
      exact absurd (h.lt hm) (Nat.not_lt.mpr hle)
    cases hm₁ : s'.table id' with
    | none => rfl
    | some m₁ =>
      obtain ⟨c, hc⟩ := hbut.table id' m₁ hid hm₁
      cases (h.fresh id' hle).symm.trans hc

theorem SizedMaps.remove (h : SizedMaps s) {code : KernReturn}
    (hrun : vmMapRemove s id start stop = .ok (code, s')) : SizedMaps s' := by
  obtain ⟨m, -, hrun⟩ := ok_of_bind hrun
  obtain ⟨s₁, hs₁, hrun⟩ := ok_of_bind hrun
  cases hrun
  exact h.delete hs₁

/-! ## Inheritance -/

/-- Only the inheritance changes. -/
def inheritanceChange : EntryChange where
  rel _ r t := t = { r with inheritance := t.inheritance }
  refl _ _ := rfl
  trans := by
    intro id r t u h h'
    rw [h] at h'
    exact h'

theorem inheritanceChange_noMap : inheritanceChange.NoMap := by
  intro id r t hrel hr
  have hsame : t = { r with inheritance := t.inheritance } := hrel
  rw [hsame]
  exact hr

theorem SizedMaps.inherit (h : SizedMaps s) {newInheritance : VmInherit} {code : KernReturn}
    (hrun : vmMapInherit s id start stop newInheritance = .ok (code, s')) : SizedMaps s' := by
  rw [vmMapInherit.eq_def] at hrun
  split at hrun
  · cases hrun
    exact h
  · obtain ⟨m, -, hrun⟩ := ok_of_bind hrun
    obtain ⟨⟨entry, s₁⟩, hs₁, hrun⟩ := ok_of_bind hrun
    obtain ⟨s₂, hs₂, hrun⟩ := ok_of_bind hrun
    cases hrun
    obtain ⟨hev₁, -, m', p, q, hm', hok', rfl, -⟩ :=
      firstEntry_evolves (V := inheritanceChange) h.good hs₁
    have hev₂ := overRange_evolves (V := inheritanceChange) (fun u e r u' hat hu => by
      have hlayout := updateEntry_layout hu (fun _ => rfl) (fun _ => rfl)
      exact ⟨(updateEntry_touches hat rfl rfl (fun a => rfl) hu).1.evolves, hlayout⟩)
      (hev₁.good h.good) hm' hok' hs₂
    exact h.evolves inheritanceChange_noMap (hev₁.trans hev₂)

/-! ## Copies -/

theorem Inserted.mapped {T : Option (VmMapEntry × Bool) → Prop} {isMainMap : Bool} {object : Option ℕ}
    {offset lo hi : ℕ} (h : Inserted T isMainMap object offset start stop rs ts) (hlaid : Laid lo hi rs)
    (hlt : start < stop) :
    (∀ a, Mapped rs a → Mapped ts a) ∧ ∀ a, start ≤ a → a < stop → Mapped ts a := by
  cases h with
  | new rs ts r _ =>
    obtain ⟨hs, he⟩ := inserted_extent r isMainMap object offset start stop
    refine ⟨fun a ha => ?_, fun a hsa hae => ?_⟩
    · rw [mapped_append] at ha
      rw [mapped_append, mapped_cons]
      tauto
    · rw [mapped_append, mapped_cons, hs, he]
      exact .inr (.inl ⟨hsa, hae⟩)
  | extend rs ts r hr =>
    have hend := extends_end hr
    have hval := hlaid.valid r (mem_append_right _ mem_cons_self)
    refine ⟨fun a ha => ?_, fun a hsa hae => ?_⟩
    · rw [mapped_append, mapped_cons] at ha ⊢
      refine ha.imp_right (fun ha => ha.imp_left (fun hcov => ?_))
      simp only
      omega
    · rw [mapped_append, mapped_cons]
      refine .inr (.inl ?_)
      simp only
      omega

theorem HasInserted.mappedAt {object : Option ℕ} {offset : ℕ} {g g' : Objects D} (hm : s.table id = some m)
    (hok : MapOk m l) (hlt : start < stop) (hins : HasInserted g' g object offset start stop m m' l l') :
    (∀ id' a, s.MappedAt id' a → ({ s with objects := g }.setMap id m').MappedAt id' a) ∧
      ∀ a, start ≤ a → a < stop → ({ s with objects := g }.setMap id m').MappedAt id a := by
  obtain ⟨hold, hnew⟩ := hins.records.mapped hok.laid hlt
  refine ⟨fun id' a hmapped => ?_, fun a hsa hae => ?_⟩
  · by_cases hid : id' = id
    · subst hid
      rw [mappedAt_iff setMap_self hins.ok]
      exact hold a ((mappedAt_iff hm hok).mp hmapped)
    · obtain ⟨e, r, ⟨m₁, l₁, hm₁, hat⟩, hcov⟩ := hmapped
      exact ⟨e, r, ⟨m₁, l₁, (setMap_of_ne hid).trans hm₁, hat⟩, hcov⟩
  · rw [mappedAt_iff setMap_self hins.ok]
    exact hnew a hsa hae

/-- Both ranges are mapped. -/
structure BothMapped (s : Maps D) (src dst srcStart srcEnd dstStart dstEnd : ℕ) : Prop where
  srcFirst : s.MappedAt src srcStart
  dstFirst : s.MappedAt dst dstStart
  srcMapped : ∀ a, srcStart ≤ a → a < srcEnd → s.MappedAt src a
  dstMapped : ∀ a, dstStart ≤ a → a < dstEnd → s.MappedAt dst a

theorem Allowed.mappedAt {prot : ℕ} (hm : s.table id = some m) (hok : MapOk m l)
    (h : Allowed (l.map m.entry) start stop prot) :
    s.MappedAt id start ∧ ∀ a, start ≤ a → a < stop → s.MappedAt id a :=
  ⟨(mappedAt_iff hm hok).mpr h.first,
    fun a hs he => (mappedAt_iff hm hok).mpr (h.mapped a hs he)⟩

theorem SizedMaps.copyChecks {src dst dstStart dstEnd srcStart srcEnd : ℕ} {dstAlloc : Bool}
    {code : KernReturn} (h : SizedMaps s)
    (hrun : copyChecks s dst src dstStart dstEnd srcStart srcEnd dstAlloc = .ok (code, s')) :
    SizedMaps s' ∧ (code = .success → BothMapped s' src dst srcStart srcEnd dstStart dstEnd) := by
  obtain ⟨m, hm, hrun⟩ := ok_of_bind hrun
  obtain ⟨d, hd, hrun⟩ := ok_of_bind hrun
  replace hm := table_of_getMap hm
  replace hd := table_of_getMap hd
  obtain ⟨lm, hsm⟩ := h.maps src m hm
  obtain ⟨ld, hsd⟩ := h.maps dst d hd
  rw [if_pos ⟨hsm.main, hsd.main⟩] at hrun
  obtain ⟨⟨readable, s₁⟩, hs₁, hrun⟩ := ok_of_bind hrun
  obtain ⟨hread, hint, hhint, rfl⟩ := vmMapCheckProtection_spec hm hsm.ok hs₁
  have h₁ := h.setMap (h.lt hm) (hsm.setHint hhint)
  dsimp only at hrun
  by_cases hr : readable = false
  · rw [if_pos hr] at hrun
    cases hrun
    exact ⟨h₁, fun hc => by cases hc⟩
  rw [if_neg hr] at hrun
  obtain ⟨hsf, hsmap⟩ := (hread.mp (by simpa using hr)).mappedAt
    (s := s.setMap src { m with hint := hint }) setMap_self (hsm.ok.setHint hhint)
  obtain ⟨d₁, hd₁⟩ : ∃ d₁, (s.setMap src { m with hint := hint }).table dst = some d₁ := by
    by_cases hid : dst = src
    · subst hid
      exact ⟨_, setMap_self⟩
    · exact ⟨d, (setMap_of_ne hid).trans hd⟩
  obtain ⟨ld₁, hsd₁⟩ := h₁.maps dst d₁ hd₁
  cases dstAlloc with
  | true =>
    simp only [if_true] at hrun
    refine ⟨h₁.insert hrun, fun hc => ?_⟩
    rcases vmMapInsert_spec hd₁ hsd₁.ok hrun with ⟨hne, -⟩ | ⟨-, ⟨-, hlt, -⟩, m', l', g, rfl, hins⟩
    · exact absurd hc hne
    · obtain ⟨hold, hnew⟩ := hins.mappedAt hd₁ hsd₁.ok hlt
      exact ⟨hold _ _ hsf, hnew _ (Nat.le_refl _) hlt, fun a hs he => hold _ _ (hsmap a hs he),
        hnew⟩
  | false =>
    simp only [Bool.false_eq_true, if_false] at hrun
    obtain ⟨⟨writable, s₂⟩, hs₂, hrun⟩ := ok_of_bind hrun
    obtain ⟨hwrite, hint', hhint', rfl⟩ := vmMapCheckProtection_spec hd₁ hsd₁.ok hs₂
    cases hrun
    refine ⟨h₁.setMap (h₁.lt hd₁) (hsd₁.setHint hhint'), fun hc => ?_⟩
    have hw : writable = true := by
      cases writable
      · cases hc
      · rfl
    have hev : Evolves .same _ _ :=
      .setMap hd₁ hsd₁.ok ((Evolved.refl (V := .same) hsd₁.ok : Evolved _ dst _ _ _ _).setHint hhint')
    obtain ⟨hdf, hdmap⟩ := (hwrite.mp hw).mappedAt hd₁ hsd₁.ok
    exact ⟨hev.mapped hsf, hev.mapped hdf, fun a hs he => hev.mapped (hsmap a hs he),
      fun a hs he => hev.mapped (hdmap a hs he)⟩

theorem copyKept_noMap {src dst : ℕ} : (copyKept src dst).NoMap := by
  intro id r t hrel hr
  have hk : CopyKept src dst id r t := hrel
  exact hk.noMap hr

theorem SizedMaps.copy {src dst dstAddr len srcAddr : ℕ} {dstAlloc srcDestroy : Bool}
    {code : KernReturn} (h : SizedMaps s) (hlen : len < 2 ^ 32) (hsrc : srcAddr < 2 ^ 32)
    (hdst : dstAddr < 2 ^ 32)
    (hrun : vmMapCopy s dst src dstAddr len srcAddr dstAlloc srcDestroy = .ok (code, s')) :
    SizedMaps s' := by
  rw [vmMapCopy, copyNested] at hrun
  dsimp only at hrun
  split at hrun
  · cases hrun
    exact h
  rename_i hwrap
  obtain ⟨⟨result, s₁⟩, hs₁, hrun⟩ := ok_of_bind hrun
  obtain ⟨h₁, hmapped⟩ := h.copyChecks hs₁
  have hlast : ∀ {u : Maps D}, SizedMaps u → (if srcDestroy = true then do
        let s ← vmMapDelete u src srcAddr (u32 (srcAddr + len))
        pure (result, s)
      else pure (result, u) : Except Stop _) = .ok (code, s') → SizedMaps s' := by
    intro u hu hrun
    split at hrun
    · obtain ⟨s₃, hs₃, hrun⟩ := ok_of_bind hrun
      cases hrun
      exact hu.delete hs₃
    · cases hrun
      exact hu
  dsimp only at hrun
  split at hrun
  · rename_i hsuccess
    obtain ⟨s₂, hs₂, hrun⟩ := ok_of_bind hrun
    refine hlast ?_ hrun
    have hsum : srcAddr + len < 2 ^ 32 ∧ dstAddr + len < 2 ^ 32 := by
      rw [u32, u32] at hwrap
      omega
    obtain ⟨hsf, hdf, hsm, hdm⟩ := hmapped hsuccess
    rw [u32_eq hsum.1] at hsm
    rw [u32_eq hsum.2] at hdm
    have hplain : ∀ i e r start stop, s₁.At i e r → r.Meets start stop → r.NoShare := by
      rintro i e r start stop ⟨m, l, hm, hok, he, rfl⟩ - -
      exact (h₁.get hm hok).noMap _ (mem_map_of_mem he)
    have hc : CanCopy s₁ src dst srcAddr dstAddr len := ⟨hsum.1, hsum.2, hsf, hdf, hsm, hdm,
      fun e r => hplain src e r _ _, fun e r => hplain dst e r _ _⟩
    exact h₁.evolves copyKept_noMap (copyRange_kept h₁.good hc hs₂).1
  · exact hlast h₁ hrun

/-! ## Forks -/

/-- The fork of `old` into `new`, with the entries `p` done and `q` still to do. -/
structure Forking (old new : ℕ) (s : Maps D) (p q : List ℕ) (mo m : VmMap) (l : List ℕ) : Prop where
  ne : old ≠ new
  lt : new < s.next
  fresh : ∀ id, s.next ≤ id → s.table id = none
  maps : ∀ id m, id ≠ new → s.table id = some m → ∃ l, Sized m l
  old : s.table old = some mo
  oldOk : MapOk mo (p ++ q)
  copied : ∀ e ∈ p ++ q, (mo.entry e).inheritance = .copy
  new : s.table new = some m
  newOk : MapOk m l
  main : m.isMainMap = true
  noMap : ∀ r ∈ l.map m.entry, ∀ k, r.object ≠ .map k
  bounds : m.minOffset = mo.minOffset ∧ m.maxOffset = mo.maxOffset
  total : total (l.map m.entry) = total (p.map mo.entry)
  before : ∀ e ∈ l, ∀ x ∈ q, (m.entry e).vmeEnd ≤ (mo.entry x).vmeStart

variable {old new : ℕ} {mo : VmMap}

/-- The record that the entry `e` is appended as. -/
def VmMapEntry.forked (r : VmMapEntry) : VmMapEntry :=
  { r with wiredCount := 0, object := .null, isAMap := false }

theorem total_congr {f g : ℕ → VmMapEntry} (h : ∀ e ∈ l, (f e).vmeStart = (g e).vmeStart ∧
    (f e).vmeEnd = (g e).vmeEnd) : total (l.map f) = total (l.map g) := by
  induction l with
  | nil => rfl
  | cons e l ih =>
    obtain ⟨hs, he⟩ := h e mem_cons_self
    rw [map_cons, map_cons, total_cons, total_cons, VmMapEntry.length, VmMapEntry.length,
      hs, he, ih (fun y hy => h y (mem_cons_of_mem _ hy))]

theorem Forking.step (h : Forking old new s p (e :: q) mo m l)
    (hrun : forkCopy s old new e = .ok s') :
    ∃ mo' m' l', Forking old new s' (p ++ [e]) q mo' m' l' ∧ mo'.next = mo.next ∧
      mo'.size = mo.size := by
  have he : e ∈ p ++ e :: q := mem_append_right _ mem_cons_self
  have hval := h.oldOk.valid he
  obtain ⟨lo, hso⟩ := h.maps old mo h.ne h.old
  replace hrun := bind_getMap h.old hrun
  replace hrun := bind_getMap h.new hrun
  have hno : ∀ k, (mo.entry e).object ≠ .map k := by
    have hlo : lo = p ++ e :: q := by rw [← hso.ok.entries_eq, h.oldOk.entries_eq]
    exact hso.noMap _ (mem_map_of_mem (hlo ▸ he))
  split at hrun
  · -- there are no sharing maps
    obtain ⟨o, ho, -⟩ := ok_of_bind hrun
    cases hobj : (mo.entry e).object with
    | null =>
      rw [hobj] at hrun
      cases hrun
    | object o' =>
      rw [hobj] at ho
      cases ho
    | map k => exact absurd hobj (hno k)
  rename_i hmap
  have hlast : m.prev 0 = l.getLastD 0 := h.newOk.ring.prev_header
  have hnew : MapOk m (l ++ []) := by
    rw [append_nil]
    exact h.newOk
  have hminmax := h.bounds
  obtain ⟨hok₁, hrecs, hheader⟩ := hnew.link (mo.entry e).forked
    ⟨by rw [hminmax.1]; exact hval.1, hval.2.1, by rw [hminmax.2]; exact hval.2.2⟩
    (fun y hy => h.before y hy e mem_cons_self) (by simp)
  have happend : m.appendEntry (mo.entry e).forked = VmMap.entryLink { m with
      fresh := m.fresh + 1
      entry := update m.entry m.fresh (mo.entry e).forked } (l.getLastD 0) m.fresh := by
    rw [← hlast]
    rfl
  change vmMapCopyEntry (s.setMap new (m.appendEntry (mo.entry e).forked)) old new e m.fresh =
    .ok s' at hrun
  rw [happend] at hrun
  generalize hm₁ : VmMap.entryLink { m with
    fresh := m.fresh + 1
    entry := update m.entry m.fresh (mo.entry e).forked } (l.getLastD 0) m.fresh = m₁
    at hok₁ hrun
  have hentry : m₁.entry = update m.entry m.fresh (mo.entry e).forked := by rw [← hm₁]; rfl
  rw [← hentry] at hrecs hheader
  have hold₁ : (s.setMap new m₁).table old = some mo := (setMap_of_ne h.ne).trans h.old
  have hat : (s.setMap new m₁).At old e (mo.entry e) := ⟨mo, _, hold₁, h.oldOk, he, rfl⟩
  have hat' : (s.setMap new m₁).At new m.fresh (mo.entry e).forked := by
    refine ⟨m₁, _, setMap_self, hok₁, mem_append_right _ mem_cons_self, ?_⟩
    rw [hentry, update_self]
  obtain ⟨hev, -⟩ := vmMapCopyEntry_kept hat hat' (fun hand => h.ne hand.1)
    (by simpa using hmap) rfl hrun
  have hlayout := vmMapCopyEntry_layout hrun
  obtain ⟨mo', hmo', hevo, hnext, hext⟩ := hlayout.list hev hold₁ h.oldOk
  obtain ⟨m', hm', hevn, -, hext'⟩ := hlayout.list hev setMap_self hok₁
  refine ⟨mo', m', l ++ m.fresh :: [], ⟨h.ne, ?_, ?_, ?_, hmo', ?_, ?_, hm', hevn.ok, ?_, ?_, ?_, ?_,
    ?_⟩, hnext, hevo.size⟩
  · rw [hev.next]
    exact h.lt
  · intro id hle
    rw [hev.next] at hle
    apply hev.free
    have hid : id ≠ new := Nat.ne_of_gt (Nat.lt_of_lt_of_le h.lt hle)
    exact (setMap_of_ne hid).trans (h.fresh id hle)
  · intro id m₂ hid hm₂
    cases hm : s.table id with
    | none =>
      cases (hev.free id ((setMap_of_ne hid).trans hm)).symm.trans hm₂
    | some m₃ =>
      obtain ⟨l₃, hs₃⟩ := h.maps id m₃ hid hm
      obtain ⟨m₄, l₄, hm₄, hevd⟩ := hev.maps id m₃ l₃ ((setMap_of_ne hid).trans hm) hs₃.ok
      cases hm₄.symm.trans hm₂
      exact ⟨l₄, hs₃.evolved copyKept_noMap hevd⟩
  · rw [append_assoc, singleton_append]
    exact hevo.ok
  · intro x hx
    rw [append_assoc, singleton_append] at hx
    obtain ⟨r, hr, hp⟩ := hevo.parts _ (mem_map_of_mem hx)
    obtain ⟨y, hy, rfl⟩ := mem_map.mp hr
    have hk : CopyKept old new old ((mo.entry y).clipTo (mo'.entry x).vmeStart)
        ((mo'.entry x).clipTo (mo'.entry x).vmeStart) := hp.change _ (Nat.le_refl _)
    exact (show (mo'.entry x).inheritance = (mo.entry y).inheritance from hk.inheritance).trans
      (h.copied y hy)
  · have hmain : m₁.isMainMap = m.isMainMap := by rw [← hm₁]; rfl
    rw [hevn.isMainMap, hmain]
    exact h.main
  · refine hevn.noMap copyKept_noMap ?_
    rw [hrecs]
    intro r hr
    rcases mem_append.mp hr with hr | hr
    · exact h.noMap r hr
    · rw [map_nil, mem_singleton] at hr
      rw [hr]
      exact fun k hk => by cases hk
  · rw [VmMap.minOffset, VmMap.maxOffset, VmMap.minOffset, VmMap.maxOffset, hevn.header, hheader,
      hevo.header]
    exact h.bounds
  · rw [hevn.total, hrecs, total_append, h.total, map_append, total_append]
    rw [total_congr (fun y _ => hext y), map_nil, map_cons, map_nil, total_cons,
      total_cons, VmMapEntry.length, VmMapEntry.length, (hext e).1, (hext e).2]
    rfl
  · intro y hy x hx
    rw [(hext' y).2, (hext x).1, hentry]
    rcases mem_append.mp hy with hy | hy
    · have hne : y ≠ m.fresh := by
        rintro rfl
        exact h.newOk.fresh_notMem (mem_cons_of_mem _ hy)
      rw [update_of_ne hne]
      exact h.before y hy x (mem_cons_of_mem _ hx)
    · rw [mem_singleton.mp hy, update_self]
      exact h.oldOk.end_le hx

theorem Forking.loop {fuel : ℕ} : ∀ {s : Maps D} {p q : List ℕ} {mo m : VmMap} {l : List ℕ},
    Forking old new s p q mo m l → forkLoop old new fuel s (q.headD 0) = .ok s' →
      ∃ p' mo' m' l', Forking old new s' p' [] mo' m' l' ∧ mo'.size = mo.size := by
  induction fuel with
  | zero =>
    intro s p q mo m l _ hrun
    cases hrun
  | succ fuel ih =>
    intro s p q mo m l h hrun
    cases q with
    | nil =>
      cases hrun
      exact ⟨p, mo, m, l, h, rfl⟩
    | cons e q =>
      have he : e ∈ p ++ e :: q := mem_append_right _ mem_cons_self
      rw [forkLoop, headD_cons, if_neg (h.oldOk.pos he)] at hrun
      replace hrun := bind_getMap h.old hrun
      dsimp only at hrun
      split at hrun
      · cases hrun
      · rw [h.copied e he] at hrun
        obtain ⟨s₁, hs₁, hrun⟩ := ok_of_bind hrun
        obtain ⟨mo₁, m₁, l₁, h₁, hnext, hsize⟩ := h.step hs₁
        replace hrun := bind_getMap h₁.old hrun
        rw [hnext, h.oldOk.ring.next_mem] at hrun
        obtain ⟨p', mo', m', l', h', hsize'⟩ := ih h₁ hrun
        exact ⟨p', mo', m', l', h', hsize'.trans hsize⟩

theorem SizedMaps.fork (h : SizedMaps s) {mo : VmMap} (hold : s.table old = some mo)
    (hcopied : ∀ e ∈ mo.entries, (mo.entry e).inheritance = .copy)
    (hrun : vmMapFork s old = .ok (new, s')) : SizedMaps s' := by
  replace hrun := bind_getMap hold hrun
  obtain ⟨lo, hso⟩ := h.maps old mo hold
  have hlt := h.lt hold
  obtain ⟨m₀, heq, hok₀, hsize₀, hmain₀, hmin₀, hmax₀⟩ :=
    vmMapCreate_spec s mo.minOffset hso.ok.bound
  have hcreate := h.create mo.minOffset hso.ok.bound
  rw [heq] at hcreate hrun
  dsimp only at hrun hcreate
  rw [hso.ok.entries_eq] at hcopied
  have hstart : Forking old s.next { s.setMap s.next m₀ with next := s.next + 1 } [] lo mo m₀ [] := by
    refine ⟨Nat.ne_of_lt hlt, Nat.lt_succ_self _, hcreate.fresh, fun id m _ => hcreate.maps id m,
      (setMap_of_ne (Nat.ne_of_lt hlt)).trans hold, hso.ok, hcopied, setMap_self, hok₀,
      hmain₀, by simp, ⟨hmin₀, hmax₀⟩, rfl, by simp⟩
  obtain ⟨s₁, hs₁, hrun⟩ := ok_of_bind hrun
  rw [hso.ok.ring.next_header] at hs₁
  obtain ⟨p, mo₁, m₁, l₁, h₁, hsize⟩ := hstart.loop hs₁
  replace hrun := bind_getMap h₁.old hrun
  replace hrun := bind_getMap h₁.new hrun
  cases hrun
  -- everything has been copied, so that the size of the parent is right for the child
  have hsized₁ : Sized mo₁ p := by
    obtain ⟨l, hs⟩ := h₁.maps old mo₁ h₁.ne h₁.old
    have hok := h₁.oldOk
    rw [append_nil] at hok
    have hl : l = p := by rw [← hs.ok.entries_eq, hok.entries_eq]
    exact hl ▸ hs
  have hnew : Sized { m₁ with size := mo₁.size } l₁ :=
    ⟨h₁.newOk.setSize _, h₁.main, hsized₁.size.trans h₁.total.symm, h₁.noMap⟩
  constructor
  · intro id m hm
    by_cases hid : id = s.next
    · subst hid
      cases setMap_self.symm.trans hm
      exact ⟨l₁, hnew⟩
    · exact h₁.maps id m hid ((setMap_of_ne hid).symm.trans hm)
  · intro id hle
    have hid : id ≠ s.next := Nat.ne_of_gt (Nat.lt_of_lt_of_le h₁.lt hle)
    exact (setMap_of_ne hid).trans (h₁.fresh id hle)

/-! ## Runs -/

/-- A call of one of the operations. -/
inductive MapCall where
  | create (min max : ℕ)
  | insert (id : ℕ) (object : Option ℕ) (offset start stop : ℕ)
  | find (id : ℕ) (object : Option ℕ) (offset addr length : ℕ) (findSpace : Bool)
  | findEntry (id size mask : ℕ) (object : Option ℕ)
  | inherit (id start stop : ℕ) (newInheritance : VmInherit)
  | remove (id start stop : ℕ)
  | copy (dst src dstAddr len srcAddr : ℕ) (dstAlloc srcDestroy : Bool)
  | fork (old : ℕ)

/-- The maps after a call; what the call answers is left out. -/
def Maps.call (s : Maps D) : MapCall → Except Stop (Maps D)
  | .create min max => .ok (vmMapCreate s min max).2
  | .insert id object offset start stop => do
    let (_, s) ← vmMapInsert s id object offset start stop
    return s
  | .find id object offset addr length findSpace => do
    let (_, _, s) ← vmMapFind s id object offset addr length findSpace
    return s
  | .findEntry id size mask object => do
    let (_, _, _, s) ← vmMapFindEntry s id size mask object
    return s
  | .inherit id start stop newInheritance => do
    let (_, s) ← vmMapInherit s id start stop newInheritance
    return s
  | .remove id start stop => do
    let (_, s) ← vmMapRemove s id start stop
    return s
  | .copy dst src dstAddr len srcAddr dstAlloc srcDestroy => do
    let (_, s) ← vmMapCopy s dst src dstAddr len srcAddr dstAlloc srcDestroy
    return s
  | .fork old => do
    let (_, s) ← vmMapFork s old
    return s

/-- Addresses and sizes are words. -/
def MapCall.Words : MapCall → Prop
  | .create _ max => max < 2 ^ 32
  | .findEntry _ size _ _ => size < 2 ^ 32
  | .copy _ _ dstAddr len srcAddr _ _ => dstAddr < 2 ^ 32 ∧ len < 2 ^ 32 ∧ srcAddr < 2 ^ 32
  | _ => True

/-- A fork finds only entries that are to be copied, and a search for an entry does not round
an address up past the last one. -/
def MapCall.SizeKept (s : Maps D) : MapCall → Prop
  | .findEntry id size mask _ => ∀ m, s.table id = some m → FindEntrySafe m size mask
  | .fork old => ∀ m, s.table old = some m → ∀ e ∈ m.entries, (m.entry e).inheritance = .copy
  | _ => True

def Maps.CallStep (s : Maps D) (c : MapCall) (s' : Maps D) : Prop := c.Words ∧ s.call c = .ok s'

theorem SizedMaps.step {c : MapCall} (h : SizedMaps s) (hkept : c.SizeKept s)
    (hstep : s.CallStep c s') : SizedMaps s' := by
  obtain ⟨hwords, hrun⟩ := hstep
  cases c with
  | create min max =>
    cases hrun
    exact h.create _ hwords
  | insert id object offset start stop =>
    obtain ⟨⟨code, s₁⟩, hs₁, hrun⟩ := ok_of_bind hrun
    cases hrun
    exact h.insert hs₁
  | find id object offset addr length findSpace =>
    obtain ⟨⟨code, addr', s₁⟩, hs₁, hrun⟩ := ok_of_bind hrun
    cases hrun
    exact h.find hs₁
  | findEntry id size mask object =>
    obtain ⟨⟨code, addr, e, s₁⟩, hs₁, hrun⟩ := ok_of_bind hrun
    cases hrun
    exact h.findEntry hwords hkept hs₁
  | inherit id start stop newInheritance =>
    obtain ⟨⟨code, s₁⟩, hs₁, hrun⟩ := ok_of_bind hrun
    cases hrun
    exact h.inherit hs₁
  | remove id start stop =>
    obtain ⟨⟨code, s₁⟩, hs₁, hrun⟩ := ok_of_bind hrun
    cases hrun
    exact h.remove hs₁
  | copy dst src dstAddr len srcAddr dstAlloc srcDestroy =>
    obtain ⟨⟨code, s₁⟩, hs₁, hrun⟩ := ok_of_bind hrun
    cases hrun
    exact h.copy hwords.2.1 hwords.2.2 hwords.1 hs₁
  | fork old =>
    obtain ⟨⟨new, s₁⟩, hs₁, hrun⟩ := ok_of_bind hrun
    cases hrun
    have hmap := hs₁
    obtain ⟨mo, hmo, -⟩ := ok_of_bind hmap
    replace hmo := table_of_getMap hmo
    exact h.fork hmo (hkept mo hmo) hs₁

theorem total_sublist {es : List ℕ} (h : es.Sublist l) (f : ℕ → VmMapEntry) :
    total (es.map f) ≤ total (l.map f) := by
  induction h with
  | slnil => exact Nat.le_refl _
  | cons e _ ih =>
    rw [map_cons, total_cons]
    omega
  | cons_cons e _ ih =>
    rw [map_cons, map_cons, total_cons, total_cons]
    omega

/-- In such runs the size of every map is the sum of the lengths of its entries, so that no
deletion of entries subtracts more than there is. -/
theorem map_size_is_sum {s₀ : Maps D} {calls : List MapCall} (hnone : ∀ id, s₀.table id = none)
    (hrun : RunUnder MapCall.SizeKept Maps.CallStep s₀ calls s) (hm : s.table id = some m) :
    m.size = total (m.entries.map m.entry) ∧
      ∀ es : List ℕ, es.Sublist m.entries → total (es.map m.entry) ≤ m.size := by
  have hstart : SizedMaps s₀ := by
    refine ⟨fun id m hm => ?_, fun id _ => hnone id⟩
    cases (hnone id).symm.trans hm
  have hsized : SizedMaps s :=
    hrun.invariant (fun s c s' h hkept hstep => h.step hkept hstep) hstart
  obtain ⟨l, hs⟩ := hsized.maps id m hm
  have hsize : m.size = total (m.entries.map m.entry) := by
    rw [hs.ok.entries_eq]
    exact hs.size
  exact ⟨hsize, fun es hes => (total_sublist hes m.entry).trans_eq hsize.symm⟩

/-- A map with one page, and its fork. -/
theorem map_size_is_sum_fork : ∃ (s : Maps ℕ) (m : VmMap), s.table 1 = some m ∧ m.size = 4096 ∧
    m.size = total (m.entries.map m.entry) := by
  obtain ⟨s₁, s₂, s₃, m, h₁, h₂, hcopied, h₃, hm, hsize⟩ : ∃ s₁ s₂ s₃ m,
      (empty ℕ).call (.create 4096 65536) = .ok s₁ ∧
      s₁.call (.insert 0 none 0 4096 8192) = .ok s₂ ∧
      (∀ m, s₂.table 0 = some m → ∀ e ∈ m.entries, (m.entry e).inheritance = .copy) ∧
      s₂.call (.fork 0) = .ok s₃ ∧ s₃.table 1 = some m ∧ m.size = 4096 := by
    refine ⟨_, _, _, _, rfl, rfl, fun m hm => ?_, rfl, rfl, rfl⟩
    cases hm
    decide
  have hwords : 65536 < 2 ^ 32 := by decide
  have hrun : RunUnder MapCall.SizeKept Maps.CallStep (empty ℕ)
      ((([] ++ [.create 4096 65536]) ++ [.insert 0 none 0 4096 8192]) ++ [.fork 0]) s₃ :=
    .snoc (.snoc (.snoc (.nil _) ⟨trivial, hwords, h₁⟩) ⟨trivial, trivial, h₂⟩)
      ⟨hcopied, trivial, h₃⟩
  exact ⟨s₃, m, hm, hsize, (map_size_is_sum (fun _ => rfl) hrun hm).1⟩

/-- One page of three is not inherited and one is shared: the child is too small for its
size, and the sharing map has an entry but no size. -/
theorem map_size_is_not_sum : ∃ (calls : List MapCall) (s : Maps ℕ) (child share : VmMap),
    Run Maps.CallStep (empty ℕ) calls s ∧ s.table 1 = some child ∧ child.size = 12288 ∧
      total (child.entries.map child.entry) = 8192 ∧ s.table 2 = some share ∧ share.size = 0 ∧
      total (share.entries.map share.entry) = 4096 := by
  obtain ⟨s₁, s₂, s₃, s₄, s₅, child, share, h₁, h₂, h₃, h₄, h₅, hrest⟩ : ∃ s₁ s₂ s₃ s₄ s₅ child
      share, (empty ℕ).call (.create 4096 65536) = .ok s₁ ∧
      s₁.call (.insert 0 none 0 4096 16384) = .ok s₂ ∧
      s₂.call (.inherit 0 8192 12288 .none) = .ok s₃ ∧
      s₃.call (.inherit 0 12288 16384 .share) = .ok s₄ ∧ s₄.call (.fork 0) = .ok s₅ ∧
      s₅.table 1 = some child ∧ child.size = 12288 ∧ total (child.entries.map child.entry) = 8192 ∧
      s₅.table 2 = some share ∧ share.size = 0 ∧ total (share.entries.map share.entry) = 4096 :=
    ⟨_, _, _, _, _, _, _, rfl, rfl, rfl, rfl, rfl, rfl, rfl, by decide, rfl, rfl, by decide⟩
  have hwords : 65536 < 2 ^ 32 := by decide
  have hrun : Run Maps.CallStep (empty ℕ) ((((([] ++ [.create 4096 65536]) ++
      [.insert 0 none 0 4096 16384]) ++ [.inherit 0 8192 12288 .none]) ++
      [.inherit 0 12288 16384 .share]) ++ [.fork 0]) s₅ :=
    .snoc (.snoc (.snoc (.snoc (.snoc (.nil _) ⟨hwords, h₁⟩) ⟨trivial, h₂⟩) ⟨trivial, h₃⟩)
      ⟨trivial, h₄⟩) ⟨trivial, h₅⟩
  exact ⟨_, s₅, child, share, hrun, hrest⟩

end Darwin.Vm
