import Darwin.Vm.MapOk

/-! # Lookups and clips in the table of maps

What they leave of the maps: a lookup moves a hint, a clip cuts an entry in two and takes a
reference, and nothing that is seen at an address changes.
-/
namespace Darwin.Vm
open Darwin.Lib Function List

theorem ok_of_bind {ε α β : Type} {x : Except ε α} {f : α → Except ε β} {b : β}
    (h : (x >>= f) = .ok b) : ∃ a, x = .ok a ∧ f a = .ok b := by
  cases x with
  | error e => cases h
  | ok a => exact ⟨a, rfl, h⟩

variable {D : Type} {s s' s'' : Maps D} {m m' : VmMap} {l p q : List ℕ} {id e x a : ℕ}

namespace Maps

theorem getMap_eq (h : s.table id = some m) : s.getMap id = .ok m := by
  rw [getMap, h]

theorem table_of_getMap (h : s.getMap id = .ok m) : s.table id = some m := by
  rw [getMap] at h
  cases hm : s.table id with
  | none =>
    rw [hm] at h
    cases h
  | some m' =>
    rw [hm] at h
    exact congrArg some (Except.ok.inj h)

theorem bind_getMap {β : Type} {f : VmMap → Except Stop β} {b : β} (hm : s.table id = some m)
    (h : (s.getMap id >>= f) = .ok b) : f m = .ok b := by
  rw [getMap_eq hm] at h
  exact h

@[simp] theorem setMap_self : (s.setMap id m).table id = some m := update_self _ _ _

theorem setMap_of_ne {id' : ℕ} (h : id' ≠ id) : (s.setMap id m).table id' = s.table id' :=
  update_of_ne h _ _

@[simp] theorem freeMap_self : (s.freeMap id).table id = none := update_self _ _ _

theorem freeMap_of_ne {id' : ℕ} (h : id' ≠ id) : (s.freeMap id).table id' = s.table id' :=
  update_of_ne h _ _

end Maps

/-! ## References -/

/-- The two states have the same maps, apart from their reference counts. -/
structure Recounted (s s' : Maps D) : Prop where
  table : ∀ id, (s'.table id).map (fun m => { m with refCount := 0 }) =
    (s.table id).map (fun m => { m with refCount := 0 })
  next : s'.next = s.next
  zone : s'.zone = s.zone
  faults : s'.faults = s.faults
  kernelObject : s'.kernelObject = s.kernelObject
  vmSubmapObject : s'.vmSubmapObject = s.vmSubmapObject

namespace Recounted

theorem refl (s : Maps D) : Recounted s s := ⟨fun _ => rfl, rfl, rfl, rfl, rfl, rfl⟩

theorem trans (h : Recounted s s') (h' : Recounted s' s'') : Recounted s s'' :=
  ⟨fun id => (h'.table id).trans (h.table id), h'.next.trans h.next, h'.zone.trans h.zone,
    h'.faults.trans h.faults, h'.kernelObject.trans h.kernelObject,
    h'.vmSubmapObject.trans h.vmSubmapObject⟩

theorem symm (h : Recounted s s') : Recounted s' s :=
  ⟨fun id => (h.table id).symm, h.next.symm, h.zone.symm, h.faults.symm, h.kernelObject.symm,
    h.vmSubmapObject.symm⟩

theorem get (h : Recounted s s') (hm : s.table id = some m) :
    ∃ c, s'.table id = some { m with refCount := c } := by
  have htable := h.table id
  rw [hm, Option.map_some, Option.map_eq_some_iff] at htable
  obtain ⟨m', hm', heq⟩ := htable
  refine ⟨m'.refCount, hm'.trans (congrArg some ?_)⟩
  cases m'
  cases m
  simp only [VmMap.mk.injEq] at heq ⊢
  tauto

theorem objects (s : Maps D) (g : Objects D) : Recounted s { s with objects := g } :=
  ⟨fun _ => rfl, rfl, rfl, rfl, rfl, rfl⟩

theorem setMap (hm : s.table id = some m) (c : ℤ) :
    Recounted s (s.setMap id { m with refCount := c }) := by
  refine ⟨fun id' => ?_, rfl, rfl, rfl, rfl, rfl⟩
  by_cases hid : id' = id
  · subst hid
    rw [Maps.setMap_self, hm]
    rfl
  · rw [Maps.setMap_of_ne hid]

end Recounted

theorem vmMapReference_spec {o : Option ℕ} (h : vmMapReference s o = .ok s') :
    Recounted s s' := by
  cases o with
  | none =>
    cases h
    exact .refl s
  | some id =>
    obtain ⟨m, hm, h⟩ := ok_of_bind h
    cases h
    exact .setMap (Maps.table_of_getMap hm) _

theorem clipReference_spec {r : VmMapEntry} (h : clipReference s r = .ok s') :
    Recounted s s' := by
  rw [clipReference] at h
  split at h
  · obtain ⟨id, -, h⟩ := ok_of_bind h
    exact vmMapReference_spec h
  · obtain ⟨o, -, h⟩ := ok_of_bind h
    obtain ⟨g, -, h⟩ := ok_of_bind h
    cases h
    exact .objects s g

/-! ## Clips -/

/-- The map shows the same, with other entries. -/
structure Reshaped (m m' : VmMap) (l l' : List ℕ) : Prop where
  ok : MapOk m' l'
  view : ∀ a, viewOf (l'.map m'.entry) a = viewOf (l.map m.entry) a
  total : total (l'.map m'.entry) = total (l.map m.entry)
  pieces : PiecesOf (l'.map m'.entry) (l.map m.entry)
  header : m'.entry 0 = m.entry 0
  size : m'.size = m.size
  firstFree : m'.firstFree = m.firstFree
  isMainMap : m'.isMainMap = m.isMainMap

theorem u32Sub_of_valid (h : MapOk m l) (he : e ∈ l) (hs : (m.entry e).vmeStart ≤ x)
    (hx : x ≤ (m.entry e).vmeEnd) : u32Sub x (m.entry e).vmeStart = x - (m.entry e).vmeStart := by
  apply u32Sub_eq hs
  have hval := h.valid he
  have hbound := h.bound
  omega

theorem cut_records {f : ℕ → VmMapEntry} {c d : ℕ} (hc : f c = (m.entry e).front x) (hd : f d = (m.entry e).back x)
    (hsame : ∀ y ∈ p ++ q, f y = m.entry y) : (p ++ c :: d :: q).map f =
      p.map m.entry ++ (m.entry e).front x :: (m.entry e).back x :: q.map m.entry := by
  rw [map_append, map_cons, map_cons, hc, hd,
    map_congr_left (fun y hy => hsame y (mem_append_left _ hy)),
    map_congr_left (fun y hy => hsame y (mem_append_right _ hy))]

namespace MapOk

theorem cut (h : MapOk m (p ++ e :: q)) (hs : (m.entry e).vmeStart ≤ x)
    (hx : x < (m.entry e).vmeEnd) {f : ℕ → VmMapEntry} {c d : ℕ}
    (hc : f c = (m.entry e).front x) (hd : f d = (m.entry e).back x)
    (hsame : ∀ y ∈ p ++ q, f y = m.entry y) :
    Laid m.minOffset m.maxOffset ((p ++ c :: d :: q).map f) ∧
      (∀ a, viewOf ((p ++ c :: d :: q).map f) a = viewOf ((p ++ e :: q).map m.entry) a) ∧
      total ((p ++ c :: d :: q).map f) = total ((p ++ e :: q).map m.entry) ∧
      PiecesOf ((p ++ c :: d :: q).map f) ((p ++ e :: q).map m.entry) := by
  have hlaid := h.laid
  rw [map_append, map_cons] at hlaid
  rw [cut_records hc hd hsame, map_append, map_cons]
  refine ⟨hlaid.clip hs (Nat.le_of_lt hx), ?_, ?_, piecesOf_clip hs hx⟩
  · intro a
    rw [viewOf_append, viewOf_clip hs (Nat.le_of_lt hx), viewOf_append]
  · rw [total_append, total_clip hs (Nat.le_of_lt hx), total_append]

theorem other_ne (h : MapOk m (p ++ e :: q)) {y : ℕ} (hy : y ∈ p ++ q) :
    y ≠ e ∧ y ≠ m.fresh := by
  constructor
  · rintro rfl
    rcases mem_append.mp hy with hy | hy
    · exact h.notMem_left hy
    · exact h.notMem_right hy
  · rintro rfl
    apply h.fresh_notMem
    simp only [mem_cons, mem_append] at hy ⊢
    tauto

theorem mid_ne (h : MapOk m (p ++ e :: q)) : 0 ≠ e ∧ e ≠ m.fresh ∧ 0 ≠ m.fresh := by
  have he : e ∈ p ++ e :: q := mem_append_right _ mem_cons_self
  exact ⟨(h.pos he).symm, fun heq => h.fresh_notMem (heq ▸ mem_cons_of_mem _ he),
    fun heq => h.fresh_notMem (heq ▸ mem_cons_self)⟩

theorem clipStart (h : MapOk m (p ++ e :: q)) (hs : (m.entry e).vmeStart ≤ x)
    (hx : x < (m.entry e).vmeEnd) :
    Reshaped m (m.clipStart e x) (p ++ e :: q) (p ++ m.fresh :: e :: q) ∧
      (m.clipStart e x).entry m.fresh = (m.entry e).front x ∧
      (m.clipStart e x).entry e = (m.entry e).back x ∧
      ∀ y ∈ p ++ q, (m.clipStart e x).entry y = m.entry y := by
  have hsub := u32Sub_of_valid h (mem_append_right _ mem_cons_self) hs (Nat.le_of_lt hx)
  obtain ⟨he0, hfe, hf0⟩ := h.mid_ne
  have hfront : (m.clipStart e x).entry m.fresh = (m.entry e).front x := by
    simp only [VmMap.clipStart, VmMap.entryLink, update_of_ne hfe.symm,
      update_self]
    rfl
  have hback : (m.clipStart e x).entry e = (m.entry e).back x := by
    simp only [VmMap.clipStart, VmMap.entryLink, update_self, hsub]
    rfl
  have hsame : ∀ y ∈ p ++ q, (m.clipStart e x).entry y = m.entry y := by
    intro y hy
    simp only [VmMap.clipStart, VmMap.entryLink, update_of_ne (h.other_ne hy).1,
      update_of_ne (h.other_ne hy).2]
  have hheader : (m.clipStart e x).entry 0 = m.entry 0 := by
    simp only [VmMap.clipStart, VmMap.entryLink, update_of_ne he0,
      update_of_ne hf0]
  obtain ⟨hlaid, hview, htotal, hpieces⟩ := h.cut hs hx hfront hback hsame
  have hgrow := h.grow (f := (m.clipStart e x).entry) hheader hlaid h.ring.prev_mem.symm
  exact ⟨⟨hgrow, hview, htotal, hpieces, hheader, rfl, rfl, rfl⟩, hfront, hback, hsame⟩

theorem clipEnd (h : MapOk m (p ++ e :: q)) (hs : (m.entry e).vmeStart ≤ x)
    (hx : x < (m.entry e).vmeEnd) :
    Reshaped m (m.clipEnd e x) (p ++ e :: q) (p ++ e :: m.fresh :: q) ∧
      (m.clipEnd e x).entry e = (m.entry e).front x ∧
      (m.clipEnd e x).entry m.fresh = (m.entry e).back x ∧
      ∀ y ∈ p ++ q, (m.clipEnd e x).entry y = m.entry y := by
  have hsub := u32Sub_of_valid h (mem_append_right _ mem_cons_self) hs (Nat.le_of_lt hx)
  obtain ⟨he0, hfe, hf0⟩ := h.mid_ne
  have hfront : (m.clipEnd e x).entry e = (m.entry e).front x := by
    simp only [VmMap.clipEnd, VmMap.entryLink, update_self]
    rfl
  have hback : (m.clipEnd e x).entry m.fresh = (m.entry e).back x := by
    simp only [VmMap.clipEnd, VmMap.entryLink, update_of_ne hfe.symm,
      update_self, hsub]
    rfl
  have hsame : ∀ y ∈ p ++ q, (m.clipEnd e x).entry y = m.entry y := by
    intro y hy
    simp only [VmMap.clipEnd, VmMap.entryLink, update_of_ne (h.other_ne hy).1,
      update_of_ne (h.other_ne hy).2]
  have hheader : (m.clipEnd e x).entry 0 = m.entry 0 := by
    simp only [VmMap.clipEnd, VmMap.entryLink, update_of_ne he0,
      update_of_ne hf0]
  obtain ⟨hlaid, hview, htotal, hpieces⟩ := h.cut hs hx hfront hback hsame
  have h' : MapOk m ((p ++ [e]) ++ q) := by
    rwa [append_assoc, singleton_append]
  have hgrow := h'.grow (f := (m.clipEnd e x).entry) hheader
    (by rwa [append_assoc, singleton_append]) getLastD_concat
  rw [append_assoc, singleton_append] at hgrow
  exact ⟨⟨hgrow, hview, htotal, hpieces, hheader, rfl, rfl, rfl⟩, hfront, hback, hsame⟩

end MapOk

/-! ## In the table -/

theorem Recounted.update (h : Recounted s s') (id : ℕ) (m : VmMap) :
    Recounted (s.setMap id m) (s'.setMap id m) := by
  refine ⟨fun id' => ?_, h.next, h.zone, h.faults, h.kernelObject, h.vmSubmapObject⟩
  by_cases hid : id' = id
  · subst hid
    rw [Maps.setMap_self, Maps.setMap_self]
  · rw [Maps.setMap_of_ne hid, Maps.setMap_of_ne hid, h.table]

theorem Maps.setMap_setMap : (s.setMap id m).setMap id m' = s.setMap id m' := by
  rw [setMap, setMap, setMap]
  simp only [update_idem]

theorem Maps.setMap_eq_self (h : s.table id = some m) : s.setMap id m = s := by
  rw [setMap, ← h, update_eq_self]

/-- The map `id` has become `m'`, and of the other maps only the counts have changed. -/
def Becomes (s : Maps D) (id : ℕ) (m' : VmMap) (s' : Maps D) : Prop :=
  Recounted (s.setMap id m') s' ∧ s'.table id = some m'

theorem Becomes.refl (h : s.table id = some m) : Becomes s id m s := by
  refine ⟨?_, h⟩
  rw [Maps.setMap_eq_self h]
  exact .refl s

theorem Becomes.trans {m'' : VmMap} (h : Becomes s id m' s') (h' : Becomes s' id m'' s'') :
    Becomes s id m'' s'' := by
  refine ⟨?_, h'.2⟩
  have hupdate := h.1.update id m''
  rw [Maps.setMap_setMap] at hupdate
  exact hupdate.trans h'.1

theorem becomes_of_recounted (h : Recounted (s.setMap id m) s') :
    ∃ c, Becomes s id { m with refCount := c } s' := by
  obtain ⟨c, hc⟩ := h.get Maps.setMap_self
  have hself : Recounted (s.setMap id m) (s.setMap id { m with refCount := c }) := by
    have hset := Recounted.setMap (s := s.setMap id m) Maps.setMap_self c
    rwa [Maps.setMap_setMap] at hset
  exact ⟨c, hself.symm.trans h, hc⟩

namespace Reshaped
variable {l' l'' : List ℕ}

theorem refl (h : MapOk m l) : Reshaped m m l l :=
  ⟨h, fun _ => rfl, rfl, .refl _, rfl, rfl, rfl, rfl⟩

theorem recount (h : Reshaped m m' l l') (c : ℤ) : Reshaped m { m' with refCount := c } l l' :=
  ⟨h.ok.setRefCount c, h.view, h.total, h.pieces, h.header, h.size, h.firstFree,
    h.isMainMap⟩

theorem setHint (h : Reshaped m m' l l') (hx : x ∈ 0 :: l') :
    Reshaped m { m' with hint := x } l l' :=
  ⟨h.ok.setHint hx, h.view, h.total, h.pieces, h.header, h.size, h.firstFree, h.isMainMap⟩

theorem of_hint (h : Reshaped { m with hint := x } m' l l') : Reshaped m m' l l' :=
  ⟨h.ok, h.view, h.total, h.pieces, h.header, h.size, h.firstFree, h.isMainMap⟩

end Reshaped

theorem vmMapClipStart_spec (hm : s.table id = some m) (hok : MapOk m (p ++ e :: q))
    (hx : x < (m.entry e).vmeEnd) (h : vmMapClipStart s id e x = .ok s') :
    ∃ m' p', Becomes s id m' s' ∧ Reshaped m m' (p ++ e :: q) (p' ++ e :: q) ∧
      (∀ y ∈ p', (m'.entry y).vmeEnd ≤ max (m.entry e).vmeStart x) ∧
      (m'.entry e).vmeStart = max (m.entry e).vmeStart x ∧
      (m'.entry e).vmeEnd = (m.entry e).vmeEnd ∧ m'.hint = m.hint ∧
      (∀ y ∈ p ++ q, m'.entry y = m.entry y) ∧ p ⊆ p' := by
  rw [vmMapClipStart, Maps.getMap_eq hm] at h
  change ite _ _ _ = _ at h
  split at h
  · rename_i hlt
    obtain ⟨hre, hfront, hback, hsame⟩ := hok.clipStart (Nat.le_of_lt hlt) hx
    obtain ⟨c, hb⟩ := becomes_of_recounted (clipReference_spec h)
    have hmax : max (m.entry e).vmeStart x = x := max_eq_right (Nat.le_of_lt hlt)
    have hre' : Reshaped m { m.clipStart e x with refCount := c } (p ++ e :: q)
        ((p ++ [m.fresh]) ++ e :: q) := by
      rw [append_assoc, singleton_append]
      exact hre.recount c
    refine ⟨_, _, hb, hre', ?_, ?_, ?_, rfl, hsame, subset_append_left p [m.fresh]⟩
    · intro y hy
      refine (hre'.ok.sorted hy mem_cons_self).trans ?_
      change ((m.clipStart e x).entry e).vmeStart ≤ _
      rw [hback, hmax]
      exact Nat.le_refl x
    · rw [hmax]
      change ((m.clipStart e x).entry e).vmeStart = x
      rw [hback]
      rfl
    · change ((m.clipStart e x).entry e).vmeEnd = _
      rw [hback]
      rfl
  · rename_i hlt
    cases h
    have hmax : max (m.entry e).vmeStart x = (m.entry e).vmeStart :=
      max_eq_left (Nat.le_of_not_lt hlt)
    refine ⟨m, p, .refl hm, .refl hok, ?_, hmax.symm, rfl, rfl, fun _ _ => rfl, List.Subset.refl p⟩
    intro y hy
    rw [hmax]
    exact hok.sorted hy mem_cons_self

theorem vmMapClipEnd_spec (hm : s.table id = some m) (hok : MapOk m (p ++ e :: q))
    (hx : (m.entry e).vmeStart ≤ x) (h : vmMapClipEnd s id e x = .ok s') :
    ∃ m' q', Becomes s id m' s' ∧ Reshaped m m' (p ++ e :: q) (p ++ e :: q') ∧
      (m'.entry e).vmeStart = (m.entry e).vmeStart ∧
      (m'.entry e).vmeEnd = min (m.entry e).vmeEnd x ∧
      (∀ y ∈ p ++ q, m'.entry y = m.entry y) ∧ q ⊆ q' ∧ m'.hint = m.hint ∧
      CutAt x ((e :: q).map m.entry) ((e :: q').map m'.entry) := by
  rw [vmMapClipEnd, Maps.getMap_eq hm] at h
  change ite _ _ _ = _ at h
  split at h
  · rename_i hlt
    obtain ⟨hre, hfront, hback, hsame⟩ := hok.clipEnd hx hlt
    obtain ⟨c, hb⟩ := becomes_of_recounted (clipReference_spec h)
    refine ⟨_, _, hb, hre.recount c, ?_, ?_, hsame, subset_cons_self _ q, rfl,
      .inr ⟨_, _, rfl, hx, hlt, ?_⟩⟩
    · change ((m.clipEnd e x).entry e).vmeStart = _
      rw [hfront]
      rfl
    · change ((m.clipEnd e x).entry e).vmeEnd = _
      rw [hfront, min_eq_right (Nat.le_of_lt hlt)]
      rfl
    · change (e :: m.fresh :: q).map (m.clipEnd e x).entry = _
      rw [map_cons, map_cons, hfront, hback,
        map_congr_left (fun y hy => hsame y (mem_append_right _ hy))]
  · rename_i hlt
    cases h
    exact ⟨m, q, .refl hm, .refl hok, rfl, (min_eq_left (Nat.le_of_not_lt hlt)).symm,
      fun _ _ => rfl, List.Subset.refl q, rfl, .inl rfl⟩

theorem lookupEntry_spec (hm : s.table id = some m) (hok : MapOk m l) {found : Bool}
    (h : s.lookupEntry id a = .ok (found, e, s')) :
    ∃ p q hint, l = p ++ q ∧ Split m a p q ∧ Answers m a p q found e ∧ hint ∈ 0 :: l ∧
      (found = false → hint = e) ∧ s' = s.setMap id { m with hint := hint } := by
  obtain ⟨p, q, found', e', hint, hl, hsplit, hans, hhint, hsaved, hrun⟩ :=
    vmMapLookupEntry_spec hok a
  rw [Maps.lookupEntry, Maps.getMap_eq hm] at h
  simp only [bind, Except.bind, hrun, pure, Except.pure, Except.ok.injEq, Prod.mk.injEq] at h
  obtain ⟨rfl, rfl, rfl⟩ := h
  exact ⟨p, q, hint, hl, hsplit, hans, hhint, hsaved, rfl⟩

end Darwin.Vm
