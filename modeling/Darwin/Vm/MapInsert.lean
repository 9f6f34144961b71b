import Darwin.Vm.MapDelete

/-! # Insertion and the search for space

A range is inserted where no entry is in the way, as a new entry or as an extension of the
one before.
-/
namespace Darwin.Vm
open Darwin.Lib Function List

variable {D : Type} {s s' : Maps D} {m m' : VmMap} {l p q : List ℕ}
  {id e x a start stop offset : ℕ} {object : Option ℕ} {rs ts : List VmMapEntry}
  {T : Option (VmMapEntry × Bool) → Prop}

/-! ## New maps -/

/-- An entry of zeros. -/
def VmMapEntry.zero : VmMapEntry :=
  ⟨0, 0, .null, 0, false, false, false, false, false, 0, 0, .share, 0, 0⟩

/-- There is no map and no object yet. -/
def Maps.empty (D : Type) : Maps D where
  table := fun _ => none
  next := 0
  objects := ⟨fun _ => none, 0⟩
  kernelObject := 0
  vmSubmapObject := 0
  zone := fun _ _ => .zero
  faults := []

theorem vmMapCreate_spec (s : Maps D) (min : ℕ) {max : ℕ} (hmax : max < 2 ^ 32) :
    ∃ m, (vmMapCreate s min max) = (s.next, { s.setMap s.next m with next := s.next + 1 }) ∧
      MapOk m [] ∧ m.size = 0 ∧ m.isMainMap = true ∧ m.minOffset = min ∧ m.maxOffset = max := by
  have hheader : update (s.zone s.next) 0
      { s.zone s.next 0 with vmeStart := min, vmeEnd := max } 0 =
      { s.zone s.next 0 with vmeStart := min, vmeEnd := max } := update_self _ _ _
  refine ⟨_, rfl, ⟨.nil rfl rfl, rfl, .nil, ?_, mem_cons_self, mem_cons_self, ?_⟩, rfl,
    rfl, congrArg VmMapEntry.vmeStart hheader, congrArg VmMapEntry.vmeEnd hheader⟩
  · exact (congrArg VmMapEntry.vmeEnd hheader).trans_lt hmax
  · intro e he
    rw [mem_singleton.mp he]
    exact Nat.one_pos

/-- No record is in the way of a range. -/
def Free (rs : List VmMapEntry) (start stop : ℕ) : Prop :=
  ∀ r ∈ rs, r.vmeEnd ≤ start ∨ stop ≤ r.vmeStart

/-- What trying to extend an entry has made of the objects: no try, or one with its answer. -/
def Tried (g : Objects D) (stop : ℕ) (g' : Objects D) : Option (VmMapEntry × Bool) → Prop
  | none => g' = g
  | some (r, b) => ∃ o, r.object = .ofObject o ∧
      vmObjectCoalesce g o r.offset (u32Sub r.vmeEnd r.vmeStart) (u32Sub stop r.vmeEnd) = .ok (b, g')

/-- The records before and after an insertion, with the try `T` to extend one of them. -/
inductive Inserted (T : Option (VmMapEntry × Bool) → Prop) (isMainMap : Bool) (object : Option ℕ)
    (offset start stop : ℕ) : List VmMapEntry → List VmMapEntry → Prop where
  | new (rs ts : List VmMapEntry) (r : VmMapEntry)
      (hT : T none ∨ ∃ t ∈ rs ++ ts, T (some (t, false))) : Inserted T isMainMap object offset start stop
      (rs ++ ts) (rs ++ r.inserted isMainMap object offset start stop :: ts)
  | extend (rs ts : List VmMapEntry) (r : VmMapEntry) (hr : r.extends start = true)
      (ho : object = none) (hT : T (some (r, true))) : Inserted T isMainMap object offset start stop
      (rs ++ r :: ts) (rs ++ { r with vmeEnd := stop } :: ts)

theorem inserted_extent (r : VmMapEntry) (isMainMap : Bool) (object : Option ℕ)
    (offset start stop : ℕ) :
    (r.inserted isMainMap object offset start stop).vmeStart = start ∧
      (r.inserted isMainMap object offset start stop).vmeEnd = stop := by
  cases isMainMap <;> exact ⟨rfl, rfl⟩

theorem Laid.insert {lo hi : ℕ} {r : VmMapEntry} (h : Laid lo hi (rs ++ ts))
    (hr : lo ≤ r.vmeStart ∧ r.vmeStart ≤ r.vmeEnd ∧ r.vmeEnd ≤ hi)
    (hrs : ∀ t ∈ rs, t.vmeEnd ≤ r.vmeStart) (hts : ∀ t ∈ ts, r.vmeEnd ≤ t.vmeStart) :
    Laid lo hi (rs ++ r :: ts) := by
  rw [append_iff] at h
  obtain ⟨h₁, h₂, h₃⟩ := h
  rw [append_iff, cons_iff]
  refine ⟨h₁, ⟨hr, h₂, hts⟩, ?_⟩
  intro u hu t ht
  rcases mem_cons.mp ht with rfl | ht
  · exact hrs u hu
  · exact h₃ u hu t ht

theorem MapOk.link (h : MapOk m (p ++ q)) (r : VmMapEntry)
    (hr : m.minOffset ≤ r.vmeStart ∧ r.vmeStart ≤ r.vmeEnd ∧ r.vmeEnd ≤ m.maxOffset)
    (hp : ∀ y ∈ p, (m.entry y).vmeEnd ≤ r.vmeStart) (hq : ∀ y ∈ q, r.vmeEnd ≤ (m.entry y).vmeStart) :
    MapOk ({ m with fresh := m.fresh + 1, entry := update m.entry m.fresh r }.entryLink
      (p.getLastD 0) m.fresh) (p ++ m.fresh :: q) ∧
      (p ++ m.fresh :: q).map (update m.entry m.fresh r) =
        p.map m.entry ++ r :: q.map m.entry ∧
      update m.entry m.fresh r 0 = m.entry 0 := by
  have hfresh := h.fresh_notMem
  have hf0 : 0 ≠ m.fresh := fun heq => hfresh (heq ▸ mem_cons_self)
  have hnp : m.fresh ∉ p := fun hmem => hfresh (mem_cons_of_mem _ (mem_append_left _ hmem))
  have hnq : m.fresh ∉ q := fun hmem => hfresh (mem_cons_of_mem _ (mem_append_right _ hmem))
  have hrecs : (p ++ m.fresh :: q).map (update m.entry m.fresh r) =
      p.map m.entry ++ r :: q.map m.entry := by
    rw [map_append, map_cons, update_self, map_update_of_notMem hnp,
      map_update_of_notMem hnq]
  have hheader : update m.entry m.fresh r 0 = m.entry 0 := update_of_ne hf0 _ _
  have hlaid := h.laid
  rw [map_append] at hlaid
  have hlaid' := hlaid.insert hr (forall_mem_map.mpr hp) (forall_mem_map.mpr hq)
  rw [← hrecs] at hlaid'
  exact ⟨h.grow hheader hlaid' rfl, hrecs, hheader⟩

theorem MapOk.insertAfter (h : MapOk m (p ++ q)) (hmin : m.minOffset ≤ start) (hlt : start < stop)
    (hmax : stop ≤ m.maxOffset) (hp : ∀ y ∈ p, (m.entry y).vmeEnd ≤ start)
    (hq : ∀ y ∈ q, stop ≤ (m.entry y).vmeStart) (object : Option ℕ) (offset : ℕ) :
    MapOk (m.insertAfter (p.getLastD 0) object offset start stop) (p ++ m.fresh :: q) ∧
      (p ++ m.fresh :: q).map (m.insertAfter (p.getLastD 0) object offset start stop).entry =
        p.map m.entry ++ (m.entry m.fresh).inserted m.isMainMap object offset start stop ::
          q.map m.entry := by
  obtain ⟨hs, he⟩ := inserted_extent (m.entry m.fresh) m.isMainMap object offset start stop
  obtain ⟨hgrow, hrecs, -⟩ := h.link
    ((m.entry m.fresh).inserted m.isMainMap object offset start stop) (by rw [hs, he]; omega)
    (by rw [hs]; exact hp) (by rw [he]; exact hq)
  have hfree : (if m.firstFree = p.getLastD 0 ∧ start ≤ (m.entry (p.getLastD 0)).vmeEnd then m.fresh
      else m.firstFree) ∈ 0 :: (p ++ m.fresh :: q) := by
    split_ifs
    · simp
    · exact hgrow.firstFree
  exact ⟨(hgrow.setSize (u32 (m.size + u32Sub stop start))).setFirstFree hfree, hrecs⟩

theorem MapOk.extend (h : MapOk m (p ++ e :: q)) (hlt : (m.entry e).vmeEnd ≤ stop)
    (hmax : stop ≤ m.maxOffset) (hq : ∀ y ∈ q, stop ≤ (m.entry y).vmeStart) :
    MapOk (m.setEntry e { m.entry e with vmeEnd := stop }) (p ++ e :: q) ∧
      (p ++ e :: q).map (m.setEntry e { m.entry e with vmeEnd := stop }).entry =
        p.map m.entry ++ { m.entry e with vmeEnd := stop } :: q.map m.entry := by
  have hrecs : (p ++ e :: q).map (update m.entry e { m.entry e with vmeEnd := stop }) =
      p.map m.entry ++ { m.entry e with vmeEnd := stop } :: q.map m.entry := by
    rw [map_append, map_cons, update_self, map_update_of_notMem h.notMem_left,
      map_update_of_notMem h.notMem_right]
  have hval := h.valid (mem_append_right p (mem_cons_self (a := e) (l := q)))
  have hlaid := h.laid
  rw [map_append, map_cons] at hlaid
  have hbefore := (Laid.append_iff.mp hlaid).2.2
  have hlaid' := hlaid.remove.insert (r := { m.entry e with vmeEnd := stop })
    ⟨hval.1, by simp only; omega, hmax⟩
    (fun t ht => hbefore t ht (m.entry e) mem_cons_self) (forall_mem_map.mpr hq)
  rw [← hrecs] at hlaid'
  exact ⟨h.setEntries (update_of_ne h.mid_ne.1 _ _) hlaid', hrecs⟩

theorem ofObject_of_vmObject {r : VmMapObject} {y : Option ℕ} (h : r.vmObject = .ok y) : r = .ofObject y := by
  cases r <;> cases h <;> rfl

theorem coalescePrev_spec (hm : s.table id = some m) {b : Bool}
    (h : coalescePrev s id e object start stop = .ok (b, s')) : ∃ g,
    (b = false ∧ s' = { s with objects := g } ∧
      (g = s.objects ∨ e ≠ 0 ∧ Tried s.objects stop g (some (m.entry e, false)))) ∨
      (b = true ∧ object = none ∧ e ≠ 0 ∧ (m.entry e).extends start ∧
        Tried s.objects stop g (some (m.entry e, true)) ∧
        s' = { s with objects := g }.setMap id
          { m.setEntry e { m.entry e with vmeEnd := stop } with
            size := u32 (m.size + u32Sub stop (m.entry e).vmeEnd) }) := by
  replace h := Maps.bind_getMap hm h
  dsimp only at h
  split at h
  · rename_i hcond
    obtain ⟨o, ho, h⟩ := ok_of_bind h
    obtain ⟨⟨b', g⟩, hg, h⟩ := ok_of_bind h
    dsimp only at h
    split at h
    · rename_i hb
      cases h
      subst hb
      exact ⟨g, .inr ⟨rfl, Option.isNone_iff_eq_none.mp hcond.1, hcond.2.1, hcond.2.2,
        ⟨o, ofObject_of_vmObject ho, hg⟩, rfl⟩⟩
    · rename_i hb
      cases h
      rw [Bool.not_eq_true] at hb
      subst hb
      exact ⟨g, .inl ⟨rfl, rfl, .inr ⟨hcond.2.1, o, ofObject_of_vmObject ho, hg⟩⟩⟩
  · cases h
    exact ⟨s.objects, .inl ⟨rfl, rfl, .inl rfl⟩⟩

theorem extends_end {r : VmMapEntry} (h : r.extends start = true) : r.vmeEnd = start := by
  rw [VmMapEntry.extends, decide_eq_true_iff] at h
  exact h.1

/-- A map into which the range has been inserted. -/
structure HasInserted (g g' : Objects D) (object : Option ℕ) (offset start stop : ℕ) (m m' : VmMap)
    (l l' : List ℕ) : Prop where
  ok : MapOk m' l'
  records : Inserted (Tried g stop g') m.isMainMap object offset start stop (l.map m.entry) (l'.map m'.entry)
  header : m'.entry 0 = m.entry 0
  isMainMap : m'.isMainMap = m.isMainMap
  size : m'.size = u32 (m.size + (stop - start))

theorem vmMapInsert_spec (hm : s.table id = some m) (hok : MapOk m l) {code : KernReturn}
    (h : vmMapInsert s id object offset start stop = .ok (code, s')) :
    (code ≠ .success ∧ ¬ (m.minOffset ≤ start ∧ start < stop ∧ stop ≤ m.maxOffset ∧
        Free (l.map m.entry) start stop) ∧
      ∃ hint ∈ 0 :: l, s' = s.setMap id { m with hint := hint }) ∨
    (code = .success ∧ (m.minOffset ≤ start ∧ start < stop ∧ stop ≤ m.maxOffset ∧
        Free (l.map m.entry) start stop) ∧
      ∃ m' l' g, s' = { s with objects := g }.setMap id m' ∧
        HasInserted s.objects g object offset start stop m m' l l') := by
  replace h := Maps.bind_getMap hm h
  split at h
  · rename_i hbad
    cases h
    refine .inl ⟨by simp, by omega, m.hint, hok.hint, (Maps.setMap_eq_self hm).symm⟩
  rename_i hrange
  obtain ⟨⟨found, prev, s₁⟩, hs₁, h⟩ := ok_of_bind h
  obtain ⟨p, q, hint, rfl, hsplit, hans, hhint, -, rfl⟩ := lookupEntry_spec hm hok hs₁
  have hok₁ := hok.setHint hhint
  rcases hans with ⟨rfl, hstart, q, rfl⟩ | ⟨rfl, rfl, hafter⟩
  · -- the start is in an entry
    simp only [if_true] at h
    cases h
    refine .inl ⟨by simp, ?_, hint, hhint, rfl⟩
    rintro ⟨-, hlt, -, hfree⟩
    have hend := hsplit.after prev mem_cons_self
    have := hfree (m.entry prev) (mem_map_of_mem (mem_append_right p mem_cons_self))
    omega
  simp only [Bool.false_eq_true, if_false] at h
  replace h := Maps.bind_getMap Maps.setMap_self h
  have hnext : m.next (p.getLastD 0) = q.headD 0 := hok.ring.next_last
  simp only [hnext] at h
  by_cases hblock : q.headD 0 ≠ 0 ∧ (m.entry (q.headD 0)).vmeStart < stop
  · -- the next entry is in the way
    rw [if_pos hblock] at h
    cases h
    refine .inl ⟨by simp, ?_, hint, hhint, rfl⟩
    rintro ⟨-, hlt, -, hfree⟩
    cases q with
    | nil => exact hblock.1 rfl
    | cons b q =>
      have hend := hsplit.after b mem_cons_self
      have := hfree (m.entry b) (mem_map_of_mem (mem_append_right p mem_cons_self))
      have := hblock.2
      rw [headD_cons] at this
      omega
  · rw [if_neg hblock] at h
    have hq : ∀ y ∈ q, stop ≤ (m.entry y).vmeStart := by
      cases q with
      | nil => simp
      | cons b q =>
        have hb : b ≠ 0 := hok.pos (mem_append_right p mem_cons_self)
        have hle : stop ≤ (m.entry b).vmeStart := by
          by_contra hlt
          exact hblock ⟨hb, Nat.lt_of_not_le hlt⟩
        exact fun y hy => hle.trans (hok.start_le hy)
    have hfree : Free ((p ++ q).map m.entry) start stop := by
      refine forall_mem_map.mpr fun y hy => ?_
      exact (mem_append.mp hy).imp (hsplit.before y) (hq y)
    have hcond : m.minOffset ≤ start ∧ start < stop ∧ stop ≤ m.maxOffset ∧
        Free ((p ++ q).map m.entry) start stop := ⟨by omega, by omega, by omega, hfree⟩
    have hmin := hcond.1
    have hlt := hcond.2.1
    have hmax := hcond.2.2.1
    have hbound := hok.bound
    have hsub : u32Sub stop start = stop - start := u32Sub_eq (Nat.le_of_lt hlt) (by omega)
    obtain ⟨⟨b, s₂⟩, hs₂, h⟩ := ok_of_bind h
    obtain ⟨g, ⟨rfl, rfl, htried⟩ | ⟨rfl, ho, hne, hext, htried, rfl⟩⟩ := coalescePrev_spec Maps.setMap_self hs₂
    · simp only [Bool.false_eq_true, if_false] at h
      replace h := Maps.bind_getMap Maps.setMap_self h
      cases h
      obtain ⟨hok₂, hrecs⟩ := hok₁.insertAfter hmin hlt hmax hsplit.before hq object offset
      have hf0 : 0 ≠ m.fresh := fun heq => hok.fresh_notMem (heq ▸ mem_cons_self)
      refine .inr ⟨rfl, hcond, _, _, g, ?_, hok₂, ?_, update_of_ne hf0 _ _, rfl, ?_⟩
      · exact Maps.setMap_setMap (s := { s with objects := g }) (m := { m with hint := hint })
      · rw [hrecs, map_append]
        refine .new _ _ _ (htried.imp (fun h => h) fun ht => ⟨_, ?_, ht.2⟩)
        obtain ⟨p', b, rfl⟩ : ∃ p' b, p = p' ++ [b] := by
          rcases eq_nil_or_concat p with rfl | ⟨p', b, rfl⟩
          · exact absurd rfl ht.1
          · exact ⟨p', b, concat_eq_append⟩
        rw [getLastD_concat, map_append]
        simp
      · change u32 (m.size + u32Sub stop start) = _
        rw [hsub]
    · simp only [if_true] at h
      cases h
      obtain ⟨p', b, rfl⟩ : ∃ p' b, p = p' ++ [b] := by
        rcases eq_nil_or_concat p with rfl | ⟨p', b, rfl⟩
        · exact absurd rfl hne
        · exact ⟨p', b, concat_eq_append⟩
      rw [getLastD_concat] at hext htried ⊢
      have hend : (m.entry b).vmeEnd = start := extends_end hext
      have hok₂ : MapOk { m with hint := hint } (p' ++ b :: q) := by
        rw [← singleton_append, ← append_assoc]
        exact hok₁
      have hle : (m.entry b).vmeEnd ≤ stop := by omega
      obtain ⟨hok₃, hrecs⟩ := hok₂.extend hle hmax hq
      have hrecs' : Inserted (Tried s.objects stop g) m.isMainMap object offset start stop ((p' ++ [b] ++ q).map m.entry)
          ((p' ++ b :: q).map (VmMap.setEntry { m with hint := hint } b
            { m.entry b with vmeEnd := stop }).entry) := by
        rw [hrecs, append_assoc, singleton_append, map_append, map_cons]
        exact .extend _ _ _ hext ho htried
      rw [hend, hsub]
      refine .inr ⟨rfl, hcond, { VmMap.setEntry { m with hint := hint } b
        { m.entry b with vmeEnd := stop } with size := u32 (m.size + (stop - start)) },
        p' ++ b :: q, g, ?_, hok₃.setSize _, hrecs', update_of_ne hok₂.mid_ne.1 _ _, rfl,
        rfl⟩
      exact Maps.setMap_setMap (s := { s with objects := g }) (m := { m with hint := hint })

theorem Inserted.total {isMainMap : Bool} (h : Inserted T isMainMap object offset start stop rs ts)
    {lo hi : ℕ} (hlaid : Laid lo hi rs) (hlt : start < stop) :
    total ts = total rs + (stop - start) := by
  cases h with
  | new rs ts r _ =>
    obtain ⟨hs, he⟩ := inserted_extent r isMainMap object offset start stop
    rw [total_append, total_cons, total_append, VmMapEntry.length, hs, he]
    omega
  | extend rs ts r hr =>
    have hval := hlaid.valid r (mem_append_right _ mem_cons_self)
    have hend := extends_end hr
    rw [total_append, total_cons, total_append, total_cons, VmMapEntry.length, VmMapEntry.length]
    simp only
    omega

theorem Inserted.forall {isMainMap : Bool} {P : VmMapEntry → Prop}
    (h : Inserted T isMainMap object offset start stop rs ts) (hrs : ∀ r ∈ rs, P r)
    (hnew : ∀ r, P (VmMapEntry.inserted r isMainMap object offset start stop))
    (hext : ∀ r, r.extends start = true → P r → P { r with vmeEnd := stop }) : ∀ r ∈ ts, P r := by
  cases h with
  | new rs ts r _ =>
    intro t ht
    rcases mem_append.mp ht with ht | ht
    · exact hrs t (mem_append_left _ ht)
    rcases mem_cons.mp ht with rfl | ht
    · exact hnew r
    · exact hrs t (mem_append_right _ ht)
  | extend rs ts r hr =>
    intro t ht
    rcases mem_append.mp ht with ht | ht
    · exact hrs t (mem_append_left _ ht)
    rcases mem_cons.mp ht with rfl | ht
    · exact hext r hr (hrs r (mem_append_right _ mem_cons_self))
    · exact hrs t (mem_append_right _ (mem_cons_of_mem _ ht))

/-! ## The search for space -/

theorem MapOk.next_mem (h : MapOk m l) (he : e ∈ 0 :: l) : m.next e ∈ 0 :: l := by
  have hhead : ∀ q : List ℕ, q ⊆ l → q.headD 0 ∈ 0 :: l := by
    intro q hq
    cases q with
    | nil => exact mem_cons_self
    | cons b q => exact mem_cons_of_mem _ (hq mem_cons_self)
  rcases mem_cons.mp he with rfl | he
  · rw [h.ring.next_header]
    exact hhead l (List.Subset.refl l)
  · obtain ⟨p, q, rfl⟩ := append_of_mem he
    rw [h.ring.next_mem]
    apply hhead
    intro y hy
    simp [hy]

theorem findLoop_mem (h : MapOk m l) {length fuel entry : ℕ} :
    ∀ {e start}, e ∈ 0 :: l → m.findLoop length fuel e start = .ok (some (entry, x)) →
      entry ∈ 0 :: l := by
  induction fuel with
  | zero =>
    intro e start _ hrun
    cases hrun
  | succ fuel ih =>
    intro e start he hrun
    rw [VmMap.findLoop] at hrun
    split_ifs at hrun
    · cases hrun
    · cases hrun
      exact he
    · exact ih (h.next_mem he) hrun

theorem findFrom_spec (hm : s.table id = some m) (hok : MapOk m l)
    (h : findFrom s id start = .ok (e, x, s')) :
    e ∈ 0 :: l ∧ ∃ hint ∈ 0 :: l, s' = s.setMap id { m with hint := hint } := by
  have hsame : s = s.setMap id { m with hint := m.hint } := (Maps.setMap_eq_self hm).symm
  replace h := Maps.bind_getMap hm h
  split_ifs at h
  · cases h
    exact ⟨mem_cons_self, m.hint, hok.hint, hsame⟩
  · cases h
    exact ⟨hok.firstFree, m.hint, hok.hint, hsame⟩
  · obtain ⟨⟨found, e', s₁⟩, hs₁, h⟩ := ok_of_bind h
    obtain ⟨p, q, hint, rfl, -, hans, hhint, -, rfl⟩ := lookupEntry_spec hm hok hs₁
    cases h
    exact ⟨answers_mem hok hans, hint, hhint, rfl⟩

/-- The result of a call that maps a range, or fails. -/
def Maps.Allocates (s : Maps D) (id : ℕ) (m : VmMap) (l : List ℕ) (object : Option ℕ)
    (offset start stop : ℕ) (code : KernReturn) (s' : Maps D) : Prop :=
  (code ≠ .success ∧ ∃ hint ∈ 0 :: l, s' = s.setMap id { m with hint := hint }) ∨
    (code = .success ∧ (m.minOffset ≤ start ∧ start < stop ∧ stop ≤ m.maxOffset ∧
        Free (l.map m.entry) start stop) ∧
      ∃ m' l' g, s' = { s with objects := g }.setMap id m' ∧
        HasInserted s.objects g object offset start stop m m' l l')

theorem vmMapFind_spec (hm : s.table id = some m) (hok : MapOk m l) {code : KernReturn}
    {addr addr' length : ℕ} {findSpace : Bool}
    (h : vmMapFind s id object offset addr length findSpace = .ok (code, addr', s')) :
    s.Allocates id m l object offset addr' (u32 (addr' + length)) code s' := by
  have hinsert : ∀ {hint start code s'}, hint ∈ 0 :: l →
      vmMapInsert (s.setMap id { m with hint := hint }) id object offset start
        (u32 (start + length)) = .ok (code, s') →
      s.Allocates id m l object offset start (u32 (start + length)) code s' := by
    intro hint start code s' hhint hrun
    rcases vmMapInsert_spec Maps.setMap_self (hok.setHint hhint) hrun with
      ⟨hcode, -, hint', hhint', rfl⟩ | ⟨rfl, hcond, m', l', g, rfl, hins⟩
    · exact .inl ⟨hcode, hint', hhint', Maps.setMap_setMap⟩
    · refine .inr ⟨rfl, hcond, m', l', g, ?_, hins.ok, hins.records, hins.header, hins.isMainMap,
        hins.size⟩
      exact Maps.setMap_setMap (s := { s with objects := g }) (m := { m with hint := hint })
  have hsame : s = s.setMap id { m with hint := m.hint } := (Maps.setMap_eq_self hm).symm
  rw [vmMapFind] at h
  split at h
  · replace h := Maps.bind_getMap hm h
    generalize (if addr < m.minOffset then m.minOffset else addr) = start₀ at h
    dsimp only at h
    split at h
    · cases h
      exact .inl ⟨by simp, m.hint, hok.hint, hsame⟩
    · obtain ⟨⟨e, start, s₁⟩, hs₁, h⟩ := ok_of_bind h
      obtain ⟨he, hint, hhint, rfl⟩ := findFrom_spec hm hok hs₁
      replace h := Maps.bind_getMap Maps.setMap_self h
      obtain ⟨r, hr, h⟩ := ok_of_bind h
      cases r with
      | none =>
        cases h
        exact .inl ⟨by simp, hint, hhint, rfl⟩
      | some r =>
        obtain ⟨entry, start'⟩ := r
        obtain ⟨⟨code', s₂⟩, hs₂, h⟩ := ok_of_bind h
        cases h
        rw [Maps.setMap_setMap] at hs₂
        exact hinsert (findLoop_mem (hok.setHint hhint) he hr) hs₂
  · obtain ⟨⟨code', s₂⟩, hs₂, h⟩ := ok_of_bind h
    cases h
    rw [hsame] at hs₂
    exact hinsert hok.hint hs₂

/-! ## `vm_map_find_entry` -/

theorem le_alignUp {mask : ℕ} (h : start + mask < 2 ^ 32) : start ≤ alignUp start mask := by
  have hmask : mask < 2 ^ 32 := by omega
  have hparts : ∀ x k : BitVec 32, x.toNat = (x &&& k).toNat + (x &&& ~~~k).toNat := by
    intro x k
    have hdisjoint : (x &&& k) &&& (x &&& ~~~k) = 0#32 := by
      ext i hi
      simp only [BitVec.getElem_and, BitVec.getElem_not, BitVec.getElem_zero]
      cases x[i] <;> cases k[i] <;> rfl
    have hor : (x &&& k) ||| (x &&& ~~~k) = x := by
      ext i hi
      simp only [BitVec.getElem_or, BitVec.getElem_and, BitVec.getElem_not]
      cases x[i] <;> cases k[i] <;> rfl
    rw [← BitVec.toNat_add_of_and_eq_zero hdisjoint, BitVec.add_eq_or_of_and_eq_zero _ _ hdisjoint,
      hor]
  have hsum := hparts (BitVec.ofNat 32 (start + mask)) (BitVec.ofNat 32 mask)
  simp only [BitVec.toNat_and, BitVec.toNat_not, BitVec.toNat_ofNat, Nat.mod_eq_of_lt h,
    Nat.mod_eq_of_lt hmask] at hsum
  have hle : (start + mask) &&& mask ≤ mask := Nat.and_le_right
  rw [alignUp, u32_eq h]
  omega

/-- The search never rounds an address up past the last one. -/
def VmMap.findEntryUnwrapped (m : VmMap) (size mask : ℕ) : ℕ → ℕ → ℕ → Prop
  | 0, _, _ => True
  | fuel + 1, entry, start =>
    start + mask < 2 ^ 32 ∧
      (m.next entry ≠ 0 → (m.entry (m.next entry)).vmeStart < u32 (alignUp start mask + size) →
        m.findEntryUnwrapped size mask fuel (m.next entry) (m.entry (m.next entry)).vmeEnd)

theorem findEntryLoop_spec {size mask fuel entry : ℕ} :
    ∀ {p q : List ℕ} {start : ℕ}, MapOk m (p ++ q) → (∀ y ∈ p, (m.entry y).vmeEnd ≤ start) →
      m.minOffset ≤ start → m.findEntryUnwrapped size mask fuel (p.getLastD 0) start →
      m.findEntryLoop size mask fuel (p.getLastD 0) start = .ok (some (entry, x)) →
      ∃ p' q', p ++ q = p' ++ q' ∧ entry = p'.getLastD 0 ∧ m.minOffset ≤ x ∧
        x ≤ u32 (x + size) ∧ u32 (x + size) ≤ m.maxOffset ∧ (∀ y ∈ p', (m.entry y).vmeEnd ≤ x) ∧
        ∀ y ∈ q', u32 (x + size) ≤ (m.entry y).vmeStart := by
  induction fuel with
  | zero =>
    intro p q start _ _ _ _ hrun
    cases hrun
  | succ fuel ih =>
    intro p q start hok hp hmin hsafe hrun
    obtain ⟨hwrap, hsafe⟩ := hsafe
    have hle := le_alignUp hwrap
    rw [VmMap.findEntryLoop] at hrun
    rw [hok.ring.next_last] at hrun hsafe
    split_ifs at hrun with hout hfit
    · cases hrun
    · cases hrun
      refine ⟨p, q, rfl, rfl, by omega, by omega, by omega, fun y hy => (hp y hy).trans hle, ?_⟩
      cases q with
      | nil => simp
      | cons b q =>
        have hb : b ≠ 0 := hok.pos (mem_append_right p mem_cons_self)
        have hle := hfit.resolve_left hb
        rw [headD_cons] at hle
        exact fun y hy => hle.trans (hok.start_le hy)
    · cases q with
      | nil => exact absurd (.inl rfl) hfit
      | cons b q =>
        rw [headD_cons] at hrun hfit hsafe
        have hok' : MapOk m ((p ++ [b]) ++ q) := by
          rwa [append_assoc, singleton_append]
        have hval := hok.valid (mem_append_right p (mem_cons_self (a := b) (l := q)))
        have hlast : (p ++ [b]).getLastD 0 = b := getLastD_concat
        have hp' : ∀ y ∈ p ++ [b], (m.entry y).vmeEnd ≤ (m.entry b).vmeEnd := by
          intro y hy
          rcases mem_append.mp hy with hy | hy
          · exact (hok.sorted hy mem_cons_self).trans hval.2.1
          · rw [mem_singleton.mp hy]
        have hsafe' := hsafe (by tauto) (by omega)
        obtain ⟨p', q', heq, hrest⟩ := ih hok' hp' (by omega) (by rw [hlast]; exact hsafe')
          (by rw [hlast]; exact hrun)
        rw [append_assoc, singleton_append] at heq
        exact ⟨p', q', heq, hrest⟩

/-- The condition under which a call of `vm_map_find_entry` keeps the entries apart. -/
def FindEntrySafe (m : VmMap) (size mask : ℕ) : Prop :=
  m.findEntryUnwrapped size mask (m.nentries + 1) m.firstFree
    (if m.firstFree = 0 then m.minOffset else (m.entry m.firstFree).vmeEnd)

/-- The records before and after a call of `vm_map_find_entry`. -/
inductive FoundEntry (start stop : ℕ) : List VmMapEntry → List VmMapEntry → Prop where
  | new (rs ts : List VmMapEntry) (r : VmMapEntry) :
      FoundEntry start stop (rs ++ ts) (rs ++ r.found start stop :: ts)
  | extend (rs ts : List VmMapEntry) (r : VmMapEntry) (hr : r.vmeEnd = start) :
      FoundEntry start stop (rs ++ r :: ts) (rs ++ { r with vmeEnd := stop } :: ts)

theorem MapOk.split_at (h : MapOk m l) (he : e ∈ 0 :: l) : ∃ p q, l = p ++ q ∧ p.getLastD 0 = e ∧
    (e = 0 → p = []) ∧ ∀ y ∈ p, (m.entry y).vmeEnd ≤ (m.entry e).vmeEnd := by
  rcases mem_cons.mp he with rfl | he
  · exact ⟨[], l, rfl, rfl, fun _ => rfl, by simp⟩
  · obtain ⟨p, q, rfl⟩ := append_of_mem he
    have hval := h.valid he
    refine ⟨p ++ [e], q, by rw [append_assoc, singleton_append], getLastD_concat,
      fun hz => absurd hz (h.pos he), ?_⟩
    intro y hy
    rcases mem_append.mp hy with hy | hy
    · exact (h.sorted hy mem_cons_self).trans hval.2.1
    · rw [mem_singleton.mp hy]

/-- A map in which `vm_map_find_entry` has found space. -/
structure HasFound (start size : ℕ) (m m' : VmMap) (l l' : List ℕ) : Prop where
  ok : MapOk m' l'
  records : FoundEntry start (start + size) (l.map m.entry) (l'.map m'.entry)
  header : m'.entry 0 = m.entry 0
  isMainMap : m'.isMainMap = m.isMainMap
  size : m'.size = u32 (m.size + size)

theorem vmMapFindEntry_spec (hm : s.table id = some m) (hok : MapOk m l) {size mask : ℕ}
    (hsize : size < 2 ^ 32) (hsafe : FindEntrySafe m size mask) {code : KernReturn}
    (h : vmMapFindEntry s id size mask object = .ok (code, a, e, s')) :
    (code ≠ .success ∧ s' = s) ∨
      (code = .success ∧ ∃ m' l', s' = s.setMap id m' ∧ HasFound a size m m' l l') := by
  replace h := Maps.bind_getMap hm h
  dsimp only at h
  rw [FindEntrySafe] at hsafe
  obtain ⟨p, q, rfl, hlast, hnil, hends⟩ := hok.split_at hok.firstFree
  generalize hfrom : (if m.firstFree = 0 then m.minOffset else (m.entry m.firstFree).vmeEnd) =
    start at h hsafe
  have hp : ∀ y ∈ p, (m.entry y).vmeEnd ≤ start := by
    split_ifs at hfrom with hz
    · simp [hnil hz]
    · rwa [← hfrom]
  have hmin : m.minOffset ≤ start := by
    split_ifs at hfrom with hz
    · exact Nat.le_of_eq hfrom
    · have hval := hok.valid ((mem_cons.mp hok.firstFree).resolve_left hz)
      omega
  rw [← hlast] at h hsafe
  obtain ⟨r, hr, h⟩ := ok_of_bind h
  cases r with
  | none =>
    cases h
    exact .inl ⟨by simp, rfl⟩
  | some r =>
    obtain ⟨entry, x⟩ := r
    obtain ⟨p', q', heq, rfl, hminx, hle, hmax, hp', hq'⟩ :=
      findEntryLoop_spec hok hp hmin hsafe hr
    have hstop : u32 (x + size) = x + size := by
      have hbound := hok.bound
      rw [u32] at hle ⊢
      omega
    rw [heq] at hok ⊢
    dsimp only at h
    split at h
    · rename_i hcond
      cases h
      obtain ⟨p₀, b, rfl⟩ : ∃ p₀ b, p' = p₀ ++ [b] := by
        rcases eq_nil_or_concat p' with rfl | ⟨p₀, b, rfl⟩
        · exact absurd rfl hcond.1
        · exact ⟨p₀, b, concat_eq_append⟩
      rw [getLastD_concat] at hcond ⊢
      have hend : (m.entry b).vmeEnd = a := by
        cases object with
        | none => exact absurd hcond.2 (by simp)
        | some o =>
          have hext := hcond.2
          rw [Option.any_some, VmMapEntry.extendsWired, decide_eq_true_iff] at hext
          exact hext.1
      rw [append_assoc, singleton_append] at hok ⊢
      rw [hstop] at hq' hmax ⊢
      obtain ⟨hok', hrecs⟩ := hok.extend (by omega) hmax hq'
      have hmem : b ∈ 0 :: (p₀ ++ b :: q') := by simp
      refine .inr ⟨rfl, _, _, rfl, (((hok'.setSize _).setFirstFree hmem).setHint hmem), ?_,
        update_of_ne hok.mid_ne.1 _ _, rfl, rfl⟩
      have hfound : FoundEntry a (a + size) ((p₀ ++ b :: q').map m.entry)
          ((p₀ ++ b :: q').map (m.setEntry b { m.entry b with vmeEnd := a + size }).entry) := by
        rw [hrecs, map_append, map_cons]
        exact .extend _ _ _ hend
      exact hfound
    · cases h
      rw [hstop] at hq' hmax ⊢
      obtain ⟨hok', hrecs, hheader⟩ := hok.link ((m.entry m.fresh).found a (a + size))
        ⟨hminx, Nat.le_add_right a size, hmax⟩ hp' hq'
      have hmem : m.fresh ∈ 0 :: (p' ++ m.fresh :: q') := by simp
      refine .inr ⟨rfl, _, _, rfl, (((hok'.setSize _).setFirstFree hmem).setHint hmem), ?_,
        hheader, rfl, rfl⟩
      have hfound : FoundEntry a (a + size) ((p' ++ q').map m.entry)
          ((p' ++ m.fresh :: q').map (update m.entry m.fresh
            ((m.entry m.fresh).found a (a + size)))) := by
        rw [hrecs, map_append]
        exact .new _ _ _
      exact hfound

end Darwin.Vm
