import Darwin.Lib.BitWords
import Darwin.Lib.LinearProbe
import Darwin.Lib.Run
import Mathlib.Data.Finset.Card
import Mathlib.Order.Interval.Finset.Nat

/-! # The local reverse hash table

The table of a space holds its entries; the field `ie_index` of the entries is a hash table
of its own, with open addressing and linear probing, that leads from an object to the index
of its entry.
-/
namespace Darwin.Ipc
open Darwin.Lib Darwin.Lib.LinearProbe Function

/-- The five bits of the capability type. -/
structure PortType where
  send : Bool
  receive : Bool
  sendOnce : Bool
  portSet : Bool
  deadName : Bool
  deriving DecidableEq, Repr

/-- The fields of `ie_bits`: the generation, the flags, the type and the user references. -/
structure Bits where
  gen : BitVec 8
  collision : Bool
  compat : Bool
  marequest : Bool
  type : PortType
  urefs : ℕ
  deriving DecidableEq, Repr

/-- An entry. The field `ie_request` of a free entry links the free list, under the name
`ie_next`. -/
structure Entry where
  ieBits : Bits
  ieObject : ℕ
  ieRequest : ℕ
  ieIndex : ℕ
  deriving DecidableEq, Repr

/-- The entries of a space, of which `size` exist. -/
structure Table where
  size : ℕ
  entry : ℕ → Entry

def Table.setEntry (t : Table) (index : ℕ) (e : Entry) : Table :=
  { t with entry := update t.entry index e }

def Table.setIndex (t : Table) (hindex index : ℕ) : Table :=
  t.setEntry hindex { t.entry hindex with ieIndex := index }

/-- `IH_LOCAL_HASH`. -/
def ihLocalHash (obj size : ℕ) : ℕ := u32 obj / 64 % size

/-- `ipc_hash_local_lookup`: the index of the entry, or `none` in the place of `FALSE`. All
loops are `none` as a whole when they go around the table without stopping. -/
def ipcHashLocalLookup (t : Table) (obj : ℕ) : Option (Option ℕ) :=
  (probe t.size (fun hindex => (t.entry hindex).ieIndex = 0 ∨
      (t.entry (t.entry hindex).ieIndex).ieObject = obj) t.size (ihLocalHash obj t.size)).map
    (fun hindex => if (t.entry hindex).ieIndex = 0 then none else some (t.entry hindex).ieIndex)

def ipcHashLocalInsert (t : Table) (obj index : ℕ) : Option Table :=
  (probe t.size (fun hindex => (t.entry hindex).ieIndex = 0) t.size (ihLocalHash obj t.size)).map
    (fun hindex => t.setIndex hindex index)

/-- The test for a displaced object: its home `tindex`, the hole `hindex`. -/
def displaced (hindex dindex tindex : ℕ) : Bool :=
  if dindex < hindex then decide (dindex < tindex ∧ tindex ≤ hindex)
  else decide (dindex < tindex ∨ tindex ≤ hindex)

/-- The loops of `ipc_hash_local_delete` behind the hole. The inner loop starts behind
`dindex`, which is the hole; it is `none` where an assertion fails. -/
def closeHole : ℕ → Table → ℕ → Option Table
  | 0, _, _ => none
  | fuel + 1, t, hindex =>
    (probe t.size (fun dindex => dindex = hindex ∨ (t.entry dindex).ieIndex = 0 ∨
        (t.entry (t.entry dindex).ieIndex).ieObject = 0 ∨
        displaced hindex dindex
          (ihLocalHash (t.entry (t.entry dindex).ieIndex).ieObject t.size)) t.size
      (next t.size hindex)).bind (fun dindex =>
        if dindex = hindex then none
        else
          let index := (t.entry dindex).ieIndex
          if index = 0 then some (t.setIndex hindex 0)
          else if (t.entry index).ieObject = 0 then none
          else closeHole fuel (t.setIndex hindex index) dindex)

def ipcHashLocalDelete (t : Table) (obj index : ℕ) : Option Table :=
  (probe t.size (fun hindex => (t.entry hindex).ieIndex = index) t.size
    (ihLocalHash obj t.size)).bind (fun hindex => closeHole t.size t hindex)

/-! ## Runs -/

/-- The table with the objects that are inserted and their indices. -/
structure HashState where
  table : Table
  live : ℕ → Option ℕ

inductive HashEvent where
  | fill (index obj : ℕ)
  | insert (obj index : ℕ)
  | delete (obj index : ℕ)
  deriving DecidableEq, Repr

/-- The object may be inserted: it is not there, and its entry is filled. -/
structure HashState.Inserts (s : HashState) (obj index : ℕ) : Prop where
  notNull : obj ≠ 0
  pos : 0 < index
  lt : index < s.table.size
  filled : (s.table.entry index).ieObject = obj
  absent : s.live obj = none

/-- An entry whose object is not inserted may get another object. -/
def HashState.step (s : HashState) : HashEvent → HashState → Prop
  | .fill index obj, t =>
    (∀ o, s.live o ≠ some index) ∧
      t = ⟨s.table.setEntry index { s.table.entry index with ieObject := obj }, s.live⟩
  | .insert obj index, t =>
    s.Inserts obj index ∧ ∃ table, ipcHashLocalInsert s.table obj index = some table ∧
      t = ⟨table, update s.live obj (some index)⟩
  | .delete obj index, t =>
    s.live obj = some index ∧ ∃ table, ipcHashLocalDelete s.table obj index = some table ∧
      t = ⟨table, update s.live obj none⟩

/-! ## The operations on a table in order -/

def Table.slots (t : Table) (hindex : ℕ) : ℕ := (t.entry hindex).ieIndex

/-- The home of an index is that of the object of its entry. -/
def Table.home (t : Table) (index : ℕ) : ℕ := ihLocalHash (t.entry index).ieObject t.size

/-- The tables differ in the hash table only. -/
structure SameEntries (t t' : Table) : Prop where
  size : t'.size = t.size
  bits : ∀ i, (t'.entry i).ieBits = (t.entry i).ieBits
  object : ∀ i, (t'.entry i).ieObject = (t.entry i).ieObject
  request : ∀ i, (t'.entry i).ieRequest = (t.entry i).ieRequest

theorem SameEntries.refl (t : Table) : SameEntries t t := ⟨rfl, fun _ => rfl, fun _ => rfl, fun _ => rfl⟩

theorem SameEntries.trans {t t' t'' : Table} (h : SameEntries t t') (h' : SameEntries t' t'') :
    SameEntries t t'' :=
  ⟨h'.size.trans h.size, fun i => (h'.bits i).trans (h.bits i),
    fun i => (h'.object i).trans (h.object i), fun i => (h'.request i).trans (h.request i)⟩

theorem SameEntries.home {t t' : Table} (h : SameEntries t t') : t'.home = t.home := by
  funext i
  unfold Table.home
  rw [h.object, h.size]

theorem setIndex_slots (t : Table) (hindex index : ℕ) :
    (t.setIndex hindex index).slots = update t.slots hindex index := by
  funext i
  by_cases hi : i = hindex
  · subst hi
    simp [Table.setIndex, Table.setEntry, Table.slots]
  · simp [Table.setIndex, Table.setEntry, Table.slots, update_of_ne hi]

theorem setIndex_same (t : Table) (hindex index : ℕ) : SameEntries t (t.setIndex hindex index) := by
  refine ⟨rfl, ?_, ?_, ?_⟩
  all_goals
    intro i
    by_cases hi : i = hindex
    · subst hi
      simp [Table.setIndex, Table.setEntry]
    · simp [Table.setIndex, Table.setEntry, update_of_ne hi]

theorem displaced_iff {n hole d t : ℕ} (hh : hole < n) (hd : d < n) (ht : t < n) :
    displaced hole d t = true ↔ Displaced n hole d t := by
  unfold displaced Displaced gap
  split_ifs <;> simp only [decide_eq_true_eq] <;> omega

theorem ihLocalHash_lt (obj : ℕ) {size : ℕ} (h : 0 < size) : ihLocalHash obj size < size :=
  Nat.mod_lt _ h

theorem closeHole_spec : ∀ {fuel : ℕ} {t : Table} {hole e : ℕ},
    Holed t.size t.home t.slots hole → hole < t.size → e < t.size → e ≠ hole → t.slots e = 0 →
    (∀ d < t.size, d ≠ hole → t.slots d ≠ 0 → (t.entry (t.slots d)).ieObject ≠ 0) →
    gap t.size hole e < fuel →
    ∃ t', closeHole fuel t hole = some t' ∧ SameEntries t t' ∧ Probed t.size t.home t'.slots ∧
      ∀ c, c ≠ 0 → (Holds t.size t'.slots c ↔ ∃ d < t.size, d ≠ hole ∧ t.slots d = c) := by
  intro fuel
  induction fuel with
  | zero =>
    intro t hole e _ _ _ _ _ _ hfuel
    exact absurd hfuel (Nat.not_lt_zero _)
  | succ fuel ih =>
    intro t hole e h hhole he heh hempty hobj hfuel
    have hpos : 0 < t.size := by omega
    obtain ⟨x, hx, hrun, hstop, hbefore⟩ := @probe_spec t.size
      (fun dindex => dindex = hole ∨ (t.entry dindex).ieIndex = 0 ∨
        (t.entry (t.entry dindex).ieIndex).ieObject = 0 ∨
        displaced hole dindex (ihLocalHash (t.entry (t.entry dindex).ieIndex).ieObject t.size))
      t.size (next t.size hole) e (next_lt hhole) he (decide_eq_true (.inr (.inl hempty)))
      (gap_lt (next_lt hhole) he)
    -- the loop stops at the empty slot at the latest, and so before the hole
    have hxe : gap t.size (next t.size hole) x ≤ gap t.size (next t.size hole) e := by
      by_contra hgt
      have := hbefore e he (by omega)
      simp only [Table.slots] at hempty
      simp [hempty] at this
    have hstep := gap_next hhole he heh
    have hself := gap_next_self hhole
    have helt := gap_lt hhole he
    have hxh : x ≠ hole := by
      rintro rfl
      omega
    have hxstep := gap_next hhole hx hxh
    rw [closeHole, hrun, Option.bind_some, if_neg hxh]
    change ∃ t', (if t.slots x = 0 then some (t.setIndex hole 0)
      else if (t.entry (t.slots x)).ieObject = 0 then none
      else closeHole fuel (t.setIndex hole (t.slots x)) x) = some t' ∧ _
    by_cases hzero : t.slots x = 0
    · rw [if_pos hzero]
      refine ⟨_, rfl, setIndex_same t hole 0, ?_, ?_⟩
      · rw [setIndex_slots]
        apply h.close hhole hx hxh hzero
        intro y hy hyh hlt hdis
        have hystep := gap_next hhole hy hyh
        have hno := hbefore y hy (by omega)
        have := (displaced_iff hhole hy (ihLocalHash_lt _ hpos)).mpr hdis
        simp only [Table.slots] at this
        simp [this] at hno
      · intro c hc
        rw [setIndex_slots]
        constructor
        · rintro ⟨d, hd, hdc⟩
          by_cases hdh : d = hole
          · rw [hdh, update_self] at hdc
            exact absurd hdc.symm hc
          · rw [update_of_ne hdh] at hdc
            exact ⟨d, hd, hdh, hdc⟩
        · rintro ⟨d, hd, hdh, hdc⟩
          exact ⟨d, hd, by rw [update_of_ne hdh]; exact hdc⟩
    · have hnull : (t.entry (t.slots x)).ieObject ≠ 0 := hobj x hx hxh hzero
      have hdis : Displaced t.size hole x (t.home (t.slots x)) := by
        apply (displaced_iff hhole hx (ihLocalHash_lt _ hpos)).mp
        change displaced hole x (ihLocalHash (t.entry (t.entry x).ieIndex).ieObject t.size) = true
        simp only [Table.slots] at hzero hnull
        simpa [hxh, hzero, hnull] using hstop
      have hsame := setIndex_same t hole (t.slots x)
      have hslots := setIndex_slots t hole (t.slots x)
      rw [if_neg hzero, if_neg hnull]
      have hxe' : x ≠ e := by
        rintro rfl
        exact hzero hempty
      have htrans := gap_trans hhole hx he (by omega)
      obtain ⟨t', hclose, hsame', hprobed, hholds⟩ := @ih (t.setIndex hole (t.slots x)) x e
        (by rw [hsame.home, hslots]; exact h.move hhole hx hxh hzero hdis) hx he hxe'.symm
        (by rw [hslots, update_of_ne heh]; exact hempty)
        (by
          intro d hd hdx hd0
          rw [hslots] at hd0 ⊢
          rw [hsame.object]
          by_cases hdh : d = hole
          · rw [hdh, update_self]
            exact hnull
          · rw [update_of_ne hdh] at hd0 ⊢
            exact hobj d hd hdh hd0)
        (by
          have := gap_pos hhole hxh
          change gap t.size x e < fuel
          omega)
      rw [hsame.home] at hprobed
      refine ⟨t', hclose, hsame.trans hsame', hprobed, ?_⟩
      intro c hc
      refine (hholds c hc).trans ?_
      rw [hslots]
      constructor
      · rintro ⟨d, hd, hdx, hdc⟩
        by_cases hdh : d = hole
        · rw [hdh, update_self] at hdc
          exact ⟨x, hx, hxh, hdc⟩
        · rw [update_of_ne hdh] at hdc
          exact ⟨d, hd, hdh, hdc⟩
      · rintro ⟨d, hd, hdh, hdc⟩
        by_cases hdx : d = x
        · exact ⟨hole, hhole, Ne.symm hxh, by rw [update_self, ← hdx]; exact hdc⟩
        · exact ⟨d, hd, hdx, by rw [update_of_ne hdh]; exact hdc⟩

/-- What holds of the hash table of a space: it is in order, and the indices in it are those
of the live objects. -/
structure HashOk (t : Table) (live : ℕ → Option ℕ) : Prop where
  size : 0 < t.size
  probed : Probed t.size t.home t.slots
  holds : ∀ i, i ≠ 0 → (Holds t.size t.slots i ↔ live (t.entry i).ieObject = some i)
  live : ∀ obj i, live obj = some i → obj ≠ 0 ∧ 0 < i ∧ i < t.size ∧ (t.entry i).ieObject = obj

section operations
variable {t : Table} {live : ℕ → Option ℕ}

theorem HashOk.slot_live (h : HashOk t live) {d : ℕ} (hd : d < t.size) (hne : t.slots d ≠ 0) :
    live (t.entry (t.slots d)).ieObject = some (t.slots d) :=
  (h.holds _ hne).mp ⟨d, hd, rfl⟩

theorem HashOk.exists_empty (h : HashOk t live) : ∃ e < t.size, t.slots e = 0 := by
  by_contra hnone
  have hfull : ∀ d < t.size, t.slots d ≠ 0 := by
    intro d hd h0
    exact hnone ⟨d, hd, h0⟩
  have hmaps : ∀ d ∈ Finset.range t.size, t.slots d ∈ Finset.Ico 1 t.size := by
    intro d hd
    have hd' := Finset.mem_range.mp hd
    obtain ⟨-, hpos, hlt, -⟩ := h.live _ _ (h.slot_live hd' (hfull d hd'))
    exact Finset.mem_Ico.mpr ⟨hpos, hlt⟩
  have hcard : (Finset.Ico 1 t.size).card < (Finset.range t.size).card := by
    have := h.size
    rw [Nat.card_Ico, Finset.card_range]
    omega
  obtain ⟨d, hd, d', hd', hne, heq⟩ := Finset.exists_ne_map_eq_of_card_lt_of_maps_to hcard hmaps
  have hd := Finset.mem_range.mp hd
  exact hne (h.probed.once d hd d' (Finset.mem_range.mp hd') (hfull d hd) heq)

theorem HashOk.lookup (h : HashOk t live) (obj : ℕ) : ipcHashLocalLookup t obj = some (live obj) := by
  have hhome := ihLocalHash_lt obj h.size
  obtain ⟨e, he, hempty⟩ := h.exists_empty
  obtain ⟨x, hx, hrun, hstop, hbefore⟩ := @probe_spec t.size
    (fun hindex => (t.entry hindex).ieIndex = 0 ∨
      (t.entry (t.entry hindex).ieIndex).ieObject = obj) t.size (ihLocalHash obj t.size) e hhome he
    (decide_eq_true (.inl hempty)) (gap_lt hhome he)
  rw [ipcHashLocalLookup, hrun, Option.map_some]
  change some (if t.slots x = 0 then none else some (t.slots x)) = _
  congr 1
  by_cases hzero : t.slots x = 0
  · rw [if_pos hzero]
    -- a live object would have been found before the empty slot
    cases hl : live obj with
    | none => rfl
    | some i =>
      obtain ⟨-, hpos, -, hobj⟩ := h.live obj i hl
      obtain ⟨d, hd, hdi⟩ := (h.holds i (by omega)).mpr (by rw [hobj]; exact hl)
      have hdh : t.home (t.slots d) = ihLocalHash obj t.size := by
        rw [hdi, Table.home, hobj]
      have hd0 : t.slots d ≠ 0 := by omega
      have hdx : ¬ gap t.size (ihLocalHash obj t.size) x < gap t.size (ihLocalHash obj t.size) d := by
        intro hlt
        exact h.probed.reach d hd hd0 x hx (by rw [hdh]; exact hlt) hzero
      rcases Nat.lt_or_ge (gap t.size (ihLocalHash obj t.size) d)
        (gap t.size (ihLocalHash obj t.size) x) with hlt | hge
      · have hno := hbefore d hd hlt
        have hobj' : (t.entry (t.entry d).ieIndex).ieObject = obj := by
          rw [show (t.entry d).ieIndex = i from hdi]
          exact hobj
        simp [hobj'] at hno
      · have := gap_inj hhome hd hx (by omega)
        rw [this] at hd0
        exact absurd hzero hd0
  · rw [if_neg hzero]
    have hobj : (t.entry (t.slots x)).ieObject = obj := by
      simp only [Table.slots] at hzero ⊢
      simpa [hzero] using hstop
    rw [← hobj]
    exact (h.slot_live hx hzero).symm

theorem HashOk.change (h : HashOk t live) {t' : Table} (hsize : t'.size = t.size)
    (hslots : t'.slots = t.slots)
    (hobj : ∀ o i, live o = some i → (t'.entry i).ieObject = (t.entry i).ieObject) :
    HashOk t' live := by
  have hhome : ∀ d < t.size, t.slots d ≠ 0 → t'.home (t.slots d) = t.home (t.slots d) := by
    intro d hd hd0
    unfold Table.home
    rw [hobj _ _ (h.slot_live hd hd0), hsize]
  refine ⟨by rw [hsize]; exact h.size, ⟨?_, ?_, ?_⟩, ?_, ?_⟩
  · intro d hd hd0
    rw [hsize] at hd ⊢
    rw [hslots] at hd0 ⊢
    rw [hhome d hd hd0]
    exact h.probed.inside d hd hd0
  · intro d hd hd0 x hx hlt
    rw [hsize] at hd hx hlt
    rw [hslots] at hd0 hlt ⊢
    rw [hhome d hd hd0] at hlt
    exact h.probed.reach d hd hd0 x hx hlt
  · rw [hsize, hslots]
    exact h.probed.once
  · intro i hi
    rw [hsize, hslots]
    constructor
    · intro hh
      have hl := (h.holds i hi).mp hh
      rw [hobj _ _ hl]
      exact hl
    · intro hl
      rw [hobj _ _ hl] at hl
      exact (h.holds i hi).mpr hl
  · intro o i hl
    rw [hsize, hobj o i hl]
    exact h.live o i hl

theorem HashOk.fill (h : HashOk t live) {index : ℕ} (hindex : ∀ o, live o ≠ some index) (obj : ℕ) :
    HashOk (t.setEntry index { t.entry index with ieObject := obj }) live := by
  refine h.change rfl ?_ ?_
  · funext i
    by_cases hi : i = index
    · subst hi
      simp [Table.slots, Table.setEntry]
    · simp [Table.slots, Table.setEntry, update_of_ne hi]
  · intro o i hl
    have hi : i ≠ index := by
      rintro rfl
      exact hindex o hl
    simp [Table.setEntry, update_of_ne hi]

theorem HashOk.slot_of_live (h : HashOk t live) {obj index : ℕ} (hl : live obj = some index) :
    ∃ d < t.size, t.slots d = index ∧ t.home (t.slots d) = ihLocalHash obj t.size := by
  obtain ⟨-, hpos, -, hobj⟩ := h.live obj index hl
  obtain ⟨d, hd, hdi⟩ := (h.holds index (by omega)).mpr (by rw [hobj]; exact hl)
  exact ⟨d, hd, hdi, by rw [hdi, Table.home, hobj]⟩

theorem HashOk.insert (h : HashOk t live) {obj index : ℕ} (hins : HashState.Inserts ⟨t, live⟩ obj index) :
    ∃ t', ipcHashLocalInsert t obj index = some t' ∧ SameEntries t t' ∧
      HashOk t' (update live obj (some index)) := by
  have hhome := ihLocalHash_lt obj h.size
  have hpos := hins.pos
  obtain ⟨e, he, hempty⟩ := h.exists_empty
  obtain ⟨x, hx, hrun, hstop, hbefore⟩ := @probe_spec t.size
    (fun hindex => (t.entry hindex).ieIndex = 0) t.size (ihLocalHash obj t.size) e hhome he
    (decide_eq_true hempty) (gap_lt hhome he)
  have hx0 : t.slots x = 0 := of_decide_eq_true hstop
  have hsame := setIndex_same t x index
  have hslots := setIndex_slots t x index
  have hidx : t.home index = ihLocalHash obj t.size := by
    unfold Table.home
    rw [hins.filled]
  have hnew : ¬ Holds t.size t.slots index := by
    intro hh
    have := (h.holds index (by omega)).mp hh
    rw [show (t.entry index).ieObject = obj from hins.filled, show live obj = none from hins.absent]
      at this
    cases this
  refine ⟨t.setIndex x index, ?_, hsame, h.size, ?_, ?_, ?_⟩
  · rw [ipcHashLocalInsert, hrun, Option.map_some]
  · rw [hsame.home, hslots]
    apply h.probed.insert (by omega) hnew
    · rw [hidx]
      exact hhome
    · intro y hy hlt
      rw [hidx] at hlt
      exact of_decide_eq_false (hbefore y hy hlt)
  · intro i hi
    rw [hsame.object, hslots]
    by_cases hii : i = index
    · rw [hii, show (t.entry index).ieObject = obj from hins.filled, update_self]
      exact ⟨fun _ => rfl, fun _ => ⟨x, hx, update_self ..⟩⟩
    · have hobj : live (t.entry i).ieObject = some i → (t.entry i).ieObject ≠ obj := by
        intro hl heq
        rw [heq, show live obj = none from hins.absent] at hl
        cases hl
      constructor
      · rintro ⟨d, hd, hdi⟩
        by_cases hdx : d = x
        · rw [hdx, update_self] at hdi
          exact absurd hdi.symm hii
        · rw [update_of_ne hdx] at hdi
          have hl := (h.holds i hi).mp ⟨d, hd, hdi⟩
          rw [update_of_ne (hobj hl)]
          exact hl
      · intro hl
        by_cases ho : (t.entry i).ieObject = obj
        · rw [ho, update_self] at hl
          exact absurd (Option.some.inj hl).symm hii
        · rw [update_of_ne ho] at hl
          obtain ⟨d, hd, hdi⟩ := (h.holds i hi).mpr hl
          have hdx : d ≠ x := by
            rintro rfl
            exact hi (hdi.symm.trans hx0)
          exact ⟨d, hd, by rw [update_of_ne hdx]; exact hdi⟩
  · intro o i hl
    rw [hsame.object]
    by_cases ho : o = obj
    · rw [ho, update_self] at hl
      cases hl
      exact ⟨by rw [ho]; exact hins.notNull, hins.pos, hins.lt, by rw [ho]; exact hins.filled⟩
    · rw [update_of_ne ho] at hl
      exact h.live o i hl

theorem HashOk.delete (h : HashOk t live) {obj index : ℕ} (hl : live obj = some index) :
    ∃ t', ipcHashLocalDelete t obj index = some t' ∧ SameEntries t t' ∧
      HashOk t' (update live obj none) := by
  have hhome := ihLocalHash_lt obj h.size
  obtain ⟨hnull, hpos, hlt, hobj⟩ := h.live obj index hl
  obtain ⟨d, hd, hdi, -⟩ := h.slot_of_live hl
  obtain ⟨x, hx, hrun, hstop, -⟩ := @probe_spec t.size
    (fun hindex => (t.entry hindex).ieIndex = index) t.size (ihLocalHash obj t.size) d hhome hd
    (decide_eq_true hdi) (gap_lt hhome hd)
  have hxi : t.slots x = index := of_decide_eq_true hstop
  obtain ⟨e, he, hempty⟩ := h.exists_empty
  have hex : e ≠ x := by
    rintro rfl
    omega
  have hobjs : ∀ y < t.size, y ≠ x → t.slots y ≠ 0 → (t.entry (t.slots y)).ieObject ≠ 0 :=
    fun y hy _ hy0 => (h.live _ _ (h.slot_live hy hy0)).1
  obtain ⟨t', hclose, hsame, hprobed, hholds⟩ := closeHole_spec (h.probed.holed x) hx he hex hempty
    hobjs (gap_lt hx he)
  refine ⟨t', ?_, hsame, ?_, ?_, ?_, ?_⟩
  · rw [ipcHashLocalDelete, hrun, Option.bind_some]
    exact hclose
  · rw [hsame.size]
    exact h.size
  · rw [hsame.size, hsame.home]
    exact hprobed
  · intro i hi
    rw [hsame.size, hsame.object]
    refine (hholds i hi).trans ?_
    constructor
    · rintro ⟨y, hy, hyx, hyi⟩
      have hli := (h.holds i hi).mp ⟨y, hy, hyi⟩
      have ho : (t.entry i).ieObject ≠ obj := by
        intro ho
        rw [ho, hl] at hli
        apply hyx
        apply h.probed.once y hy x hx (by rw [hyi]; exact hi)
        rw [hyi, hxi]
        exact (Option.some.inj hli).symm
      rw [update_of_ne ho]
      exact hli
    · intro hli
      have ho : (t.entry i).ieObject ≠ obj := by
        intro ho
        rw [ho, update_self] at hli
        cases hli
      rw [update_of_ne ho] at hli
      obtain ⟨y, hy, hyi⟩ := (h.holds i hi).mpr hli
      refine ⟨y, hy, ?_, hyi⟩
      rintro rfl
      apply ho
      rw [← hyi, hxi]
      exact hobj
  · intro o i hlo
    rw [hsame.size, hsame.object]
    by_cases ho : o = obj
    · rw [ho, update_self] at hlo
      cases hlo
    · rw [update_of_ne ho] at hlo
      exact h.live o i hlo

end operations

/-! ## Every run -/

/-- A table in which no object is inserted. -/
structure HashState.Fresh (s : HashState) : Prop where
  size : 0 < s.table.size
  empty : ∀ i < s.table.size, (s.table.entry i).ieIndex = 0
  live : ∀ obj, s.live obj = none

theorem HashState.Fresh.hashOk {s : HashState} (h : s.Fresh) : HashOk s.table s.live := by
  refine ⟨h.size, ⟨?_, ?_, ?_⟩, ?_, ?_⟩
  · intro d hd hne
    exact absurd (h.empty d hd) hne
  · intro d hd hne
    exact absurd (h.empty d hd) hne
  · intro d hd _ _ hne
    exact absurd (h.empty d hd) hne
  · intro i hi
    constructor
    · rintro ⟨d, hd, hdi⟩
      exact absurd (hdi.symm.trans (h.empty d hd)) hi
    · intro hl
      rw [h.live] at hl
      cases hl
  · intro obj i hl
    rw [h.live] at hl
    cases hl

theorem HashState.step_hashOk (s : HashState) (a : HashEvent) (t : HashState)
    (h : HashOk s.table s.live) (hstep : s.step a t) : HashOk t.table t.live := by
  cases a with
  | fill index obj =>
    obtain ⟨hfree, rfl⟩ := hstep
    exact h.fill hfree obj
  | insert obj index =>
    obtain ⟨hins, table, hrun, rfl⟩ := hstep
    obtain ⟨t', hrun', -, hok⟩ := h.insert hins
    rw [hrun'] at hrun
    cases hrun
    exact hok
  | delete obj index =>
    obtain ⟨hl, table, hrun, rfl⟩ := hstep
    obtain ⟨t', hrun', -, hok⟩ := h.delete hl
    rw [hrun'] at hrun
    cases hrun
    exact hok

/-- In every run from a table without objects, a lookup finds exactly the objects that are
inserted, under their index, insertion and deletion return, and after a deletion every other
object is found as before. -/
theorem local_hash_exact {s t : HashState} {as : List HashEvent} (hs : s.Fresh)
    (hrun : Run HashState.step s as t) :
    (∀ obj, ipcHashLocalLookup t.table obj = some (t.live obj)) ∧
    (∀ obj index, t.Inserts obj index → ∃ table, ipcHashLocalInsert t.table obj index = some table ∧
      ∀ o, ipcHashLocalLookup table o = some (if o = obj then some index else t.live o)) ∧
    (∀ obj index, t.live obj = some index →
      ∃ table, ipcHashLocalDelete t.table obj index = some table ∧
        ∀ o, ipcHashLocalLookup table o = some (if o = obj then none else t.live o)) := by
  have hok : HashOk t.table t.live := Run.invariant HashState.step_hashOk hrun hs.hashOk
  refine ⟨hok.lookup, ?_, ?_⟩
  · intro obj index hins
    obtain ⟨table, hrun, -, hok'⟩ := hok.insert hins
    refine ⟨table, hrun, ?_⟩
    intro o
    rw [hok'.lookup, update_apply]
  · intro obj index hl
    obtain ⟨table, hrun, -, hok'⟩ := hok.delete hl
    refine ⟨table, hrun, ?_⟩
    intro o
    rw [hok'.lookup, update_apply]

def PortType.none : PortType := ⟨false, false, false, false, false⟩

def Entry.zero : Entry := ⟨⟨0, false, false, false, PortType.none, 0⟩, 0, 0, 0⟩

/-- Two objects with the same home, the second around the end of the table; the first is
deleted, and the second moves. -/
theorem local_hash_exact_wrap :
    ∃ t : HashState, Run HashState.step ⟨⟨4, fun _ => Entry.zero⟩, fun _ => none⟩
        [.fill 1 192, .fill 2 448, .insert 192 1, .insert 448 2, .delete 192 1] t ∧
      (t.table.entry 3).ieIndex = 2 ∧ ipcHashLocalLookup t.table 448 = some (some 2) := by
  have hs : HashState.Fresh ⟨⟨4, fun _ => Entry.zero⟩, fun _ => none⟩ :=
    ⟨by decide, fun _ _ => rfl, fun _ => rfl⟩
  have hr : Run HashState.step ⟨⟨4, fun _ => Entry.zero⟩, fun _ => none⟩
      ([] ++ [.fill 1 192] ++ [.fill 2 448] ++ [.insert 192 1] ++ [.insert 448 2] ++
        [.delete 192 1]) _ :=
    .snoc (.snoc (.snoc (.snoc (.snoc (.nil _)
      ⟨fun _ h => (by cases h), rfl⟩) ⟨fun _ h => (by cases h), rfl⟩)
      ⟨⟨by decide, by decide, by decide, rfl, rfl⟩, _, rfl, rfl⟩)
      ⟨⟨by decide, by decide, by decide, rfl, rfl⟩, _, rfl, rfl⟩) ⟨rfl, _, rfl, rfl⟩
  exact ⟨_, hr, rfl, (local_hash_exact hs hr).1 448⟩

end Darwin.Ipc
