import Darwin.Vm.MapOps

/-! # The entries of a map

Behind the pointers a map is a list of records, sorted by address. At an address the map is
seen through the record that covers it, cut down to that address; clipping changes nothing
of that.
-/
namespace Darwin.Vm
open Darwin.Lib List

/-! ## Lists of records -/

namespace VmMapEntry

def covers (r : VmMapEntry) (a : ℕ) : Bool := r.vmeStart ≤ a ∧ a < r.vmeEnd

/-- The record for one address. -/
def clipTo (r : VmMapEntry) (a : ℕ) : VmMapEntry :=
  { r with vmeStart := a, vmeEnd := a + 1, offset := u32 (r.offset + (a - r.vmeStart)) }

/-- The record up to an address, and the one from there. -/
def front (r : VmMapEntry) (x : ℕ) : VmMapEntry := { r with vmeEnd := x }

def back (r : VmMapEntry) (x : ℕ) : VmMapEntry :=
  { r with vmeStart := x, offset := u32 (r.offset + (x - r.vmeStart)) }

def length (r : VmMapEntry) : ℕ := r.vmeEnd - r.vmeStart

/-- A part of `r`, which shows the same; it begins at the end of `r` only where `r` is empty. -/
structure PieceOf (t r : VmMapEntry) : Prop where
  start : r.vmeStart ≤ t.vmeStart
  stop : t.vmeEnd ≤ r.vmeEnd
  inside : t.vmeStart < r.vmeEnd ∨ t.vmeStart = r.vmeStart
  clipTo : ∀ a, t.vmeStart ≤ a → t.clipTo a = r.clipTo a

variable {r : VmMapEntry} {a x : ℕ}

theorem covers_eq_true : r.covers a = true ↔ r.vmeStart ≤ a ∧ a < r.vmeEnd := by
  rw [covers, decide_eq_true_iff]

theorem clipTo_back (hs : r.vmeStart ≤ x) (ha : x ≤ a) : (r.back x).clipTo a = r.clipTo a := by
  have harith : u32 (u32 (r.offset + (x - r.vmeStart)) + (a - x)) =
      u32 (r.offset + (a - r.vmeStart)) := by
    rw [u32, u32, u32, Nat.mod_add_mod]
    congr 1
    omega
  simp only [clipTo, back, harith]

theorem clipTo_front : (r.front x).clipTo a = r.clipTo a := rfl

theorem PieceOf.refl (r : VmMapEntry) : r.PieceOf r :=
  ⟨Nat.le_refl _, Nat.le_refl _, .inr rfl, fun _ _ => rfl⟩

theorem PieceOf.trans {t u : VmMapEntry} (h : u.PieceOf t) (h' : t.PieceOf r) : u.PieceOf r := by
  obtain ⟨hs, he, hin, hc⟩ := h
  obtain ⟨hs', he', hin', hc'⟩ := h'
  exact ⟨hs'.trans hs, he.trans he', by omega,
    fun a ha => (hc a ha).trans (hc' a (hs.trans ha))⟩

theorem pieceOf_front (he : x ≤ r.vmeEnd) : (r.front x).PieceOf r :=
  ⟨Nat.le_refl _, he, .inr rfl, fun _ _ => rfl⟩

theorem pieceOf_back (hs : r.vmeStart ≤ x) (he : x < r.vmeEnd) : (r.back x).PieceOf r :=
  ⟨hs, Nat.le_refl _, .inl he, fun _ ha => clipTo_back hs ha⟩

end VmMapEntry

/-- The map at an address, from the list of its records. -/
def viewOf (rs : List VmMapEntry) (a : ℕ) : Option VmMapEntry :=
  (rs.find? (fun r => r.covers a)).map (fun r => r.clipTo a)

def VmMap.view (m : VmMap) (a : ℕ) : Option VmMapEntry := viewOf (m.entries.map m.entry) a

/-- The sum of the lengths. -/
def total (rs : List VmMapEntry) : ℕ := (rs.map VmMapEntry.length).sum

/-- The records lie one behind the other between the bounds. -/
structure Laid (lo hi : ℕ) (rs : List VmMapEntry) : Prop where
  valid : ∀ r ∈ rs, lo ≤ r.vmeStart ∧ r.vmeStart ≤ r.vmeEnd ∧ r.vmeEnd ≤ hi
  sorted : rs.Pairwise (fun r t => r.vmeEnd ≤ t.vmeStart)

section Records
variable {lo hi a x : ℕ} {r t : VmMapEntry} {rs ts : List VmMapEntry}

@[simp] theorem viewOf_nil : viewOf [] a = none := rfl

theorem viewOf_cons : viewOf (r :: rs) a = if r.covers a then some (r.clipTo a) else viewOf rs a := by
  rw [viewOf, List.find?_cons]
  cases r.covers a <;> rfl

theorem viewOf_append : viewOf (rs ++ ts) a = (viewOf rs a).or (viewOf ts a) := by
  rw [viewOf, List.find?_append, Option.map_or]
  rfl

theorem viewOf_eq_none : viewOf rs a = none ↔ ∀ r ∈ rs, ¬ (r.vmeStart ≤ a ∧ a < r.vmeEnd) := by
  rw [viewOf, Option.map_eq_none_iff, List.find?_eq_none]
  simp only [VmMapEntry.covers_eq_true]

theorem viewOf_clip (hs : r.vmeStart ≤ x) (he : x ≤ r.vmeEnd) :
    viewOf (r.front x :: r.back x :: rs) a = viewOf (r :: rs) a := by
  rw [viewOf_cons, viewOf_cons, viewOf_cons]
  by_cases hax : a < x
  · have hfront : (r.front x).covers a = r.covers a := by
      rw [Bool.eq_iff_iff, VmMapEntry.covers_eq_true, VmMapEntry.covers_eq_true]
      simp only [VmMapEntry.front]
      omega
    have hback : (r.back x).covers a = false := by
      rw [Bool.eq_false_iff, Ne, VmMapEntry.covers_eq_true]
      simp only [VmMapEntry.back]
      omega
    rw [hfront, hback, VmMapEntry.clipTo_front]
    rfl
  · have hfront : (r.front x).covers a = false := by
      rw [Bool.eq_false_iff, Ne, VmMapEntry.covers_eq_true]
      simp only [VmMapEntry.front]
      omega
    have hback : (r.back x).covers a = r.covers a := by
      rw [Bool.eq_iff_iff, VmMapEntry.covers_eq_true, VmMapEntry.covers_eq_true]
      simp only [VmMapEntry.back]
      omega
    rw [hfront, hback, VmMapEntry.clipTo_back hs (by omega)]
    rfl

/-- The records of `ts` are pieces of those of `rs`. -/
def PiecesOf (ts rs : List VmMapEntry) : Prop := ∀ t ∈ ts, ∃ r ∈ rs, t.PieceOf r

theorem PiecesOf.refl (rs : List VmMapEntry) : PiecesOf rs rs := fun r hr => ⟨r, hr, .refl r⟩

theorem PiecesOf.trans {us : List VmMapEntry} (h : PiecesOf us ts) (h' : PiecesOf ts rs) :
    PiecesOf us rs := by
  intro u hu
  obtain ⟨t, ht, hut⟩ := h u hu
  obtain ⟨r, hr, htr⟩ := h' t ht
  exact ⟨r, hr, hut.trans htr⟩

theorem PiecesOf.of_subset (h : ts ⊆ rs) : PiecesOf ts rs := fun t ht => ⟨t, h ht, .refl t⟩

theorem piecesOf_clip (hs : r.vmeStart ≤ x) (he : x < r.vmeEnd) :
    PiecesOf (rs ++ r.front x :: r.back x :: ts) (rs ++ r :: ts) := by
  intro t ht
  have hr : r ∈ rs ++ r :: ts := mem_append_right _ mem_cons_self
  rcases mem_append.mp ht with ht | ht
  · exact ⟨t, mem_append_left _ ht, .refl t⟩
  rcases mem_cons.mp ht with rfl | ht
  · exact ⟨r, hr, VmMapEntry.pieceOf_front (Nat.le_of_lt he)⟩
  rcases mem_cons.mp ht with rfl | ht
  · exact ⟨r, hr, VmMapEntry.pieceOf_back hs he⟩
  · exact ⟨t, mem_append_right _ (mem_cons_of_mem _ ht), .refl t⟩

@[simp] theorem total_nil : total [] = 0 := rfl

theorem total_cons : total (r :: rs) = r.length + total rs := by
  rw [total, map_cons, sum_cons, ← total]

theorem total_append : total (rs ++ ts) = total rs + total ts := by
  rw [total, map_append, sum_append, ← total, ← total]

theorem total_clip (hs : r.vmeStart ≤ x) (he : x ≤ r.vmeEnd) :
    total (r.front x :: r.back x :: rs) = total (r :: rs) := by
  rw [total_cons, total_cons, total_cons]
  simp only [VmMapEntry.length, VmMapEntry.front, VmMapEntry.back]
  omega

/-- The first record may have been cut at `x`. -/
def CutAt (x : ℕ) (rs rs' : List VmMapEntry) : Prop :=
  rs' = rs ∨ ∃ r ts, rs = r :: ts ∧ r.vmeStart ≤ x ∧ x < r.vmeEnd ∧
    rs' = r.front x :: r.back x :: ts

theorem CutAt.view (h : CutAt x rs ts) : viewOf ts a = viewOf rs a := by
  rcases h with rfl | ⟨r, us, rfl, hs, he, rfl⟩
  · rfl
  · exact viewOf_clip hs (Nat.le_of_lt he)

theorem CutAt.pieces (h : CutAt x rs ts) : PiecesOf ts rs := by
  rcases h with rfl | ⟨r, us, rfl, hs, he, rfl⟩
  · exact .refl ts
  · have hclip : PiecesOf ([] ++ r.front x :: r.back x :: us) ([] ++ r :: us) := piecesOf_clip hs he
    exact hclip

namespace Laid

theorem nil : Laid lo hi [] := ⟨by simp, .nil⟩

theorem append_iff : Laid lo hi (rs ++ ts) ↔ Laid lo hi rs ∧ Laid lo hi ts ∧
    ∀ r ∈ rs, ∀ t ∈ ts, r.vmeEnd ≤ t.vmeStart := by
  constructor
  · rintro ⟨hv, hs⟩
    rw [pairwise_append] at hs
    exact ⟨⟨fun r hr => hv r (mem_append_left _ hr), hs.1⟩,
      ⟨fun t ht => hv t (mem_append_right _ ht), hs.2.1⟩, hs.2.2⟩
  · rintro ⟨⟨hv, hs⟩, ⟨hv', hs'⟩, hrel⟩
    refine ⟨?_, pairwise_append.mpr ⟨hs, hs', hrel⟩⟩
    intro r hr
    rcases mem_append.mp hr with hr | hr
    · exact hv r hr
    · exact hv' r hr

theorem cons_iff : Laid lo hi (r :: rs) ↔
    (lo ≤ r.vmeStart ∧ r.vmeStart ≤ r.vmeEnd ∧ r.vmeEnd ≤ hi) ∧ Laid lo hi rs ∧
      ∀ t ∈ rs, r.vmeEnd ≤ t.vmeStart := by
  constructor
  · rintro ⟨hv, hs⟩
    rw [pairwise_cons] at hs
    exact ⟨hv r mem_cons_self, ⟨fun t ht => hv t (mem_cons_of_mem _ ht), hs.2⟩, hs.1⟩
  · rintro ⟨hr, ⟨hv, hs⟩, hrel⟩
    refine ⟨?_, pairwise_cons.mpr ⟨hrel, hs⟩⟩
    intro t ht
    rcases mem_cons.mp ht with rfl | ht
    · exact hr
    · exact hv t ht

theorem clip (h : Laid lo hi (rs ++ r :: ts)) (hs : r.vmeStart ≤ x) (he : x ≤ r.vmeEnd) :
    Laid lo hi (rs ++ r.front x :: r.back x :: ts) := by
  rw [append_iff, cons_iff] at h
  obtain ⟨hrs, ⟨hr, hts, hrel⟩, hcross⟩ := h
  rw [append_iff, cons_iff, cons_iff]
  refine ⟨hrs, ⟨?_, ⟨?_, hts, hrel⟩, ?_⟩, ?_⟩
  · simp only [VmMapEntry.front]
    omega
  · simp only [VmMapEntry.back]
    omega
  · intro t ht
    rcases mem_cons.mp ht with rfl | ht
    · exact Nat.le_refl x
    · exact he.trans (hrel t ht)
  · intro u hu t ht
    have hur : u.vmeEnd ≤ r.vmeStart := hcross u hu r mem_cons_self
    rcases mem_cons.mp ht with rfl | ht
    · exact hur
    rcases mem_cons.mp ht with rfl | ht
    · exact hur.trans hs
    · exact hcross u hu t (mem_cons_of_mem _ ht)

theorem replace (h : Laid lo hi (rs ++ r :: ts)) (hs : t.vmeStart = r.vmeStart)
    (he : t.vmeEnd = r.vmeEnd) : Laid lo hi (rs ++ t :: ts) := by
  rw [append_iff, cons_iff] at h ⊢
  obtain ⟨hrs, ⟨hr, hts, hrel⟩, hcross⟩ := h
  rw [hs, he]
  refine ⟨hrs, ⟨hr, hts, hrel⟩, ?_⟩
  intro u hu v hv
  rcases mem_cons.mp hv with rfl | hv
  · rw [hs]
    exact hcross u hu r mem_cons_self
  · exact hcross u hu v (mem_cons_of_mem _ hv)

theorem remove (h : Laid lo hi (rs ++ r :: ts)) : Laid lo hi (rs ++ ts) := by
  rw [append_iff, cons_iff] at h
  obtain ⟨hrs, ⟨-, hts, -⟩, hcross⟩ := h
  exact append_iff.mpr ⟨hrs, hts, fun u hu v hv => hcross u hu v (mem_cons_of_mem _ hv)⟩

theorem total_le (h : Laid lo hi rs) (hle : lo ≤ hi) : total rs ≤ hi - lo := by
  induction rs generalizing lo with
  | nil => exact Nat.zero_le _
  | cons r rs ih =>
    obtain ⟨hr, hrs, hrel⟩ := cons_iff.mp h
    have hrest : Laid r.vmeEnd hi rs :=
      ⟨fun t ht => ⟨hrel t ht, (hrs.valid t ht).2⟩, hrs.sorted⟩
    have := ih hrest hr.2.2
    rw [total_cons, VmMapEntry.length]
    omega

end Laid

end Records

/-! ## Well-formed maps -/

/-- The entries `l` are linked in both directions, sorted and inside the map, and the two
cached pointers are among them or at the header. -/
structure MapOk (m : VmMap) (l : List ℕ) : Prop where
  ring : LinkedRing m.next m.prev 0 l
  count : m.nentries = l.length
  laid : Laid m.minOffset m.maxOffset (l.map m.entry)
  bound : m.maxOffset < 2 ^ 32
  hint : m.hint ∈ 0 :: l
  firstFree : m.firstFree ∈ 0 :: l
  fresh : ∀ e ∈ 0 :: l, e < m.fresh

section
variable {m : VmMap} {l p q : List ℕ} {a e x : ℕ}

theorem map_update_of_notMem {f : ℕ → VmMapEntry} {r : VmMapEntry} (h : e ∉ l) :
    l.map (Function.update f e r) = l.map f := by
  apply map_congr_left
  intro y hy
  apply Function.update_of_ne
  rintro rfl
  exact h hy

namespace MapOk

theorem entries_eq (h : MapOk m l) : m.entries = l := by
  rw [VmMap.entries, h.count]
  exact h.ring.walk_header

theorem view_eq (h : MapOk m l) : m.view a = viewOf (l.map m.entry) a := by
  rw [VmMap.view, h.entries_eq]

theorem pos (h : MapOk m l) (he : e ∈ l) : e ≠ 0 := by
  rintro rfl
  exact (nodup_cons.mp h.ring.nodup).1 he

theorem nodup (h : MapOk m l) : l.Nodup := (nodup_cons.mp h.ring.nodup).2

theorem fresh_notMem (h : MapOk m l) : m.fresh ∉ 0 :: l :=
  fun hmem => Nat.lt_irrefl _ (h.fresh _ hmem)

theorem valid (h : MapOk m l) (he : e ∈ l) : m.minOffset ≤ (m.entry e).vmeStart ∧
    (m.entry e).vmeStart ≤ (m.entry e).vmeEnd ∧ (m.entry e).vmeEnd ≤ m.maxOffset :=
  h.laid.valid _ (mem_map_of_mem he)

theorem sorted (h : MapOk m (p ++ q)) (he : e ∈ p) (hx : x ∈ q) :
    (m.entry e).vmeEnd ≤ (m.entry x).vmeStart := by
  have hlaid := h.laid
  rw [map_append, Laid.append_iff] at hlaid
  exact hlaid.2.2 _ (mem_map_of_mem he) _ (mem_map_of_mem hx)

theorem end_le (h : MapOk m (p ++ e :: q)) (hx : x ∈ q) :
    (m.entry e).vmeEnd ≤ (m.entry x).vmeStart := by
  have h' : MapOk m ((p ++ [e]) ++ q) := by
    rwa [append_assoc, singleton_append]
  exact h'.sorted (mem_append_right _ (mem_singleton.mpr rfl)) hx

theorem start_le (h : MapOk m (p ++ e :: q)) (hx : x ∈ e :: q) :
    (m.entry e).vmeStart ≤ (m.entry x).vmeStart := by
  rcases mem_cons.mp hx with rfl | hx
  · exact Nat.le_refl _
  · have hval := h.valid (mem_append_right p (mem_cons_self (a := e) (l := q)))
    exact hval.2.1.trans (h.end_le hx)

theorem notMem_left (h : MapOk m (p ++ e :: q)) : e ∉ p := by
  have hn := h.nodup
  rw [nodup_append] at hn
  exact fun hmem => hn.2.2 e hmem e mem_cons_self rfl

theorem notMem_right (h : MapOk m (p ++ e :: q)) : e ∉ q := by
  have hn := h.nodup
  rw [nodup_append, nodup_cons] at hn
  exact hn.2.1.1

theorem setEntries (h : MapOk m l) {f : ℕ → VmMapEntry} (hf : f 0 = m.entry 0)
    (hlaid : Laid m.minOffset m.maxOffset (l.map f)) : MapOk { m with entry := f } l := by
  have hmin : VmMap.minOffset { m with entry := f } = m.minOffset := by
    simp only [VmMap.minOffset, hf]
  have hmax : VmMap.maxOffset { m with entry := f } = m.maxOffset := by
    simp only [VmMap.maxOffset, hf]
  refine ⟨h.ring, h.count, ?_, ?_, h.hint, h.firstFree, h.fresh⟩
  · rw [hmin, hmax]
    exact hlaid
  · rw [hmax]
    exact h.bound

theorem grow (h : MapOk m (p ++ q)) {f : ℕ → VmMapEntry} (hf : f 0 = m.entry 0)
    (hlaid : Laid m.minOffset m.maxOffset ((p ++ m.fresh :: q).map f)) (ha : p.getLastD 0 = a) :
    MapOk ({ m with fresh := m.fresh + 1, entry := f }.entryLink a m.fresh) (p ++ m.fresh :: q) := by
  have hmin : (VmMap.entryLink { m with fresh := m.fresh + 1, entry := f } a m.fresh).minOffset =
      m.minOffset := by
    simp only [VmMap.minOffset, VmMap.entryLink, hf]
  have hmax : (VmMap.entryLink { m with fresh := m.fresh + 1, entry := f } a m.fresh).maxOffset =
      m.maxOffset := by
    simp only [VmMap.maxOffset, VmMap.entryLink, hf]
  have hsub : ∀ e ∈ 0 :: (p ++ q), e ∈ 0 :: (p ++ m.fresh :: q) := by
    intro e he
    simp only [mem_cons, mem_append] at he ⊢
    tauto
  refine ⟨h.ring.link ha h.fresh_notMem, ?_, ?_, ?_, hsub _ h.hint, hsub _ h.firstFree, ?_⟩
  · change m.nentries + 1 = _
    rw [h.count]
    simp only [length_append, length_cons]
    omega
  · rw [hmin, hmax]
    exact hlaid
  · rw [hmax]
    exact h.bound
  · intro e he
    change e < m.fresh + 1
    by_cases hef : e = m.fresh
    · omega
    · refine Nat.lt_succ_of_lt (h.fresh e ?_)
      simp only [mem_cons, mem_append] at he ⊢
      tauto

theorem unlink (h : MapOk m (p ++ e :: q)) (hhint : m.hint ≠ e) (hfree : m.firstFree ≠ e) :
    MapOk (m.entryUnlink e) (p ++ q) := by
  have hsub : ∀ x, x ≠ e → x ∈ 0 :: (p ++ e :: q) → x ∈ 0 :: (p ++ q) := by
    intro x hx hmem
    simp only [mem_cons, mem_append] at hmem ⊢
    tauto
  refine ⟨h.ring.unlink, ?_, ?_, h.bound, hsub _ hhint h.hint, hsub _ hfree h.firstFree, ?_⟩
  · change m.nentries - 1 = _
    rw [h.count]
    simp only [length_append, length_cons]
    omega
  · have hlaid := h.laid
    rw [map_append, map_cons] at hlaid
    have hrest := hlaid.remove
    rw [← map_append] at hrest
    exact hrest
  · intro x hx
    apply h.fresh
    simp only [mem_cons, mem_append] at hx ⊢
    tauto

theorem setHint (h : MapOk m l) (hx : x ∈ 0 :: l) : MapOk { m with hint := x } l :=
  ⟨h.ring, h.count, h.laid, h.bound, hx, h.firstFree, h.fresh⟩

theorem setFirstFree (h : MapOk m l) (hx : x ∈ 0 :: l) : MapOk { m with firstFree := x } l :=
  ⟨h.ring, h.count, h.laid, h.bound, h.hint, hx, h.fresh⟩

theorem setSize (h : MapOk m l) (n : ℕ) : MapOk { m with size := n } l :=
  ⟨h.ring, h.count, h.laid, h.bound, h.hint, h.firstFree, h.fresh⟩

theorem setRefCount (h : MapOk m l) (n : ℤ) : MapOk { m with refCount := n } l :=
  ⟨h.ring, h.count, h.laid, h.bound, h.hint, h.firstFree, h.fresh⟩

end MapOk

/-! ## Lookup -/

/-- The place of an address in the list: the entries before end at or before it, the others
end after it. -/
structure Split (m : VmMap) (a : ℕ) (p q : List ℕ) : Prop where
  before : ∀ e ∈ p, (m.entry e).vmeEnd ≤ a
  after : ∀ e ∈ q, a < (m.entry e).vmeEnd

/-- The answer of a lookup: the first entry after the place, if it covers the address, or the
last one before. -/
def Answers (m : VmMap) (a : ℕ) (p q : List ℕ) (found : Bool) (e : ℕ) : Prop :=
  (found = true ∧ (m.entry e).vmeStart ≤ a ∧ ∃ q', q = e :: q') ∨
    (found = false ∧ e = p.getLastD 0 ∧ ∀ x ∈ q, a < (m.entry x).vmeStart)

theorem MapOk.split (h : MapOk m (p ++ e :: q)) (hp : ∀ x ∈ p, (m.entry x).vmeEnd ≤ a)
    (he : a < (m.entry e).vmeEnd) : Split m a p (e :: q) := by
  refine ⟨hp, ?_⟩
  intro x hx
  rcases mem_cons.mp hx with rfl | hx
  · exact he
  · have hle := h.end_le hx
    have hval := h.valid (mem_append_right _ (mem_cons_of_mem e hx))
    omega

theorem MapOk.after_head (h : MapOk m (p ++ e :: q)) (he : a < (m.entry e).vmeStart) :
    ∀ x ∈ e :: q, a < (m.entry x).vmeStart :=
  fun _ hx => he.trans_le (h.start_le hx)

theorem lookupLoop_spec {q₁ q₂ : List ℕ} {fuel : ℕ} (h : MapOk m (p ++ (q₁ ++ q₂)))
    (hp : ∀ x ∈ p, (m.entry x).vmeEnd ≤ a)
    (hstop : q₂ = [] ∨ ∃ x ∈ q₁, a < (m.entry x).vmeEnd) (hfuel : q₁.length < fuel) :
    ∃ p' q' found e, p ++ (q₁ ++ q₂) = p' ++ q' ∧ Split m a p' q' ∧ Answers m a p' q' found e ∧
      m.lookupLoop a (q₂.headD 0) fuel ((q₁ ++ q₂).headD 0) = .ok (found, e) := by
  -- along the part that is searched
  induction q₁ generalizing p fuel with
  | nil =>
    obtain rfl : q₂ = [] := by
      rcases hstop with rfl | ⟨x, hx, -⟩
      · rfl
      · cases hx
    obtain ⟨fuel, rfl⟩ := Nat.exists_eq_succ_of_ne_zero (Nat.ne_of_gt hfuel)
    refine ⟨p, [], false, p.getLastD 0, rfl, ⟨hp, by simp⟩, .inr ⟨rfl, rfl, by simp⟩, ?_⟩
    rw [nil_append, append_nil] at h
    rw [VmMap.lookupLoop, nil_append, if_pos rfl]
    exact congrArg (fun e => Except.ok (false, e)) h.ring.prev_header
  | cons b q₁ ih =>
    obtain ⟨fuel, rfl⟩ := Nat.exists_eq_succ_of_ne_zero (Nat.ne_of_gt (Nat.zero_lt_of_lt hfuel))
    have hb : b ∈ p ++ (b :: q₁ ++ q₂) := by simp
    have hne : b ≠ q₂.headD 0 := by
      intro heq
      have hmem := LinkedRing.headD_mem q₂ 0
      rw [← heq] at hmem
      rcases mem_append.mp hmem with hmem | hmem
      · exact h.notMem_right (e := b) (q := q₁ ++ q₂) (mem_append_right _ hmem)
      · exact h.pos hb (mem_singleton.mp hmem)
    rw [VmMap.lookupLoop, cons_append, headD_cons, if_neg hne]
    by_cases hend : a < (m.entry b).vmeEnd
    · rw [if_pos hend]
      refine ⟨p, b :: (q₁ ++ q₂), ?_⟩
      by_cases hstart : (m.entry b).vmeStart ≤ a
      · rw [if_pos hstart]
        exact ⟨true, b, rfl, h.split hp hend, .inl ⟨rfl, hstart, _, rfl⟩, rfl⟩
      · rw [if_neg hstart]
        refine ⟨false, p.getLastD 0, rfl, h.split hp hend, .inr ⟨rfl, rfl, ?_⟩, ?_⟩
        · exact h.after_head (Nat.lt_of_not_le hstart)
        · rw [h.ring.prev_mem]
    · rw [if_neg hend]
      have h' : MapOk m ((p ++ [b]) ++ (q₁ ++ q₂)) := by
        rwa [append_assoc, singleton_append]
      have hp' : ∀ x ∈ p ++ [b], (m.entry x).vmeEnd ≤ a := by
        intro x hx
        rcases mem_append.mp hx with hx | hx
        · exact hp x hx
        · rw [mem_singleton.mp hx]
          exact Nat.le_of_not_lt hend
      have hstop' : q₂ = [] ∨ ∃ x ∈ q₁, a < (m.entry x).vmeEnd := by
        refine hstop.imp_right ?_
        rintro ⟨x, hx, hxa⟩
        rcases mem_cons.mp hx with rfl | hx
        · exact absurd hxa hend
        · exact ⟨x, hx, hxa⟩
      have hrest := ih h' hp' hstop' (Nat.lt_of_succ_lt_succ hfuel)
      rw [append_assoc, singleton_append] at hrest
      rw [h.ring.next_mem]
      exact hrest

theorem answers_mem (h : MapOk m (p ++ q)) {found : Bool} (hans : Answers m a p q found e) :
    e ∈ 0 :: (p ++ q) := by
  rcases hans with ⟨-, -, q', rfl⟩ | ⟨-, rfl, -⟩
  · simp
  · rw [← cons_append]
    exact mem_append_left _ (LinkedRing.getLastD_mem p 0)

theorem vmMapLookupEntry_spec (h : MapOk m l) (a : ℕ) : ∃ p q found e hint, l = p ++ q ∧
    Split m a p q ∧ Answers m a p q found e ∧ hint ∈ 0 :: l ∧ (found = false → hint = e) ∧
    m.vmMapLookupEntry a = .ok (found, e, { m with hint := hint }) := by
  -- what a search saves and answers
  have hsaved : ∀ {p q found e}, l = p ++ q → Split m a p q → Answers m a p q found e →
      ∃ p q found' e' hint, l = p ++ q ∧ Split m a p q ∧ Answers m a p q found' e' ∧
        hint ∈ 0 :: l ∧ (found' = false → hint = e') ∧
        Except.ok (found, e, { m with hint := e }) =
          (Except.ok (found', e', { m with hint := hint }) : Except Stop _) := by
    intro p q found e hl hsplit hans
    subst hl
    exact ⟨p, q, found, e, e, rfl, hsplit, hans, answers_mem h hans, fun _ => rfl, rfl⟩
  generalize hcur : (if m.hint = 0 then m.next 0 else m.hint) = cur
  have hmem : cur = 0 ∧ l = [] ∨ cur ∈ l := by
    by_cases hz : m.hint = 0
    · rw [if_pos hz, h.ring.next_header] at hcur
      cases l with
      | nil => exact .inl ⟨hcur.symm, rfl⟩
      | cons b l =>
        rw [← hcur]
        exact .inr mem_cons_self
    · rw [if_neg hz] at hcur
      rw [← hcur]
      exact .inr ((mem_cons.mp h.hint).resolve_left hz)
  rw [VmMap.vmMapLookupEntry]
  simp only [hcur, bind, Except.bind, pure, Except.pure]
  rcases hmem with ⟨rfl, rfl⟩ | hmem
  · have hn : m.next 0 = 0 := h.ring.next_header
    have hp : m.prev 0 = 0 := h.ring.prev_header
    have hloop : m.lookupLoop a 0 (m.nentries + 1) 0 = .ok (false, 0) := by
      rw [VmMap.lookupLoop, if_pos rfl, hp]
    have hans : Answers m a [] [] false 0 := .inr ⟨rfl, rfl, by simp⟩
    have hfinal := hsaved rfl ⟨by simp, by simp⟩ hans
    simp only [hn, hloop, ne_eq, not_true_eq_false, false_and, if_false, ite_self]
    exact hfinal
  · obtain ⟨p, q, rfl⟩ := append_of_mem hmem
    have hnz := h.pos hmem
    by_cases hstart : (m.entry cur).vmeStart ≤ a
    · have hp : ∀ x ∈ p, (m.entry x).vmeEnd ≤ a :=
        fun x hx => (h.sorted hx mem_cons_self).trans hstart
      rw [if_pos hstart]
      by_cases hend : a < (m.entry cur).vmeEnd
      · rw [if_pos ⟨hnz, hend⟩]
        exact ⟨p, cur :: q, true, cur, m.hint, rfl, h.split hp hend, .inl ⟨rfl, hstart, q, rfl⟩,
          h.hint, by simp, rfl⟩
      · rw [if_neg (fun hand => hend hand.2)]
        have h' : MapOk m (p ++ ((cur :: q) ++ [])) := by rwa [append_nil]
        have hfuel : (cur :: q).length < m.nentries + 1 := by
          rw [h.count]
          simp only [length_append, length_cons]
          omega
        obtain ⟨p', q', found, e, heq, hsplit, hans, hrun⟩ := lookupLoop_spec h' hp (.inl rfl) hfuel
        rw [append_nil] at heq hrun
        rw [headD_cons, headD_nil] at hrun
        rw [hrun]
        exact hsaved heq hsplit hans
    · rw [if_neg hstart]
      have hval := h.valid hmem
      have h' : MapOk m ([] ++ ((p ++ [cur]) ++ q)) := by
        rwa [nil_append, append_assoc, singleton_append]
      have hfuel : (p ++ [cur]).length < m.nentries + 1 := by
        rw [h.count]
        simp only [length_append, length_cons, length_nil]
        omega
      have hstop : q = [] ∨ ∃ x ∈ p ++ [cur], a < (m.entry x).vmeEnd :=
        .inr ⟨cur, by simp, by omega⟩
      obtain ⟨p', q', found, e, heq, hsplit, hans, hrun⟩ :=
        lookupLoop_spec h' (by simp) hstop hfuel
      rw [nil_append, append_assoc, singleton_append] at heq
      rw [append_assoc, singleton_append] at hrun
      rw [h.ring.next_mem, h.ring.next_header, hrun]
      exact hsaved heq hsplit hans

end

end Darwin.Vm
