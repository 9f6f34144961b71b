import Darwin.Vm.MapRefused

/-! # Changes in place

Most operations leave every entry where it is: they cut entries and change some of their
fields. What may change at an address is a parameter; the layout of the maps, what is mapped
and the sums of the lengths stay.
-/
namespace Darwin.Vm
open Darwin.Lib Function List

variable {D : Type} {s s' s'' : Maps D} {m m' m'' : VmMap} {l l' l'' p q : List ℕ}
  {id e x a start stop : ℕ}

/-- What may change in the entries of the map `id`, as they are seen at an address. -/
structure EntryChange where
  rel : ℕ → VmMapEntry → VmMapEntry → Prop
  refl : ∀ id r, rel id r r
  trans : ∀ {id r t u}, rel id r t → rel id t u → rel id r u

/-- Nothing changes. -/
def EntryChange.same : EntryChange := ⟨fun _ => Eq, fun _ _ => rfl, fun h h' => h.trans h'⟩

variable {V : EntryChange}

/-- A part of `r`, in which something may have changed. -/
structure PartOf (V : EntryChange) (id : ℕ) (t r : VmMapEntry) : Prop where
  start : r.vmeStart ≤ t.vmeStart
  stop : t.vmeEnd ≤ r.vmeEnd
  inside : t.vmeStart < r.vmeEnd ∨ t.vmeStart = r.vmeStart
  change : ∀ a, t.vmeStart ≤ a → V.rel id (r.clipTo a) (t.clipTo a)

theorem VmMapEntry.PieceOf.part {t r : VmMapEntry} (h : t.PieceOf r) : PartOf V id t r := by
  refine ⟨h.start, h.stop, h.inside, fun a ha => ?_⟩
  rw [h.clipTo a ha]
  exact V.refl id _

theorem PartOf.trans {t r u : VmMapEntry} (h : PartOf V id u t) (h' : PartOf V id t r) :
    PartOf V id u r := by
  obtain ⟨hs, he, hin, hc⟩ := h
  obtain ⟨hs', he', hin', hc'⟩ := h'
  exact ⟨hs'.trans hs, he.trans he', by omega,
    fun a ha => V.trans (hc' a (hs.trans ha)) (hc a ha)⟩

/-- The map `m'` that has come out of `m`. -/
structure Evolved (V : EntryChange) (id : ℕ) (m m' : VmMap) (l l' : List ℕ) : Prop where
  ok : MapOk m' l'
  mapped : ∀ a, Mapped (l.map m.entry) a → Mapped (l'.map m'.entry) a
  parts : ∀ t ∈ l'.map m'.entry, ∃ r ∈ l.map m.entry, PartOf V id t r
  total : total (l'.map m'.entry) = total (l.map m.entry)
  header : m'.entry 0 = m.entry 0
  size : m'.size = m.size
  isMainMap : m'.isMainMap = m.isMainMap

theorem Reshaped.evolved (h : Reshaped m m' l l') : Evolved V id m m' l l' := by
  refine ⟨h.ok, fun a ha => ?_, fun t ht => ?_, h.total, h.header, h.size, h.isMainMap⟩
  · rw [mapped_iff_view, h.view, ← mapped_iff_view]
    exact ha
  · obtain ⟨r, hr, hp⟩ := h.pieces t ht
    exact ⟨r, hr, hp.part⟩

namespace Evolved

theorem refl (h : MapOk m l) : Evolved V id m m l l := (Reshaped.refl h).evolved

theorem trans (h : Evolved V id m m' l l') (h' : Evolved V id m' m'' l' l'') :
    Evolved V id m m'' l l'' := by
  refine ⟨h'.ok, fun a ha => h'.mapped a (h.mapped a ha), fun u hu => ?_, h'.total.trans h.total,
    h'.header.trans h.header, h'.size.trans h.size, h'.isMainMap.trans h.isMainMap⟩
  obtain ⟨t, ht, hut⟩ := h'.parts u hu
  obtain ⟨r, hr, htr⟩ := h.parts t ht
  exact ⟨r, hr, hut.trans htr⟩

theorem recount (h : Evolved V id m m' l l') (c : ℤ) :
    Evolved V id m { m' with refCount := c } l l' :=
  ⟨h.ok.setRefCount c, h.mapped, h.parts, h.total, h.header, h.size, h.isMainMap⟩

theorem setHint (h : Evolved V id m m' l l') (hx : x ∈ 0 :: l') :
    Evolved V id m { m' with hint := x } l l' :=
  ⟨h.ok.setHint hx, h.mapped, h.parts, h.total, h.header, h.size, h.isMainMap⟩

theorem setEntry (hok : MapOk m (p ++ e :: q)) {r : VmMapEntry}
    (hs : r.vmeStart = (m.entry e).vmeStart) (he : r.vmeEnd = (m.entry e).vmeEnd)
    (hr : ∀ a, V.rel id ((m.entry e).clipTo a) (r.clipTo a)) :
    Evolved V id m (m.setEntry e r) (p ++ e :: q) (p ++ e :: q) := by
  have hrecs : (p ++ e :: q).map (m.setEntry e r).entry = p.map m.entry ++ r :: q.map m.entry := by
    change (p ++ e :: q).map (update m.entry e r) = _
    rw [map_append, map_cons, update_self,
      map_update_of_notMem hok.notMem_left, map_update_of_notMem hok.notMem_right]
  refine ⟨hok.setEntry hs he, ?_, ?_, ?_, update_of_ne hok.mid_ne.1 _ _, rfl, rfl⟩
  · intro a ha
    rw [hrecs, mapped_append, mapped_cons, hs, he]
    rwa [map_append, map_cons, mapped_append, mapped_cons] at ha
  · rw [hrecs, map_append, map_cons]
    intro t ht
    rcases mem_append.mp ht with ht | ht
    · exact ⟨t, mem_append_left _ ht, (VmMapEntry.PieceOf.refl t).part⟩
    rcases mem_cons.mp ht with rfl | ht
    · exact ⟨m.entry e, mem_append_right _ mem_cons_self, Nat.le_of_eq hs.symm,
        Nat.le_of_eq he, .inr hs, fun a _ => hr a⟩
    · exact ⟨t, mem_append_right _ (mem_cons_of_mem _ ht),
        (VmMapEntry.PieceOf.refl t).part⟩
  · rw [hrecs, map_append, map_cons, total_append, total_cons, total_append, total_cons,
      VmMapEntry.length, VmMapEntry.length, hs, he]

end Evolved

/-! ## In the table -/

/-- Every map is left, with its entries changed in place. -/
structure Evolves (V : EntryChange) (s s' : Maps D) : Prop where
  maps : ∀ id m l, s.table id = some m → MapOk m l →
    ∃ m' l', s'.table id = some m' ∧ Evolved V id m m' l l'
  free : ∀ id, s.table id = none → s'.table id = none
  next : s'.next = s.next

namespace Evolves

theorem refl (s : Maps D) : Evolves V s s :=
  ⟨fun _ m l hm hok => ⟨m, l, hm, .refl hok⟩, fun _ h => h, rfl⟩

theorem trans (h : Evolves V s s') (h' : Evolves V s' s'') : Evolves V s s'' := by
  refine ⟨fun id m l hm hok => ?_, fun id hid => h'.free id (h.free id hid), h'.next.trans h.next⟩
  obtain ⟨m', l', hm', hev⟩ := h.maps id m l hm hok
  obtain ⟨m'', l'', hm'', hev'⟩ := h'.maps id m' l' hm' hev.ok
  exact ⟨m'', l'', hm'', hev.trans hev'⟩

theorem of_recounted (h : Recounted s s') : Evolves V s s' := by
  refine ⟨fun id m l hm hok => ?_, fun id hid => ?_, h.next⟩
  · obtain ⟨c, hc⟩ := h.get hm
    exact ⟨_, l, hc, (Evolved.refl hok).recount c⟩
  · have htable := h.table id
    rw [hid, Option.map_none, Option.map_eq_none_iff] at htable
    exact htable

theorem setMap (hm : s.table id = some m) (hok : MapOk m l) (h : Evolved V id m m' l l') :
    Evolves V s (s.setMap id m') := by
  refine ⟨fun id₁ m₁ l₁ hm₁ hok₁ => ?_, fun id₁ hid => ?_, rfl⟩
  · by_cases hid : id₁ = id
    · subst hid
      cases hm.symm.trans hm₁
      rw [← hok₁.entries_eq, hok.entries_eq]
      exact ⟨m', l', Maps.setMap_self, h⟩
    · exact ⟨m₁, l₁, (Maps.setMap_of_ne hid).trans hm₁, .refl hok₁⟩
  · have hne : id₁ ≠ id := by
      rintro rfl
      cases hm.symm.trans hid
    exact (Maps.setMap_of_ne hne).trans hid

theorem becomes (hm : s.table id = some m) (hok : MapOk m l) (hb : Becomes s id m' s')
    (h : Evolved V id m m' l l') : Evolves V s s' :=
  (setMap hm hok h).trans (of_recounted hb.1)

theorem good (h : Evolves V s s') (hg : Good s) : Good s' := by
  intro id m' hm'
  cases hm : s.table id with
  | none => cases (h.free id hm).symm.trans hm'
  | some m =>
    obtain ⟨l, hok⟩ := hg id m hm
    obtain ⟨m₁, l₁, hm₁, hev⟩ := h.maps id m l hm hok
    cases hm₁.symm.trans hm'
    exact ⟨l₁, hev.ok⟩

end Evolves

/-! ## Single entries -/

/-- The entry `e` of the map `id`, with its record. -/
def Maps.At (s : Maps D) (id e : ℕ) (r : VmMapEntry) : Prop :=
  ∃ m l, s.table id = some m ∧ MapOk m l ∧ e ∈ l ∧ m.entry e = r

/-- Something is mapped at the address. -/
def Maps.MappedAt (s : Maps D) (id a : ℕ) : Prop :=
  ∃ e r, s.At id e r ∧ r.vmeStart ≤ a ∧ a < r.vmeEnd

variable {r t : VmMapEntry}

theorem Maps.mappedAt_iff (hm : s.table id = some m) (hok : MapOk m l) :
    s.MappedAt id a ↔ Mapped (l.map m.entry) a := by
  constructor
  · rintro ⟨e, r, ⟨m₁, l₁, hm₁, hok₁, he, rfl⟩, hcov⟩
    cases hm.symm.trans hm₁
    rw [← hok₁.entries_eq, hok.entries_eq] at he
    exact ⟨_, mem_map_of_mem he, hcov⟩
  · rintro ⟨r, hr, hcov⟩
    obtain ⟨e, he, rfl⟩ := mem_map.mp hr
    exact ⟨e, _, ⟨m, l, hm, hok, he, rfl⟩, hcov⟩

namespace Maps.At

theorem mem (h : s.At id e r) (hm : s.table id = some m) (hok : MapOk m l) :
    e ∈ l ∧ m.entry e = r := by
  obtain ⟨m₁, l₁, hm₁, hok₁, he, rfl⟩ := h
  cases hm.symm.trans hm₁
  rw [← hok₁.entries_eq, hok.entries_eq] at he
  exact ⟨he, rfl⟩

theorem entry_eq (h : s.At id e r) (hm : s.table id = some m) : m.entry e = r := by
  obtain ⟨m₁, l, hm₁, hok, he, rfl⟩ := h
  cases hm.symm.trans hm₁
  rfl

theorem valid (h : s.At id e r) : r.vmeStart ≤ r.vmeEnd ∧ r.vmeEnd < 2 ^ 32 := by
  obtain ⟨m, l, hm, hok, he, rfl⟩ := h
  have hval := hok.valid he
  exact ⟨hval.2.1, Nat.lt_of_le_of_lt hval.2.2 hok.bound⟩

theorem record_eq (h : s.At id e r) (h' : s.At id e t) : r = t := by
  obtain ⟨m, l, hm, hok, he, rfl⟩ := h
  exact (h'.mem hm hok).2

theorem unique {e' : ℕ} (h : s.At id e r) (h' : s.At id e' t) (hr : r.vmeStart ≤ a ∧ a < r.vmeEnd)
    (ht : t.vmeStart ≤ a ∧ a < t.vmeEnd) : e = e' := by
  obtain ⟨m, l, hm, hok, he, rfl⟩ := h
  obtain ⟨he', rfl⟩ := h'.mem hm hok
  obtain ⟨p, q, rfl⟩ := append_of_mem he
  rcases mem_append.mp he' with he' | he'
  · have := hok.sorted he' (mem_cons_self (a := e) (l := q))
    omega
  · rcases mem_cons.mp he' with rfl | he'
    · rfl
    · have := hok.end_le he'
      omega

theorem next (h : s.At id e r) (hm : s.table id = some m) (hmapped : s.MappedAt id r.vmeEnd) :
    ∃ t, s.At id (m.next e) t ∧ t.vmeStart = r.vmeEnd := by
  obtain ⟨m₁, l, hm₁, hok, he, rfl⟩ := h
  cases hm.symm.trans hm₁
  obtain ⟨p, q, rfl⟩ := append_of_mem he
  rw [hok.ring.next_mem]
  obtain ⟨y, t, hy, hcov⟩ := hmapped
  obtain ⟨hyl, rfl⟩ := hy.mem hm hok
  have hval := hok.valid he
  have hyq : y ∈ q := by
    rcases mem_append.mp hyl with hy | hy
    · have := hok.sorted hy (mem_cons_self (a := e) (l := q))
      omega
    · rcases mem_cons.mp hy with rfl | hy
      · omega
      · exact hy
  cases q with
  | nil => cases hyq
  | cons b q =>
    have hok' : MapOk m ((p ++ [e]) ++ b :: q) := by
      rwa [append_assoc, singleton_append]
    have hle := hok.end_le (mem_cons_self (a := b) (l := q))
    have hle' := hok'.start_le hyq
    refine ⟨m.entry b, ⟨m, _, hm, hok, ?_, rfl⟩, by omega⟩
    exact mem_append_right _ (mem_cons_of_mem _ mem_cons_self)

end Maps.At

namespace Evolves

theorem part (h : Evolves V s s') (hg : Good s) (hat : s'.At id e t) :
    ∃ e₀ r, s.At id e₀ r ∧ PartOf V id t r := by
  obtain ⟨m', l', hm', hok', he, rfl⟩ := hat
  cases hm : s.table id with
  | none => cases (h.free id hm).symm.trans hm'
  | some m =>
    obtain ⟨l, hok⟩ := hg id m hm
    obtain ⟨m₁, l₁, hm₁, hev⟩ := h.maps id m l hm hok
    cases hm₁.symm.trans hm'
    rw [← hok'.entries_eq, hev.ok.entries_eq] at he
    obtain ⟨r, hr, hp⟩ := hev.parts _ (mem_map_of_mem he)
    obtain ⟨e₀, he₀, rfl⟩ := mem_map.mp hr
    exact ⟨e₀, _, ⟨m, l, hm, hok, he₀, rfl⟩, hp⟩

theorem mapped (h : Evolves V s s') (hmapped : s.MappedAt id a) : s'.MappedAt id a := by
  obtain ⟨e, r, ⟨m, l, hm, hok, he, rfl⟩, hcov⟩ := hmapped
  obtain ⟨m', l', hm', hev⟩ := h.maps id m l hm hok
  exact (Maps.mappedAt_iff hm' hev.ok).mpr (hev.mapped a ⟨_, mem_map_of_mem he, hcov⟩)

end Evolves

/-! ## Steps -/

/-- A step on the entry `e` of the map `id` that leaves the other entries as they are. -/
structure Touches (V : EntryChange) (id e : ℕ) (s s' : Maps D) : Prop where
  evolves : Evolves V s s'
  others : ∀ id' e' r, ¬ (id' = id ∧ e' = e) → s.At id' e' r → s'.At id' e' r

theorem others_of_becomes (hm : s.table id = some m) (hb : Becomes s id m' s')
    (hev : MapOk m' l') (hsame : ∀ y l, MapOk m l → y ∈ l → y ≠ e → y ∈ l' ∧ m'.entry y = m.entry y)
    {id' e' : ℕ} {r : VmMapEntry} (hne : ¬ (id' = id ∧ e' = e)) (hat : s.At id' e' r) :
    s'.At id' e' r := by
  obtain ⟨m₁, l₁, hm₁, hok₁, he', rfl⟩ := hat
  by_cases hid : id' = id
  · subst hid
    cases hm.symm.trans hm₁
    obtain ⟨hmem, heq⟩ := hsame e' l₁ hok₁ he' (fun heq => hne ⟨rfl, heq⟩)
    exact ⟨m', l', hb.2, hev, hmem, heq⟩
  · obtain ⟨c, hc⟩ := hb.1.get ((Maps.setMap_of_ne hid).trans hm₁)
    exact ⟨_, l₁, hc, hok₁.setRefCount c, he', rfl⟩

theorem vmMapClipEnd_touches (hat : s.At id e r) (hx : r.vmeStart ≤ x)
    (h : vmMapClipEnd s id e x = .ok s') : Touches V id e s s' ∧
      s'.At id e { r with vmeEnd := min r.vmeEnd x } := by
  obtain ⟨m, l, hm, hok, he, rfl⟩ := hat
  obtain ⟨p, q, rfl⟩ := append_of_mem he
  obtain ⟨m', q', hb, hre, -, hend, hsame, hsub, -, hcut⟩ := vmMapClipEnd_spec hm hok hx h
  refine ⟨⟨.becomes hm hok hb hre.evolved, fun id' e' r hne hat' => ?_⟩, m', _, hb.2, hre.ok,
    mem_append_right _ mem_cons_self, ?_⟩
  · refine others_of_becomes hm hb hre.ok (fun y l hok' hy hye => ?_) hne hat'
    have hl : l = p ++ e :: q := by rw [← hok'.entries_eq, hok.entries_eq]
    subst hl
    have hy' : y ∈ p ++ q := by
      simp only [mem_append, mem_cons] at hy ⊢
      tauto
    refine ⟨?_, hsame y hy'⟩
    rcases mem_append.mp hy' with hy' | hy'
    · exact mem_append_left _ hy'
    · exact mem_append_right _ (mem_cons_of_mem _ (hsub hy'))
  · rcases hcut with heq | ⟨r, ts, heq, hs, hlt, heq'⟩
    · have hhead := (List.cons.inj heq).1
      rw [← hend, hhead]
    · have hhead := (List.cons.inj heq).1
      rw [(List.cons.inj heq').1, hhead, min_eq_right (Nat.le_of_lt hlt)]
      rfl

theorem vmMapClipStart_touches (hat : s.At id e r) (hx : x < r.vmeEnd)
    (h : vmMapClipStart s id e x = .ok s') : Touches V id e s s' ∧
      ∃ t, s'.At id e t ∧ t.vmeStart = max r.vmeStart x ∧ t.vmeEnd = r.vmeEnd := by
  obtain ⟨m, l, hm, hok, he, rfl⟩ := hat
  obtain ⟨p, q, rfl⟩ := append_of_mem he
  obtain ⟨m', p', hb, hre, -, hstart, hend, -, hsame, hsub⟩ := vmMapClipStart_spec hm hok hx h
  refine ⟨⟨.becomes hm hok hb hre.evolved, fun id' e' r hne hat' => ?_⟩, _,
    ⟨m', _, hb.2, hre.ok, mem_append_right _ mem_cons_self, rfl⟩, hstart, hend⟩
  refine others_of_becomes hm hb hre.ok (fun y l hok' hy hye => ?_) hne hat'
  have hl : l = p ++ e :: q := by rw [← hok'.entries_eq, hok.entries_eq]
  subst hl
  have hy' : y ∈ p ++ q := by
    simp only [mem_append, mem_cons] at hy ⊢
    tauto
  refine ⟨?_, hsame y hy'⟩
  rcases mem_append.mp hy' with hy' | hy'
  · exact mem_append_left _ (hsub hy')
  · exact mem_append_right _ (mem_cons_of_mem _ hy')

theorem updateEntry_touches {f : VmMapEntry → VmMapEntry} (hat : s.At id e r)
    (hs : (f r).vmeStart = r.vmeStart) (he : (f r).vmeEnd = r.vmeEnd)
    (hr : ∀ a, V.rel id (r.clipTo a) ((f r).clipTo a)) (h : updateEntry s id e f = .ok s') :
    Touches V id e s s' ∧ s'.At id e (f r) := by
  obtain ⟨m, l, hm, hok, hmem, rfl⟩ := hat
  obtain ⟨p, q, rfl⟩ := append_of_mem hmem
  obtain ⟨m₁, hm₁, rfl⟩ := updateEntry_spec h
  cases hm.symm.trans hm₁
  have hev : Evolved V id m (m.setEntry e (f (m.entry e))) (p ++ e :: q) (p ++ e :: q) :=
    .setEntry hok hs he hr
  refine ⟨⟨.setMap hm hok hev, fun id' e' r hne hat' => ?_⟩, _, _, Maps.setMap_self, hev.ok, hmem,
    update_self _ _ _⟩
  refine others_of_becomes hm (setMap_becomes s id _) hev.ok (fun y l hok' hy hye => ?_) hne hat'
  rw [← hok'.entries_eq, hok.entries_eq] at hy
  exact ⟨hy, update_of_ne hye _ _⟩

theorem lookupEntry_at (hmapped : s.MappedAt id a) {found : Bool}
    (h : s.lookupEntry id a = .ok (found, e, s')) :
    Evolves V s s' ∧ (∀ id' e' r, s.At id' e' r → s'.At id' e' r) ∧ s'.faults = s.faults ∧
      ∃ r, s'.At id e r ∧ r.vmeStart ≤ a ∧ a < r.vmeEnd := by
  have hsome := hmapped
  obtain ⟨-, -, ⟨m, l, hm, hok, -, -⟩, -⟩ := hsome
  obtain ⟨p, q, hint, rfl, hsplit, hans, hhint, -, rfl⟩ := lookupEntry_spec hm hok h
  have hev : Evolved V id m { m with hint := hint } (p ++ q) (p ++ q) :=
    (Evolved.refl hok).setHint hhint
  have hat : ∀ id' e' r, s.At id' e' r → (s.setMap id { m with hint := hint }).At id' e' r := by
    intro id' e' r hat
    obtain ⟨m₁, l₁, hm₁, hok₁, he', rfl⟩ := hat
    by_cases hid : id' = id
    · subst hid
      cases hm.symm.trans hm₁
      rw [← hok₁.entries_eq, hok.entries_eq] at he'
      exact ⟨_, _, Maps.setMap_self, hev.ok, he', rfl⟩
    · exact ⟨m₁, l₁, (Maps.setMap_of_ne hid).trans hm₁, hok₁, he', rfl⟩
  refine ⟨.setMap hm hok hev, hat, rfl, ?_⟩
  rcases hans with ⟨-, hstart, q, rfl⟩ | ⟨-, -, hafter⟩
  · have he : e ∈ p ++ e :: q := mem_append_right _ mem_cons_self
    exact ⟨_, hat id e _ ⟨m, _, hm, hok, he, rfl⟩, hstart, hsplit.after e mem_cons_self⟩
  · obtain ⟨y, r, hy, hcov⟩ := hmapped
    obtain ⟨hyl, rfl⟩ := hy.mem hm hok
    rcases mem_append.mp hyl with hy | hy
    · have := hsplit.before y hy
      omega
    · have := hafter y hy
      omega

/-! ## The same layout -/

/-- The entries of every map are linked as before and have the same extents. -/
def SameLayout (s s' : Maps D) : Prop := ∀ id m, s.table id = some m →
  ∃ m', s'.table id = some m' ∧ m'.next = m.next ∧ m'.entries = m.entries ∧
    ∀ e, (m'.entry e).vmeStart = (m.entry e).vmeStart ∧ (m'.entry e).vmeEnd = (m.entry e).vmeEnd

namespace SameLayout

theorem refl (s : Maps D) : SameLayout s s := fun _ m hm => ⟨m, hm, rfl, rfl, fun _ => ⟨rfl, rfl⟩⟩

theorem trans (h : SameLayout s s') (h' : SameLayout s' s'') : SameLayout s s'' := by
  intro id m hm
  obtain ⟨m', hm', hn, he, hx⟩ := h id m hm
  obtain ⟨m'', hm'', hn', he', hx'⟩ := h' id m' hm'
  exact ⟨m'', hm'', hn'.trans hn, he'.trans he,
    fun e => ⟨(hx' e).1.trans (hx e).1, (hx' e).2.trans (hx e).2⟩⟩

theorem objects (s : Maps D) (g : Objects D) : SameLayout s { s with objects := g } := refl s

theorem faults (s : Maps D) (f : List FaultCall) : SameLayout s { s with faults := f } := refl s

theorem setMap (hm : s.table id = some m) (hn : m'.next = m.next) (he : m'.entries = m.entries)
    (hx : ∀ e, (m'.entry e).vmeStart = (m.entry e).vmeStart ∧
      (m'.entry e).vmeEnd = (m.entry e).vmeEnd) : SameLayout s (s.setMap id m') := by
  intro id₁ m₁ hm₁
  by_cases hid : id₁ = id
  · subst hid
    cases hm.symm.trans hm₁
    exact ⟨m', Maps.setMap_self, hn, he, hx⟩
  · exact ⟨m₁, (Maps.setMap_of_ne hid).trans hm₁, rfl, rfl, fun _ => ⟨rfl, rfl⟩⟩

end SameLayout

theorem updateEntry_layout {f : VmMapEntry → VmMapEntry} (h : updateEntry s id e f = .ok s')
    (hs : ∀ r, (f r).vmeStart = r.vmeStart) (he : ∀ r, (f r).vmeEnd = r.vmeEnd) :
    SameLayout s s' := by
  obtain ⟨m, hm, rfl⟩ := updateEntry_spec h
  refine .setMap hm rfl rfl fun y => ?_
  by_cases hy : y = e
  · subst hy
    change (update m.entry y _ y).vmeStart = _ ∧ (update m.entry y _ y).vmeEnd = _
    rw [update_self]
    exact ⟨hs _, he _⟩
  · change (update m.entry e _ y).vmeStart = _ ∧ (update m.entry e _ y).vmeEnd = _
    rw [update_of_ne hy]
    exact ⟨rfl, rfl⟩

theorem SameLayout.list (h : SameLayout s s') (hev : Evolves V s s') (hm : s.table id = some m)
    (hok : MapOk m l) : ∃ m', s'.table id = some m' ∧ Evolved V id m m' l l ∧ m'.next = m.next ∧
      ∀ e, (m'.entry e).vmeStart = (m.entry e).vmeStart ∧
        (m'.entry e).vmeEnd = (m.entry e).vmeEnd := by
  obtain ⟨m', hm', hn, he, hx⟩ := h id m hm
  obtain ⟨m₁, l₁, hm₁, hevolved⟩ := hev.maps id m l hm hok
  cases hm'.symm.trans hm₁
  have hl : l₁ = l := by rw [← hevolved.ok.entries_eq, he, hok.entries_eq]
  exact ⟨m', hm', hl ▸ hevolved, hn, hx⟩

/-! ## Walks over a range -/

theorem firstEntry_evolves (hg : Good s) (h : firstEntry s id start = .ok (e, s')) :
    Evolves V s s' ∧ s'.faults = s.faults ∧ ∃ m' p q, s'.table id = some m' ∧ MapOk m' (p ++ q) ∧
      e = q.headD 0 ∧ (∀ y ∈ p, (m'.entry y).vmeEnd ≤ start) ∧
      ∀ y ∈ q, start ≤ (m'.entry y).vmeStart := by
  obtain ⟨⟨found, first, s₁⟩, hs₁, h⟩ := ok_of_bind h
  have hlookup := hs₁
  obtain ⟨m, hm, -⟩ := ok_of_bind hs₁
  replace hm := Maps.table_of_getMap hm
  obtain ⟨l, hok⟩ := hg id m hm
  obtain ⟨p, q, hint, rfl, hsplit, hans, hhint, hsaved, rfl⟩ := lookupEntry_spec hm hok hlookup
  have hok₁ := hok.setHint hhint
  have hev₁ : Evolves V s (s.setMap id { m with hint := hint }) :=
    .setMap hm hok ((Evolved.refl hok).setHint hhint)
  rcases hans with ⟨rfl, hstart, q, rfl⟩ | ⟨rfl, rfl, hafter⟩
  · simp only [if_true] at h
    obtain ⟨s₂, hs₂, h⟩ := ok_of_bind h
    cases h
    have hend := hsplit.after e mem_cons_self
    obtain ⟨m₂, p', hb, hre, hbefore, hs, he, -⟩ :=
      vmMapClipStart_spec Maps.setMap_self hok₁ hend hs₂
    rw [max_eq_right hstart] at hbefore hs
    refine ⟨hev₁.trans (.becomes Maps.setMap_self hok₁ hb hre.evolved), hb.1.faults, m₂, p', e :: q,
      hb.2, hre.ok, rfl, hbefore, fun y hy => ?_⟩
    rw [← hs]
    exact hre.ok.start_le hy
  · replace h := Maps.bind_getMap Maps.setMap_self h
    cases h
    exact ⟨hev₁, rfl, _, p, q, Maps.setMap_self, hok₁, hok.ring.next_last, hsplit.before,
      fun y hy => Nat.le_of_lt (hafter y hy)⟩

theorem overRange_evolves {f : Maps D → ℕ → Except Stop (Maps D)}
    (hf : ∀ u e r u', u.At id e r → f u e = .ok u' → Evolves V u u' ∧ SameLayout u u')
    (hg : Good s) (hm : s.table id = some m) (hok : MapOk m (p ++ q))
    (h : overRange s id stop (clipped id stop f) (q.headD 0) = .ok s') : Evolves V s s' := by
  replace h := Maps.bind_getMap hm h
  obtain ⟨p', q', m', ⟨-, hev, -⟩, -, -⟩ := rangeLoop_rule
    (I := fun u p' q' => Good u ∧ Evolves V s u ∧ ∀ m', u.table id = some m' → MapOk m' (p' ++ q'))
    (fun u m' p' q' hI hm' => hI.2.2 m' hm')
    (fun u m' p' e q' next u' hI hm' hlt hrun => by
      obtain ⟨hgu, hev, hokall⟩ := hI
      have hoku := hokall m' hm'
      obtain ⟨u₁, hu₁, hrun⟩ := ok_of_bind hrun
      obtain ⟨m₁, q₁, hb, hre, -⟩ := vmMapClipEnd_spec hm' hoku (Nat.le_of_lt hlt) hu₁
      replace hrun := Maps.bind_getMap hb.2 hrun
      obtain ⟨u₂, hu₂, hrun⟩ := ok_of_bind hrun
      cases hrun
      have he : e ∈ p' ++ e :: q₁ := mem_append_right _ mem_cons_self
      obtain ⟨hev₂, hlayout⟩ := hf u₁ e _ u' ⟨m₁, _, hb.2, hre.ok, he, rfl⟩ hu₂
      have hev₁ : Evolves V u u₁ := .becomes hm' hoku hb hre.evolved
      refine ⟨p' ++ [e], q₁, ⟨hev₂.good (hev₁.good hgu), (hev.trans hev₁).trans hev₂, ?_⟩,
        hre.ok.ring.next_mem⟩
      intro m₂ hm₂
      obtain ⟨m₃, hm₃, hevolved, -⟩ := hlayout.list hev₂ hb.2 hre.ok
      cases hm₂.symm.trans hm₃
      rw [append_assoc, singleton_append]
      exact hevolved.ok)
    ⟨hg, .refl s, fun m' hm' => by
      cases hm.symm.trans hm'
      exact hok⟩ h
  exact hev

end Darwin.Vm
