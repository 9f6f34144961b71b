import Darwin.Vm.MapEvolve

/-! # What a copy changes

Where both ranges are mapped and no sharing map is met, `vm_map_copy` clips the entries of
the two ranges and changes them in place: the layout of the maps stays as it was, and of the
fields only the object with its offset, the marks of copying and the protection change, and
the count of a wired destination.
-/
namespace Darwin.Vm
open Darwin.Lib

variable {D : Type} {s s' : Maps D} {r d t : VmMapEntry}
  {src dst srcEntry dstEntry id e a start stop : ℕ}

/-! ## One entry -/

/-- What a copy from `src` to `dst` leaves of the entries of the map `id`. -/
structure CopyKept (src dst id : ℕ) (r t : VmMapEntry) : Prop where
  other : id ≠ src → id ≠ dst → t = r
  isAMap : t.isAMap = r.isAMap
  isSubMap : t.isSubMap = r.isSubMap
  inheritance : t.inheritance = r.inheritance
  wiredCount : t.wiredCount = r.wiredCount ∨ (id = dst ∧ t.wiredCount = 0)
  noMap : (∀ k, r.object ≠ .map k) → ∀ k, t.object ≠ .map k
  shared : r.isAMap = true → t.object = r.object ∧ t.offset = r.offset

def copyKept (src dst : ℕ) : EntryChange where
  rel := CopyKept src dst
  refl _ _ := ⟨fun _ _ => rfl, rfl, rfl, rfl, .inl rfl, fun h => h, fun _ => ⟨rfl, rfl⟩⟩
  trans := by
    rintro id r t u ⟨h₁, h₂, h₃, h₄, h₅, h₆, h₇⟩ ⟨k₁, k₂, k₃, k₄, k₅, k₆, k₇⟩
    refine ⟨fun hs hd => (k₁ hs hd).trans (h₁ hs hd), k₂.trans h₂, k₃.trans h₃, k₄.trans h₄, ?_,
      fun h => k₆ (h₆ h), fun h => ?_⟩
    · rcases k₅ with k₅ | k₅
      · rw [k₅]
        exact h₅
      · exact .inr k₅
    · obtain ⟨ho, hf⟩ := h₇ h
      obtain ⟨ko, kf⟩ := k₇ (h₂.trans h)
      exact ⟨ko.trans ho, kf.trans hf⟩

theorem copyKept_change (hid : id = src ∨ id = dst) (ha : r.isAMap = false)
    (hmap : t.isAMap = r.isAMap) (hsub : t.isSubMap = r.isSubMap)
    (hinh : t.inheritance = r.inheritance)
    (hwired : t.wiredCount = r.wiredCount ∨ (id = dst ∧ t.wiredCount = 0))
    (hno : (∀ k, r.object ≠ .map k) → ∀ k, t.object ≠ .map k) (a : ℕ) :
    (copyKept src dst).rel id (r.clipTo a) (t.clipTo a) := by
  refine ⟨fun hs hd => ?_, hmap, hsub, hinh, hwired, hno, fun h => ?_⟩
  · exact absurd hid (by tauto)
  · exact absurd (ha.symm.trans h) (by simp)

theorem At.objects (h : s.At id e r) (g : Objects D) : { s with objects := g }.At id e r := h

theorem ofObject_ne_map (o : Option ℕ) (k : ℕ) : VmMapObject.ofObject o ≠ .map k := by
  cases o <;> exact fun h => by cases h

theorem unwireIfWired_kept (src : ℕ) (hat : s.At dst e d) (ha : d.isAMap = false)
    (h : unwireIfWired s dst e = .ok s') :
    Touches (copyKept src dst) dst e s s' ∧ s'.At dst e { d with wiredCount := 0 } ∧
      (d.wiredCount = 0 → s'.faults = s.faults) := by
  obtain ⟨m, hm, h⟩ := ok_of_bind h
  rw [hat.entry_eq (Maps.table_of_getMap hm)] at h
  split at h
  · rename_i hw
    obtain ⟨htouch, hat'⟩ := updateEntry_touches (V := copyKept src dst)
      (s := { s with faults := .unwire dst e :: s.faults }) hat rfl rfl
      (copyKept_change (.inr rfl) ha rfl rfl rfl (.inr ⟨rfl, rfl⟩) (fun h => h)) h
    exact ⟨⟨⟨htouch.evolves.maps, htouch.evolves.free, htouch.evolves.next⟩, htouch.others⟩, hat',
      fun hz => absurd hz hw⟩
  · rename_i hw
    cases h
    have hself : ({ d with wiredCount := 0 } : VmMapEntry) = d := by
      rw [← Decidable.not_not.mp hw]
    exact ⟨⟨.refl s, fun _ _ _ _ h => h⟩, hself ▸ hat, fun _ => rfl⟩

theorem updateEntry_faults {f : VmMapEntry → VmMapEntry} (h : updateEntry s id e f = .ok s') :
    s'.faults = s.faults := by
  obtain ⟨m, -, rfl⟩ := updateEntry_spec h
  rfl

theorem vmFaultCopyEntry_kept (hr : s.At src srcEntry r) (hd : s.At dst dstEntry d)
    (hne : ¬ (src = dst ∧ srcEntry = dstEntry)) (ha : d.isAMap = false)
    (h : vmFaultCopyEntry s dst src dstEntry srcEntry = .ok s') :
    Evolves (copyKept src dst) s s' ∧ s'.At src srcEntry r ∧
      (∃ t, s'.At dst dstEntry t ∧ t.vmeStart = d.vmeStart ∧ t.vmeEnd = d.vmeEnd) ∧
      s'.faults = s.faults := by
  obtain ⟨ms, hms, h⟩ := ok_of_bind h
  obtain ⟨md, hmd, h⟩ := ok_of_bind h
  obtain ⟨o, -, h⟩ := ok_of_bind h
  obtain ⟨s₁, hs₁, h⟩ := ok_of_bind h
  obtain ⟨g, -, h⟩ := ok_of_bind h
  cases h
  obtain ⟨htouch, hat⟩ := updateEntry_touches (V := copyKept src dst) (At.objects hd _) rfl rfl
    (copyKept_change (.inr rfl) ha rfl rfl rfl (.inl rfl) (fun _ k => by simp)) hs₁
  have hev := (Evolves.of_recounted (.objects s _)).trans htouch.evolves
  have hfaults := updateEntry_faults hs₁
  exact ⟨hev.trans (.of_recounted (.objects s₁ g)),
    htouch.others src srcEntry r hne (At.objects hr _), ⟨_, hat, rfl, rfl⟩, hfaults⟩

theorem vmMapCopyEntry_kept (hr : s.At src srcEntry r) (hd : s.At dst dstEntry d)
    (hne : ¬ (src = dst ∧ srcEntry = dstEntry)) (har : r.isAMap = false) (had : d.isAMap = false)
    (h : vmMapCopyEntry s src dst srcEntry dstEntry = .ok s') :
    Evolves (copyKept src dst) s s' ∧
      (∃ t, s'.At src srcEntry t ∧ t.vmeStart = r.vmeStart ∧ t.vmeEnd = r.vmeEnd) ∧
      (∃ t, s'.At dst dstEntry t ∧ t.vmeStart = d.vmeStart ∧ t.vmeEnd = d.vmeEnd) ∧
      (d.wiredCount = 0 → s'.faults = s.faults) := by
  obtain ⟨ms, -, h⟩ := ok_of_bind h
  obtain ⟨md, -, h⟩ := ok_of_bind h
  split at h
  · cases h
    exact ⟨.refl s, ⟨r, hr, rfl, rfl⟩, ⟨d, hd, rfl, rfl⟩, fun _ => rfl⟩
  obtain ⟨s₁, hs₁, h⟩ := ok_of_bind h
  obtain ⟨htouch₁, hd₁, hfaults₁⟩ := unwireIfWired_kept src hd had hs₁
  have hr₁ := htouch₁.others src srcEntry r hne hr
  obtain ⟨ms₁, hms₁, h⟩ := ok_of_bind h
  obtain ⟨md₁, -, h⟩ := ok_of_bind h
  dsimp only at h
  rw [hr₁.entry_eq (Maps.table_of_getMap hms₁)] at h
  split at h
  · -- the copy is put off
    obtain ⟨tempObject, -, h⟩ := ok_of_bind h
    obtain ⟨srcObject, -, h⟩ := ok_of_bind h
    obtain ⟨⟨c, g⟩, -, h⟩ := ok_of_bind h
    obtain ⟨s₂, hs₂, h⟩ := ok_of_bind h
    obtain ⟨s₃, hs₃, h⟩ := ok_of_bind h
    obtain ⟨g', -, h⟩ := ok_of_bind h
    cases h
    obtain ⟨htouch₂, hr₂⟩ := updateEntry_touches (V := copyKept src dst) (At.objects hr₁ g) rfl rfl
      (copyKept_change (.inl rfl) har rfl rfl rfl (.inl rfl) (fun h => h)) hs₂
    have hd₂ := htouch₂.others dst dstEntry _ (fun h => hne ⟨h.1.symm, h.2.symm⟩) (At.objects hd₁ g)
    obtain ⟨htouch₃, hd₃⟩ := updateEntry_touches (V := copyKept src dst) hd₂ rfl rfl
      (copyKept_change (.inr rfl) had rfl rfl rfl (.inl rfl) (fun _ => ofObject_ne_map _)) hs₃
    have hr₃ := htouch₃.others src srcEntry _ hne hr₂
    have hev : Evolves (copyKept src dst) s s₃ :=
      ((htouch₁.evolves.trans (.of_recounted (.objects s₁ g))).trans htouch₂.evolves).trans
        htouch₃.evolves
    have hfaults₂ := updateEntry_faults hs₂
    have hfaults₃ := updateEntry_faults hs₃
    exact ⟨hev.trans (.of_recounted (.objects s₃ g')), ⟨_, hr₃, rfl, rfl⟩, ⟨_, hd₃, rfl, rfl⟩,
      fun hz => hfaults₃.trans (hfaults₂.trans (hfaults₁ hz))⟩
  · -- the pages of a wired source are copied now
    obtain ⟨hev, hr₂, ⟨t, ht, hts, hte⟩, hfaults⟩ := vmFaultCopyEntry_kept hr₁ hd₁ hne had h
    exact ⟨htouch₁.evolves.trans hev, ⟨r, hr₂, rfl, rfl⟩, ⟨t, ht, hts, hte⟩,
      fun hz => hfaults.trans (hfaults₁ hz)⟩

/-! The layout is left alone whatever the entries are. -/

theorem unwireIfWired_layout (h : unwireIfWired s id e = .ok s') : SameLayout s s' := by
  obtain ⟨m, -, h⟩ := ok_of_bind h
  split at h
  · rw [vmMapEntryUnwire] at h
    have hlayout := updateEntry_layout h (fun _ => rfl) (fun _ => rfl)
    exact (SameLayout.faults s _).trans hlayout
  · cases h
    exact .refl s

theorem vmFaultCopyEntry_layout (h : vmFaultCopyEntry s dst src dstEntry srcEntry = .ok s') :
    SameLayout s s' := by
  obtain ⟨ms, -, h⟩ := ok_of_bind h
  obtain ⟨md, -, h⟩ := ok_of_bind h
  obtain ⟨o, -, h⟩ := ok_of_bind h
  obtain ⟨s₁, hs₁, h⟩ := ok_of_bind h
  obtain ⟨g, -, h⟩ := ok_of_bind h
  cases h
  have hlayout := updateEntry_layout hs₁ (fun _ => rfl) (fun _ => rfl)
  exact ((SameLayout.objects s _).trans hlayout).trans (.objects s₁ g)

theorem vmMapCopyEntry_layout (h : vmMapCopyEntry s src dst srcEntry dstEntry = .ok s') :
    SameLayout s s' := by
  obtain ⟨ms, -, h⟩ := ok_of_bind h
  obtain ⟨md, -, h⟩ := ok_of_bind h
  split at h
  · cases h
    exact .refl s
  obtain ⟨s₁, hs₁, h⟩ := ok_of_bind h
  have hlayout₁ := unwireIfWired_layout hs₁
  obtain ⟨ms₁, -, h⟩ := ok_of_bind h
  obtain ⟨md₁, -, h⟩ := ok_of_bind h
  dsimp only at h
  split at h
  · obtain ⟨tempObject, -, h⟩ := ok_of_bind h
    obtain ⟨srcObject, -, h⟩ := ok_of_bind h
    obtain ⟨⟨c, g⟩, -, h⟩ := ok_of_bind h
    obtain ⟨s₂, hs₂, h⟩ := ok_of_bind h
    obtain ⟨s₃, hs₃, h⟩ := ok_of_bind h
    obtain ⟨g', -, h⟩ := ok_of_bind h
    cases h
    have hlayout₂ := updateEntry_layout hs₂ (fun _ => rfl) (fun _ => rfl)
    have hlayout₃ := updateEntry_layout hs₃ (fun _ => rfl) (fun _ => rfl)
    exact (((hlayout₁.trans (.objects s₁ g)).trans hlayout₂).trans hlayout₃).trans (.objects s₃ g')
  · exact hlayout₁.trans (vmFaultCopyEntry_layout h)

/-! ## Ranges -/

/-- The record has to do with the range. -/
def VmMapEntry.Meets (r : VmMapEntry) (start stop : ℕ) : Prop :=
  r.vmeStart < stop ∧ (start < r.vmeEnd ∨ start ≤ r.vmeStart)

/-- The record does not stand for a sharing map. -/
def VmMapEntry.NoShare (r : VmMapEntry) : Prop := r.isAMap = true → ∀ k, r.object ≠ .map k

theorem PartOf.meets {V : EntryChange} (h : PartOf V id t r) (ht : t.Meets start stop) :
    r.Meets start stop := by
  obtain ⟨hlt, hin⟩ := ht
  have := h.start
  have := h.stop
  have := h.inside
  exact ⟨by omega, by omega⟩

theorem PartOf.noShare (h : PartOf (copyKept src dst) id t r) (hr : r.NoShare) : t.NoShare := by
  have hk : CopyKept src dst id (r.clipTo t.vmeStart) (t.clipTo t.vmeStart) :=
    h.change _ (Nat.le_refl _)
  exact fun ha => hk.noMap (hr (hk.isAMap.symm.trans ha))

/-- What a copy needs: both ranges are mapped, with no sharing map in them. -/
structure CanCopy (s : Maps D) (src dst srcAddr dstAddr len : ℕ) : Prop where
  srcBound : srcAddr + len < 2 ^ 32
  dstBound : dstAddr + len < 2 ^ 32
  srcFirst : s.MappedAt src srcAddr
  dstFirst : s.MappedAt dst dstAddr
  srcMapped : ∀ a, srcAddr ≤ a → a < srcAddr + len → s.MappedAt src a
  dstMapped : ∀ a, dstAddr ≤ a → a < dstAddr + len → s.MappedAt dst a
  srcPlain : ∀ e r, s.At src e r → r.Meets srcAddr (srcAddr + len) → r.NoShare
  dstPlain : ∀ e r, s.At dst e r → r.Meets dstAddr (dstAddr + len) → r.NoShare

/-- No entry of the range is wired. -/
def Unwired (s : Maps D) (id start stop : ℕ) : Prop :=
  ∀ e r, s.At id e r → r.Meets start stop → r.wiredCount = 0

section
variable {srcAddr dstAddr len k : ℕ}

theorem CanCopy.evolves (h : CanCopy s src dst srcAddr dstAddr len) (hg : Good s)
    (hev : Evolves (copyKept src dst) s s') : CanCopy s' src dst srcAddr dstAddr len := by
  refine ⟨h.srcBound, h.dstBound, hev.mapped h.srcFirst, hev.mapped h.dstFirst,
    fun a hs he => hev.mapped (h.srcMapped a hs he), fun a hs he => hev.mapped (h.dstMapped a hs he),
    fun e t hat hm => ?_, fun e t hat hm => ?_⟩
  · obtain ⟨e₀, r, hr, hp⟩ := hev.part hg hat
    exact hp.noShare (h.srcPlain e₀ r hr (hp.meets hm))
  · obtain ⟨e₀, r, hr, hp⟩ := hev.part hg hat
    exact hp.noShare (h.dstPlain e₀ r hr (hp.meets hm))

theorem Unwired.evolves (h : Unwired s id start stop) (hg : Good s)
    (hev : Evolves (copyKept src dst) s s') : Unwired s' id start stop := by
  intro e t hat hm
  obtain ⟨e₀, r, hr, hp⟩ := hev.part hg hat
  have hk : CopyKept src dst id (r.clipTo t.vmeStart) (t.clipTo t.vmeStart) :=
    hp.change _ (Nat.le_refl _)
  have hwired : t.wiredCount = r.wiredCount ∨ id = dst ∧ t.wiredCount = 0 := hk.wiredCount
  rw [h e₀ r hr (hp.meets hm)] at hwired
  exact hwired.elim (fun h => h) (fun h => h.2)

theorem vmMapClipStart_faults (h : vmMapClipStart s id a start = .ok s') :
    s'.faults = s.faults := by
  obtain ⟨m, -, h⟩ := ok_of_bind h
  split at h
  · exact (clipReference_spec h).faults
  · cases h
    rfl

theorem vmMapClipEnd_faults (h : vmMapClipEnd s id a stop = .ok s') : s'.faults = s.faults := by
  obtain ⟨m, -, h⟩ := ok_of_bind h
  split at h
  · exact (clipReference_spec h).faults
  · cases h
    rfl

theorem clipBoth_kept (hc : CanCopy s src dst srcAddr dstAddr len)
    (hr : s.At src srcEntry r) (hd : s.At dst dstEntry d)
    (hne : ¬ (src = dst ∧ srcEntry = dstEntry)) (hk : k < len)
    (hrs : r.vmeStart = srcAddr + k) (hds : d.vmeStart = dstAddr + k)
    (h : clipBoth s dst src (dstAddr + len) (srcAddr + len) dstEntry srcEntry = .ok s') :
    Evolves (copyKept src dst) s s' ∧ s'.faults = s.faults ∧ ∃ r' d' n,
      s'.At src srcEntry r' ∧ s'.At dst dstEntry d' ∧ r'.vmeStart = srcAddr + k ∧
      d'.vmeStart = dstAddr + k ∧ r'.vmeEnd = srcAddr + k + n ∧ d'.vmeEnd = dstAddr + k + n ∧
      k + n ≤ len := by
  have hne' : ¬ (dst = src ∧ dstEntry = srcEntry) := fun h => hne ⟨h.1.symm, h.2.symm⟩
  have hsb := hc.srcBound
  have hdb := hc.dstBound
  obtain ⟨s₁, hs₁, h⟩ := ok_of_bind h
  obtain ⟨s₂, hs₂, h⟩ := ok_of_bind h
  obtain ⟨t₁, hr₁⟩ := vmMapClipEnd_touches (V := copyKept src dst) hr (by omega) hs₁
  have hd₁ := t₁.others _ _ _ hne' hd
  obtain ⟨t₂, hd₂⟩ := vmMapClipEnd_touches (V := copyKept src dst) hd₁ (by omega) hs₂
  have hr₂ := t₂.others _ _ _ hne hr₁
  -- each to the length of the other
  obtain ⟨ms, hms, h⟩ := ok_of_bind h
  obtain ⟨md, hmd, h⟩ := ok_of_bind h
  rw [hr₂.entry_eq (Maps.table_of_getMap hms), hd₂.entry_eq (Maps.table_of_getMap hmd)] at h
  have hrv := hr₂.valid
  have hdv := hd₂.valid
  dsimp only at h hrv hdv
  obtain ⟨s₃, hs₃, h⟩ := ok_of_bind h
  have hclip : u32 (r.vmeStart + u32Sub (min d.vmeEnd (dstAddr + len)) d.vmeStart) =
      r.vmeStart + (min d.vmeEnd (dstAddr + len) - d.vmeStart) := by
    rw [u32Sub_eq hdv.1 hdv.2, u32_eq]
    omega
  rw [hclip] at hs₃
  obtain ⟨t₃, hr₃⟩ := vmMapClipEnd_touches (V := copyKept src dst) hr₂ (Nat.le_add_right _ _) hs₃
  have hd₃ := t₃.others _ _ _ hne' hd₂
  obtain ⟨ms₃, hms₃, h⟩ := ok_of_bind h
  obtain ⟨md₃, hmd₃, h⟩ := ok_of_bind h
  rw [hr₃.entry_eq (Maps.table_of_getMap hms₃), hd₃.entry_eq (Maps.table_of_getMap hmd₃)] at h
  have hrv₃ := hr₃.valid
  dsimp only at h hrv₃
  have hclip₃ : u32 (d.vmeStart + u32Sub (min (min r.vmeEnd (srcAddr + len))
      (r.vmeStart + (min d.vmeEnd (dstAddr + len) - d.vmeStart))) r.vmeStart) =
      d.vmeStart + (min (min r.vmeEnd (srcAddr + len))
        (r.vmeStart + (min d.vmeEnd (dstAddr + len) - d.vmeStart)) - r.vmeStart) := by
    rw [u32Sub_eq hrv₃.1 hrv₃.2, u32_eq]
    omega
  rw [hclip₃] at h
  obtain ⟨t₄, hd₄⟩ := vmMapClipEnd_touches (V := copyKept src dst) hd₃ (Nat.le_add_right _ _) h
  have hr₄ := t₄.others _ _ _ hne hr₃
  have hfaults : s'.faults = s.faults := by
    rw [vmMapClipEnd_faults h, vmMapClipEnd_faults hs₃, vmMapClipEnd_faults hs₂,
      vmMapClipEnd_faults hs₁]
  refine ⟨((t₁.evolves.trans t₂.evolves).trans t₃.evolves).trans t₄.evolves, hfaults, _, _,
    min (min r.vmeEnd (srcAddr + len)) (r.vmeStart + (min d.vmeEnd (dstAddr + len) - d.vmeStart)) -
      r.vmeStart, hr₄, hd₄, hrs, hds, ?_, ?_, ?_⟩
  · simp only
    omega
  · simp only
    omega
  · omega

theorem copyShared_stops {recur : Maps D → ℕ → ℕ → ℕ → ℕ → ℕ → Except Stop (Maps D)}
    (hr : s.At src srcEntry r) (hd : s.At dst dstEntry d) (hrp : r.NoShare) (hdp : d.NoShare)
    (hmap : ¬ (r.isAMap = false ∧ d.isAMap = false)) :
    copyShared recur s dst src dstEntry srcEntry ≠ .ok s' := by
  intro h
  obtain ⟨ms, hms, h⟩ := ok_of_bind h
  obtain ⟨md, hmd, h⟩ := ok_of_bind h
  rw [hr.entry_eq (Maps.table_of_getMap hms), hd.entry_eq (Maps.table_of_getMap hmd)] at h
  have hstop : ∀ {i : ℕ} {t : VmMapEntry} {x : ℕ × ℕ}, t.NoShare → t.isAMap = true →
      followed i t ≠ .ok x := by
    intro i t x ht hmap hf
    rw [followed, if_pos hmap] at hf
    cases ho : t.object with
    | null =>
      rw [ho] at hf
      cases hf
    | object o =>
      rw [ho] at hf
      cases hf
    | map k => exact ht hmap k ho
  obtain ⟨⟨newSrc, newSrcStart⟩, hf, h⟩ := ok_of_bind h
  obtain ⟨⟨newDst, newDstStart⟩, hf', h⟩ := ok_of_bind h
  cases hra : r.isAMap with
  | true => exact hstop hrp hra hf
  | false =>
    cases hda : d.isAMap with
    | true => exact hstop hdp hda hf'
    | false => exact hmap ⟨hra, hda⟩

theorem copyLoop_kept {recur : Maps D → ℕ → ℕ → ℕ → ℕ → ℕ → Except Stop (Maps D)}
    (hne : ¬ (src = dst ∧ srcAddr = dstAddr)) {fuel : ℕ} :
    ∀ {s : Maps D} {srcEntry dstEntry k : ℕ}, Good s → CanCopy s src dst srcAddr dstAddr len →
      (k < len → ∃ r d, s.At src srcEntry r ∧ s.At dst dstEntry d ∧ r.vmeStart = srcAddr + k ∧
        d.vmeStart = dstAddr + k) →
      copyLoop recur dst src (dstAddr + len) (srcAddr + len) fuel s dstEntry srcEntry
        (srcAddr + k) = .ok s' →
      Evolves (copyKept src dst) s s' ∧
        (Unwired s dst dstAddr (dstAddr + len) → s'.faults = s.faults) := by
  induction fuel with
  | zero =>
    intro s srcEntry dstEntry k _ _ _ h
    cases h
  | succ fuel ih =>
    intro s srcEntry dstEntry k hg hc hat h
    rw [copyLoop] at h
    by_cases hlt : srcAddr + k < srcAddr + len
    swap
    · rw [if_neg hlt] at h
      cases h
      exact ⟨.refl _, fun _ => rfl⟩
    rw [if_pos hlt] at h
    have hk : k < len := by omega
    obtain ⟨r, d, hr, hd, hrs, hds⟩ := hat hk
    have hdist : ¬ (src = dst ∧ srcEntry = dstEntry) := by
      rintro ⟨rfl, rfl⟩
      have heq := hr.record_eq hd
      rw [heq] at hrs
      exact hne ⟨rfl, by omega⟩
    obtain ⟨s₁, hs₁, h⟩ := ok_of_bind h
    obtain ⟨hev₁, hfaults₁, r₁, d₁, n, hr₁, hd₁, hrs₁, hds₁, hre₁, hde₁, hn⟩ :=
      clipBoth_kept hc hr hd hdist hk hrs hds hs₁
    have hg₁ := hev₁.good hg
    have hc₁ := hc.evolves hg hev₁
    obtain ⟨ms, hms, h⟩ := ok_of_bind h
    obtain ⟨md, hmd, h⟩ := ok_of_bind h
    dsimp only at h
    rw [hr₁.entry_eq (Maps.table_of_getMap hms), hd₁.entry_eq (Maps.table_of_getMap hmd)] at h
    have hmeets : r₁.Meets srcAddr (srcAddr + len) ∧ d₁.Meets dstAddr (dstAddr + len) :=
      ⟨⟨by omega, by omega⟩, ⟨by omega, by omega⟩⟩
    have hrp := hc₁.srcPlain _ _ hr₁ hmeets.1
    have hdp := hc₁.dstPlain _ _ hd₁ hmeets.2
    by_cases hmap : r₁.isAMap = false ∧ d₁.isAMap = false
    swap
    · rw [if_neg hmap] at h
      obtain ⟨s₂, hs₂, -⟩ := ok_of_bind h
      exact absurd hs₂ (copyShared_stops hr₁ hd₁ hrp hdp hmap)
    rw [if_pos hmap] at h
    obtain ⟨s₂, hs₂, h⟩ := ok_of_bind h
    obtain ⟨hev₂, ⟨r₂, hr₂, hrs₂, hre₂⟩, ⟨d₂, hd₂, hds₂, hde₂⟩, hfaults₂⟩ :=
      vmMapCopyEntry_kept hr₁ hd₁ hdist hmap.1 hmap.2 hs₂
    have hg₂ := hev₂.good hg₁
    have hc₂ := hc₁.evolves hg₁ hev₂
    obtain ⟨ms₂, hms₂, h⟩ := ok_of_bind h
    obtain ⟨md₂, hmd₂, h⟩ := ok_of_bind h
    replace hms₂ := Maps.table_of_getMap hms₂
    replace hmd₂ := Maps.table_of_getMap hmd₂
    rw [hr₂.entry_eq hms₂, hre₂, hre₁, Nat.add_assoc] at h
    have hnext : k + n < len → ∃ r d, s₂.At src (ms₂.next srcEntry) r ∧
        s₂.At dst (md₂.next dstEntry) d ∧ r.vmeStart = srcAddr + (k + n) ∧
        d.vmeStart = dstAddr + (k + n) := by
      intro hkn
      obtain ⟨r₃, hr₃, hrs₃⟩ := hr₂.next hms₂ (hc₂.srcMapped _ (by omega) (by omega))
      obtain ⟨d₃, hd₃, hds₃⟩ := hd₂.next hmd₂ (hc₂.dstMapped _ (by omega) (by omega))
      exact ⟨r₃, d₃, hr₃, hd₃, by omega, by omega⟩
    obtain ⟨hev₃, hfaults₃⟩ := ih hg₂ hc₂ hnext h
    refine ⟨(hev₁.trans hev₂).trans hev₃, fun hu => ?_⟩
    have hu₁ := hu.evolves hg hev₁
    rw [hfaults₃ (hu₁.evolves hg₁ hev₂), hfaults₂ (hu₁ _ _ hd₁ hmeets.2), hfaults₁]

theorem copyFirst_kept (hg : Good s) (hc : CanCopy s src dst srcAddr dstAddr len)
    (h : copyFirst s dst src dstAddr srcAddr = .ok (srcEntry, dstEntry, s')) :
    Evolves (copyKept src dst) s s' ∧ s'.faults = s.faults ∧
      (¬ (src = dst ∧ srcEntry = dstEntry) → ¬ (src = dst ∧ srcAddr = dstAddr) ∧
        ∃ r d, s'.At src srcEntry r ∧ s'.At dst dstEntry d ∧ r.vmeStart = srcAddr ∧
          d.vmeStart = dstAddr) := by
  obtain ⟨⟨found, e, s₁⟩, hs₁, h⟩ := ok_of_bind h
  obtain ⟨hev₁, hat₁, hf₁, r, hr, hrs, hre⟩ := lookupEntry_at (V := copyKept src dst) hc.srcFirst hs₁
  obtain ⟨s₂, hs₂, h⟩ := ok_of_bind h
  obtain ⟨t₂, r₂, hr₂, hrs₂, hre₂⟩ := vmMapClipStart_touches (V := copyKept src dst) hr hre hs₂
  rw [max_eq_right hrs] at hrs₂
  have hev₂ := hev₁.trans t₂.evolves
  have hc₂ := hc.evolves hg hev₂
  obtain ⟨⟨found', d, s₃⟩, hs₃, h⟩ := ok_of_bind h
  obtain ⟨hev₃, hat₃, hf₃, rd, hd, hds, hde⟩ :=
    lookupEntry_at (V := copyKept src dst) hc₂.dstFirst hs₃
  have hr₃ := hat₃ _ _ _ hr₂
  obtain ⟨s₄, hs₄, h⟩ := ok_of_bind h
  obtain ⟨t₄, rd₄, hd₄, hds₄, hde₄⟩ := vmMapClipStart_touches (V := copyKept src dst) hd hde hs₄
  rw [max_eq_right hds] at hds₄
  have hev₄ := (hev₂.trans hev₃).trans t₄.evolves
  have hfaults : s₄.faults = s.faults := by
    rw [vmMapClipStart_faults hs₄, hf₃, vmMapClipStart_faults hs₂, hf₁]
  dsimp only at h
  by_cases hsame : src = dst ∧ e = d
  · rw [if_pos hsame] at h
    obtain ⟨⟨found'', e', s₅⟩, hs₅, h⟩ := ok_of_bind h
    cases h
    obtain ⟨rfl, rfl⟩ := hsame
    have hc₄ := hc.evolves hg hev₄
    obtain ⟨hev₅, hat₅, hf₅, r₅, hr₅, hrs₅, hre₅⟩ :=
      lookupEntry_at (V := copyKept src src) hc₄.srcFirst hs₅
    refine ⟨hev₄.trans hev₅, hf₅.trans hfaults, fun hdist => ?_⟩
    have hd₅ := hat₅ _ _ _ hd₄
    -- what covers the start of the source is a part of the entry that begins there
    obtain ⟨e₀, r₀, hr₀, hpart⟩ := (t₄.evolves.trans hev₅).part ((hev₂.trans hev₃).good hg) hr₅
    have hps := hpart.start
    have hpe := hpart.stop
    have he₀ := hr₀.unique hr₃ (a := srcAddr) (by omega) (by omega)
    subst he₀
    have hrec := hr₀.record_eq hr₃
    subst hrec
    refine ⟨fun hand => hdist ⟨rfl, ?_⟩, r₅, rd₄, hr₅, hd₅, by omega, hds₄⟩
    exact hr₅.unique hd₅ (a := srcAddr) ⟨hrs₅, hre₅⟩ (by omega)
  · rw [if_neg hsame] at h
    cases h
    have hr₄ := t₄.others _ _ _ hsame hr₃
    refine ⟨hev₄, hfaults, fun _ => ⟨?_, r₂, rd₄, hr₄, hd₄, hrs₂, hds₄⟩⟩
    rintro ⟨rfl, rfl⟩
    exact hsame ⟨rfl, hr₃.unique hd (a := srcAddr) (by omega) (by omega)⟩

theorem copyRange_kept {recur : Maps D → ℕ → ℕ → ℕ → ℕ → ℕ → Except Stop (Maps D)} (hg : Good s)
    (hc : CanCopy s src dst srcAddr dstAddr len)
    (h : copyRange recur s dst src dstAddr len srcAddr = .ok s') :
    Evolves (copyKept src dst) s s' ∧
      (Unwired s dst dstAddr (dstAddr + len) → s'.faults = s.faults) := by
  obtain ⟨⟨srcEntry, dstEntry, s₁⟩, hs₁, h⟩ := ok_of_bind h
  obtain ⟨hev₁, hfaults₁, hstart⟩ := copyFirst_kept hg hc hs₁
  dsimp only at h
  split at h
  · cases h
    exact ⟨hev₁, fun _ => hfaults₁⟩
  · rename_i hdist
    obtain ⟨hne, r, d, hr, hd, hrs, hds⟩ := hstart hdist
    obtain ⟨ms, -, h⟩ := ok_of_bind h
    obtain ⟨md, -, h⟩ := ok_of_bind h
    rw [u32_eq hc.srcBound, u32_eq hc.dstBound] at h
    obtain ⟨hev₂, hfaults₂⟩ := copyLoop_kept (k := 0) hne (hev₁.good hg) (hc.evolves hg hev₁)
      (fun _ => ⟨r, d, hr, hd, hrs, hds⟩) h
    exact ⟨hev₁.trans hev₂, fun hu => (hfaults₂ (hu.evolves hg hev₁)).trans hfaults₁⟩

end

end Darwin.Vm
