import Darwin.Ipc.KmsgCopyin
import Mathlib.Data.List.Forall2
import Mathlib.Tactic.SplitIfs

/-! # The bounds of a body that is copied in

A copyin that succeeds has walked some descriptors, filled a buffer for each array of names and
a part of the kernel's copy map for each physical copy. When each of these is in its bounds.
-/
namespace Darwin.Ipc.Kmsg
open Darwin.Lib List

/-- An array of a body in the kernel's form: its buffer and the bytes of as many names as it has. -/
def arrayNeeded : Descriptor → Option (ℕ × ℕ)
  | .oolPorts dsc => if dsc.objects.length = 0 then none else some (dsc.address, 4 * dsc.objects.length)
  | _ => none

/-- A physical copy, by what is released when it has been moved on. -/
def Event.physicalCopied : Event → Option (ℕ × ℕ)
  | vmDeallocate .ipcKernelCopyMap address size => some (address, size)
  | _ => none

/-- What a physical copy writes: the data, and zeros up to the end of the page. -/
def bytesWritten (shift size : ℕ) : ℕ :=
  if 2 ^ shift ∣ size then size else size + u32Sub (roundPage shift size) size

/-- The buffer is the one that the array names, and it has room for the names. -/
def Holding (needed buffer : ℕ × ℕ) : Prop := needed.1 = buffer.1 ∧ needed.2 ≤ buffer.2

/-- The descriptors that were processed lie in the message, every array has a buffer for all its
names, and the physical copies lie in the reserved part of the copy map and use it up. -/
structure InBounds (S : Sender) (m : Message) (st : Copied) : Prop where
  descriptors : ∀ k < m.descriptors.length, m.saddr + 12 * (k + 1) ≤ m.address + m.msghSize
  arrays : List.Forall₂ Holding (st.done.filterMap arrayNeeded) (st.events.filterMap Event.kalloced)
  copies : ∀ copy ∈ st.events.filterMap Event.physicalCopied,
    (region st.events).1 ≤ copy.1 ∧
      copy.1 + bytesWritten S.pageShift copy.2 ≤ (region st.events).1 + (region st.events).2
  usedUp : st.spaceNeeded = 0 ∧ st.paddr = (region st.events).1 + (region st.events).2

/-- The descriptors that the two passes walk: `msgh_descriptor_count` unless the end wraps. -/
def Message.walked (m : Message) : ℕ := (u32 (12 * m.descriptorCount) + 11) / 12

/-- The whole pages of a descriptor that is copied physically. -/
def wholePages (S : Sender) : RawDescriptor → ℕ
  | .known (.outOfLine dsc) =>
    if dsc.copy = physicalCopy ∧ !dsc.deallocate then
      (dsc.size + (2 ^ S.pageShift.1 - 1)) / 2 ^ S.pageShift.1 * 2 ^ S.pageShift.1
    else 0
  | _ => 0

/-- The length of an array in bytes is a 32-bit number. -/
def CountFits : RawDescriptor → Prop
  | .known (.oolPorts dsc) => 4 * dsc.objects.length < 2 ^ 32
  | _ => True

/-- The message has room for the descriptors, and no length or sum of lengths wraps. -/
structure Message.Roomy (S : Sender) (m : Message) : Prop where
  area : 28 + 12 * m.walked ≤ m.msghSize
  counts : ∀ d ∈ m.descriptors, CountFits d
  pages : (m.descriptors.map (wholePages S)).sum < 2 ^ 32

/-! ## One descriptor -/

/-- The physical copy that a descriptor asks for, to this address of the copy map. -/
def physicalCopies (paddr : ℕ) : RawDescriptor → List (ℕ × ℕ)
  | .known (.outOfLine dsc) =>
    if dsc.size ≠ 0 ∧ dsc.copy = physicalCopy ∧ !dsc.deallocate then [(paddr, dsc.size)] else []
  | _ => []

/-- What a descriptor that is copied in adds: at most one array, with its buffer unless the
length has wrapped to zero, and its physical copy. -/
structure Adds (d : RawDescriptor) (st st' : Copied) (needed buffers : List (ℕ × ℕ)) : Prop where
  arrays : st'.done.filterMap arrayNeeded = st.done.filterMap arrayNeeded ++ needed
  kalloced : st'.events.filterMap Event.kalloced = st.events.filterMap Event.kalloced ++ buffers
  fewer : buffers.length ≤ needed.length
  holding : List.Forall₂ Holding needed buffers ↔ CountFits d
  copies : st'.events.filterMap Event.physicalCopied =
    st.events.filterMap Event.physicalCopied ++ physicalCopies st.paddr d

section descriptor
variable {S : Sender} {h : Header} {st st' : Copied}

theorem Adds.of_events {d : RawDescriptor} {d' : Descriptor} {new : List Event}
    (hdone : st'.done = st.done ++ [d']) (hevents : st'.events = st.events ++ new)
    (hneeded : arrayNeeded d' = none) (hbuffers : new.filterMap Event.kalloced = [])
    (hcopies : new.filterMap Event.physicalCopied = physicalCopies st.paddr d)
    (hfits : CountFits d) : Adds d st st' [] [] := by
  refine ⟨?_, ?_, Nat.le_refl _, ⟨fun _ => hfits, fun _ => .nil⟩, ?_⟩
  · simp [hdone, filterMap_append, hneeded]
  · rw [hevents, filterMap_append, hbuffers]
  · rw [hevents, filterMap_append, hcopies]

theorem acquisition_neutral (disposition object : ℕ) :
    (acquisition disposition object).filterMap Event.kalloced = [] ∧
      (acquisition disposition object).filterMap Event.physicalCopied = [] := by
  rw [acquisition]
  split <;> exact ⟨rfl, rfl⟩

theorem copyinPort_adds {dsc : PortDescriptor} (hok : copyinPort S h st dsc = .ok st') :
    Adds (.known (.port dsc)) st st' [] [] := by
  rw [copyinPort] at hok
  split at hok
  · cases hok
  split at hok
  · obtain rfl := Except.ok.inj hok
    exact .of_events rfl (append_nil _).symm rfl rfl rfl trivial
  split at hok
  · cases hok
  · obtain rfl := Except.ok.inj hok
    obtain ⟨hkalloced, hcopied⟩ := acquisition_neutral (ipcObjectCopyinType dsc.disposition) ‹ℕ›
    exact .of_events rfl rfl rfl hkalloced hcopied trivial

theorem copyinMemory_adds {dsc : OolDescriptor} (hok : copyinMemory S h st dsc = .ok st') :
    Adds (.known (.outOfLine dsc)) st st' [] [] := by
  rw [copyinMemory] at hok
  split at hok
  case isTrue hsize =>
    obtain rfl := Except.ok.inj hok
    refine .of_events rfl (append_nil _).symm rfl rfl ?_ trivial
    simp [physicalCopies, hsize]
  case isFalse hsize =>
  split at hok
  case isTrue hphys =>
    split at hok
    · cases hok
    split at hok
    · cases hok
    · obtain rfl := Except.ok.inj hok
      refine .of_events rfl rfl rfl rfl ?_ trivial
      rw [physicalCopies, if_pos ⟨hsize, hphys⟩]
      rfl
  case isFalse hphys =>
    split at hok
    · cases hok
    · obtain rfl := Except.ok.inj hok
      refine .of_events rfl (append_assoc _ _ _) rfl ?_ ?_ trivial
      · split <;> rfl
      · have hnone : physicalCopies st.paddr (.known (.outOfLine dsc)) = [] :=
          if_neg (fun hp => hphys hp.2)
        rw [hnone]
        split <;> rfl

theorem slots_neutral (disposition : ℕ) (objects : List ℕ) :
    (objects.map (Event.acquire · disposition)).filterMap Event.kalloced = [] ∧
      (objects.map (Event.acquire · disposition)).filterMap Event.physicalCopied = [] := by
  constructor <;> simp [filterMap_map, Event.kalloced, Event.physicalCopied]

theorem copyinPorts_adds {dsc : OolPortsDescriptor} (hok : copyinPorts S h st dsc = .ok st') :
    ∃ needed buffers, Adds (.known (.oolPorts dsc)) st st' needed buffers := by
  rw [copyinPorts] at hok
  dsimp only at hok
  split at hok
  case isTrue hlen =>
    obtain rfl := Except.ok.inj hok
    by_cases hcount : dsc.objects.length = 0
    · refine ⟨[], [], .of_events rfl (append_nil _).symm ?_ rfl rfl ?_⟩
      · simp [arrayNeeded, hcount]
      · simp [CountFits, hcount]
    · -- the length has wrapped: there are names but no buffer
      refine ⟨[(0, 4 * dsc.objects.length)], [], ?_, (append_nil _).symm, Nat.zero_le _, ?_,
        (append_nil _).symm⟩
      · simp [arrayNeeded, hcount]
      · rw [OolPortsDescriptor.length, u32] at hlen
        simp only [forall₂_nil_right_iff, cons_ne_nil, CountFits, false_iff]
        omega
  case isFalse hlen =>
  split at hok
  · cases hok
  split at hok
  · cases hok
  split at hok
  · cases hok
  obtain ⟨hslots, hall, -⟩ := copyinSlots_all S st.done.length
    (ipcObjectCopyinType dsc.disposition) st.circular dsc.objects
  generalize copyinSlots S st.done.length (ipcObjectCopyinType dsc.disposition)
    ⟨[], st.circular, [], none⟩ dsc.objects = s at hslots hall hok
  split at hok
  · cases hok
  case h_2 hs =>
  obtain rfl := Except.ok.inj hok
  obtain ⟨hkalloced, hcopied⟩ :=
    slots_neutral (ipcObjectCopyinType dsc.disposition) (s.front.filter ioValid)
  have hcount : dsc.objects.length ≠ 0 := by
    intro h0
    rw [OolPortsDescriptor.length, h0] at hlen
    exact hlen rfl
  refine ⟨[(S.kalloc st.done.length, 4 * dsc.objects.length)],
    [(S.kalloc st.done.length, dsc.length)], ?_, ?_, Nat.le_refl _, ?_, ?_⟩
  · simp [arrayNeeded, hall hs, hcount]
  · simp only [filterMap_append, hslots.events, hkalloced]
    split <;> simp [Event.kalloced]
  · simp only [forall₂_cons, List.Forall₂.nil, and_true, Holding, true_and, CountFits]
    rw [OolPortsDescriptor.length, u32]
    omega
  · simp only [filterMap_append, hslots.events, hcopied]
    split <;> simp [Event.physicalCopied, physicalCopies]

theorem copyinDescriptor_adds {d : RawDescriptor} (hok : copyinDescriptor S h st d = .ok st') :
    ∃ needed buffers, Adds d st st' needed buffers := by
  cases d with
  | known d =>
    cases d with
    | port dsc => exact ⟨_, _, copyinPort_adds hok⟩
    | outOfLine dsc => exact ⟨_, _, copyinMemory_adds hok⟩
    | oolPorts dsc => exact copyinPorts_adds hok
  | other type => cases hok

end descriptor

/-! ## The whole body -/

/-- The physical copies of descriptors, one behind the other in the copy map. -/
def staging (S : Sender) : ℕ → List RawDescriptor → List (ℕ × ℕ)
  | _, [] => []
  | paddr, d :: rest => physicalCopies paddr d ++ staging S (paddr + copySpace S d) rest

/-- What the loop over these descriptors adds. -/
structure AddsAll (S : Sender) (rest : List RawDescriptor) (st st' : Copied)
    (needed buffers : List (ℕ × ℕ)) : Prop where
  arrays : st'.done.filterMap arrayNeeded = st.done.filterMap arrayNeeded ++ needed
  kalloced : st'.events.filterMap Event.kalloced = st.events.filterMap Event.kalloced ++ buffers
  fewer : buffers.length ≤ needed.length
  holding : List.Forall₂ Holding needed buffers ↔ ∀ d ∈ rest, CountFits d
  copies : st'.events.filterMap Event.physicalCopied =
    st.events.filterMap Event.physicalCopied ++ staging S st.paddr rest

theorem forall₂_append_iff {α β : Type} {R : α → β → Prop} {l₁ l₂ : List α} {r₁ r₂ : List β}
    (h₁ : r₁.length ≤ l₁.length) (h₂ : r₂.length ≤ l₂.length) :
    List.Forall₂ R (l₁ ++ l₂) (r₁ ++ r₂) ↔ List.Forall₂ R l₁ r₁ ∧ List.Forall₂ R l₂ r₂ := by
  constructor
  · intro h
    have hlen := h.length_eq
    rw [length_append, length_append] at hlen
    have hpos : l₁.length = r₁.length := by omega
    have hfront := forall₂_take_append _ _ _ h
    have hback := forall₂_drop_append _ _ _ h
    rw [take_left' hpos] at hfront
    rw [drop_left' hpos] at hback
    exact ⟨hfront, hback⟩
  · rintro ⟨h₁, h₂⟩
    exact rel_append h₁ h₂

section body
variable {S : Sender} {h : Header} {base space used : ℕ} {st st' : Copied}

theorem fold_adds {rest : List RawDescriptor} (ho : Owes S base space used st)
    (hok : rest.foldlM (copyinDescriptor S h) st = .ok st') :
    (∃ needed buffers, AddsAll S rest st st' needed buffers) ∧
      Owes S base space (used + (rest.map (copySpace S)).sum) st' := by
  induction rest generalizing st used with
  | nil =>
    obtain rfl := Except.ok.inj hok
    refine ⟨⟨[], [], (append_nil _).symm, (append_nil _).symm, Nat.le_refl _, ?_,
      (append_nil _).symm⟩, ho⟩
    simp
  | cons d rest ih =>
    rw [foldlM_cons] at hok
    rcases copyinDescriptor_cases S h st d with ⟨st₁, d', new, hstep, ha⟩ | ⟨f, extra, herr, -⟩
    · rw [hstep] at hok
      obtain ⟨needed, buffers, hadds⟩ := copyinDescriptor_adds hstep
      obtain ⟨⟨needed', buffers', hall⟩, hend⟩ := ih (ho.advance ha) hok
      refine ⟨⟨needed ++ needed', buffers ++ buffers', ?_, ?_, ?_, ?_, ?_⟩, ?_⟩
      · rw [hall.arrays, hadds.arrays, append_assoc]
      · rw [hall.kalloced, hadds.kalloced, append_assoc]
      · rw [length_append, length_append]
        exact Nat.add_le_add hadds.fewer hall.fewer
      · rw [forall₂_append_iff hadds.fewer hall.fewer, hadds.holding, hall.holding,
          forall_mem_cons]
      · rw [hall.copies, hadds.copies, ha.paddr, append_assoc, staging]
      · rwa [map_cons, sum_cons, ← Nat.add_assoc]
    · rw [herr] at hok
      cases hok

/-! ## The space in the copy map -/

theorem initialPass_sum {start : ℕ} {ds : List RawDescriptor} (hlt : start < 2 ^ 32)
    (hp : initialPass S start ds = some space) :
    space = (start + (ds.map (copySpace S)).sum) % 2 ^ 32 := by
  induction ds generalizing start with
  | nil =>
    obtain rfl := Option.some.inj hp
    exact (Nat.mod_eq_of_lt hlt).symm
  | cons d ds ih =>
    rw [map_cons, sum_cons]
    rcases d with (dsc | dsc | dsc) | type
    · simpa [copySpace] using ih hlt hp
    · rw [initialPass] at hp
      split at hp
      · cases hp
      · have hrest := ih (Nat.mod_lt _ (by decide)) hp
        rw [hrest, Nat.mod_add_mod, Nat.add_assoc]
    · simpa [copySpace] using ih hlt hp
    · simpa [copySpace] using ih hlt hp

/-- Rounding a size to pages does not wrap. -/
def Rounds (S : Sender) (size : ℕ) : Prop := size + (2 ^ S.pageShift.1 - 1) < 2 ^ 32

theorem roundPage_eq {size : ℕ} (hr : Rounds S size) : roundPage S.pageShift size =
    (size + (2 ^ S.pageShift.1 - 1)) / 2 ^ S.pageShift.1 * 2 ^ S.pageShift.1 := by
  rw [roundPage, u32_eq hr]

theorem bytesWritten_eq {size : ℕ} (hr : Rounds S size) :
    bytesWritten S.pageShift size = roundPage S.pageShift size := by
  have hpos : 0 < 2 ^ S.pageShift.1 := Nat.two_pow_pos _
  have hlt : size < 2 ^ 32 := by
    unfold Rounds at hr
    omega
  rw [bytesWritten]
  split
  case isTrue hdvd => rw [roundPage_of_dvd (pageShift_le S) hdvd hlt]
  case isFalse hdvd =>
    have hle : size ≤ roundPage S.pageShift size := by
      rw [roundPage_eq hr]
      have := Nat.div_add_mod (size + (2 ^ S.pageShift.1 - 1)) (2 ^ S.pageShift.1)
      have hmod := Nat.mod_lt (size + (2 ^ S.pageShift.1 - 1)) hpos
      rw [Nat.mul_comm] at this
      omega
    rw [u32Sub_eq hle roundPage_lt]
    omega

theorem le_bytesWritten (shift size : ℕ) : size ≤ bytesWritten shift size := by
  rw [bytesWritten]
  split <;> omega

theorem rounds_of_pages {size : ℕ}
    (h : (size + (2 ^ S.pageShift.1 - 1)) / 2 ^ S.pageShift.1 * 2 ^ S.pageShift.1 < 2 ^ 32) :
    Rounds S size := by
  have hpos : 0 < 2 ^ S.pageShift.1 := Nat.two_pow_pos _
  obtain ⟨k, hk⟩ := Nat.pow_dvd_pow 2 (pageShift_le S)
  have hdiv : (size + (2 ^ S.pageShift.1 - 1)) / 2 ^ S.pageShift.1 < k := by
    rw [hk, Nat.mul_comm] at h
    exact Nat.lt_of_mul_lt_mul_left h
  rw [Nat.div_lt_iff_lt_mul hpos, Nat.mul_comm, ← hk] at hdiv
  exact hdiv

theorem rounds_of_le {size : ℕ} (hdvd : 2 ^ S.pageShift.1 ∣ space) (hlt : space < 2 ^ 32)
    (hle : size ≤ space) : Rounds S size := by
  have hpos : 0 < 2 ^ S.pageShift.1 := Nat.two_pow_pos _
  obtain ⟨k, hk⟩ := Nat.pow_dvd_pow 2 (pageShift_le S)
  obtain ⟨n, rfl⟩ := hdvd
  have hnk : n + 1 ≤ k := by
    rw [hk] at hlt
    exact Nat.lt_of_mul_lt_mul_left hlt
  have hroom := Nat.mul_le_mul_left (2 ^ S.pageShift.1) hnk
  rw [Nat.mul_add, Nat.mul_one, ← hk] at hroom
  unfold Rounds
  omega

theorem copies_inside {ds : List RawDescriptor} (paddr : ℕ)
    (hsum : (ds.map (wholePages S)).sum < 2 ^ 32) :
    ds.map (copySpace S) = ds.map (wholePages S) ∧ ∀ copy ∈ staging S paddr ds, paddr ≤ copy.1 ∧
      copy.1 + bytesWritten S.pageShift copy.2 ≤ paddr + (ds.map (copySpace S)).sum := by
  induction ds generalizing paddr with
  | nil => exact ⟨rfl, fun copy hcopy => absurd hcopy not_mem_nil⟩
  | cons d ds ih =>
    rw [map_cons, sum_cons] at hsum
    obtain ⟨hmap, hrest⟩ := ih (paddr + copySpace S d) (by omega)
    have hone : copySpace S d = wholePages S d ∧ ∀ copy ∈ physicalCopies paddr d,
        copy.1 = paddr ∧ bytesWritten S.pageShift copy.2 = copySpace S d := by
      rcases d with (dsc | dsc | dsc) | type
      · exact ⟨rfl, fun copy hcopy => absurd hcopy not_mem_nil⟩
      · by_cases hphys : dsc.copy = physicalCopy ∧ !dsc.deallocate
        · have hpages := hsum
          rw [wholePages, if_pos hphys] at hpages
          have hr : Rounds S dsc.size := rounds_of_pages (by omega)
          rw [copySpace, if_pos hphys, wholePages, if_pos hphys, roundPage_eq hr]
          refine ⟨rfl, fun copy hcopy => ?_⟩
          rw [physicalCopies] at hcopy
          split at hcopy
          · obtain rfl := mem_singleton.mp hcopy
            exact ⟨rfl, by rw [bytesWritten_eq hr, roundPage_eq hr]⟩
          · exact absurd hcopy not_mem_nil
        · rw [copySpace, if_neg hphys, wholePages, if_neg hphys]
          refine ⟨rfl, fun copy hcopy => ?_⟩
          rw [physicalCopies, if_neg (fun hp => hphys hp.2)] at hcopy
          exact absurd hcopy not_mem_nil
      · exact ⟨rfl, fun copy hcopy => absurd hcopy not_mem_nil⟩
      · exact ⟨rfl, fun copy hcopy => absurd hcopy not_mem_nil⟩
    refine ⟨by rw [map_cons, map_cons, hone.1, hmap], fun copy hcopy => ?_⟩
    rw [map_cons, sum_cons]
    rcases mem_append.mp hcopy with hcopy | hcopy
    · have := hone.2 copy hcopy
      omega
    · have := hrest copy hcopy
      omega

theorem pages_of_copies {ds : List RawDescriptor} (paddr : ℕ)
    (hround : ∀ copy ∈ staging S paddr ds, Rounds S copy.2) :
    ds.map (wholePages S) = ds.map (copySpace S) := by
  induction ds generalizing paddr with
  | nil => rfl
  | cons d ds ih =>
    have hrest := ih (paddr + copySpace S d) (fun copy hcopy =>
      hround copy (mem_append_right _ hcopy))
    have hone : wholePages S d = copySpace S d := by
      rcases d with (dsc | dsc | dsc) | type
      · rfl
      · rw [wholePages, copySpace]
        split
        case isTrue hphys =>
          by_cases hsize : dsc.size = 0
          · have hpos : 0 < 2 ^ S.pageShift.1 := Nat.two_pow_pos _
            rw [hsize, roundPage_zero, Nat.zero_add, Nat.div_eq_of_lt (by omega), Nat.zero_mul]
          · have hmem : (paddr, dsc.size) ∈ physicalCopies paddr (.known (.outOfLine dsc)) := by
              rw [physicalCopies, if_pos ⟨hsize, hphys⟩]
              exact mem_singleton_self _
            exact (roundPage_eq (hround _ (mem_append_left _ hmem))).symm
        case isFalse => rfl
      · rfl
      · rfl
    rw [map_cons, map_cons, hone, hrest]

theorem space_iff {ds : List RawDescriptor} (hp : initialPass S 0 ds = some space) :
    ((∀ copy ∈ staging S base ds, base ≤ copy.1 ∧
        copy.1 + bytesWritten S.pageShift copy.2 ≤ base + space) ∧
      (ds.map (copySpace S)).sum = space) ↔ (ds.map (wholePages S)).sum < 2 ^ 32 := by
  have hsum := initialPass_sum (by decide) hp
  obtain ⟨hlt, hdvd⟩ := initialPass_spec (by decide) (dvd_zero _) hp
  rw [Nat.zero_add] at hsum
  constructor
  · rintro ⟨hcopies, hall⟩
    have hpages := @pages_of_copies S ds base (fun copy hcopy => by
      have h1 := hcopies copy hcopy
      have h2 := le_bytesWritten S.pageShift.1 copy.2
      exact rounds_of_le hdvd hlt (by omega))
    rw [hpages, hall]
    exact hlt
  · intro hpages
    obtain ⟨hmap, hcopies⟩ := copies_inside base hpages
    have hall : (ds.map (copySpace S)).sum = space := by
      rw [hsum, hmap, Nat.mod_eq_of_lt hpages]
    exact ⟨fun copy hcopy => hall ▸ hcopies copy hcopy, hall⟩

/-! ## The message -/

theorem ok_of_bind_ok {α β ε : Type} {x : Except ε α} {g : α → β} {a : α} {b : β}
    (hx : (x >>= fun a => .ok (g a, a)) = .ok (b, a)) : x = .ok a := by
  cases x with
  | ok a' => exact congrArg Except.ok (Prod.mk.inj (Except.ok.inj hx)).2
  | error e => cases hx

theorem descriptors_length {m : Message} (hs : m.saddr < m.eaddr) :
    m.descriptors.length = m.walked ∧ 0 < m.walked := by
  have hdiff : m.eaddr - m.saddr = u32 (12 * m.descriptorCount) := by
    rw [Message.eaddr, u32] at hs ⊢
    rw [u32]
    omega
  rw [Message.descriptors, length_map, length_range, hdiff, Message.walked]
  refine ⟨rfl, ?_⟩
  rw [← hdiff]
  omega

theorem copyin_body_bounds_iff {m : Message} {h' : Header}
    (hok : ipcKmsgCopyinBody S m = .ok (h', st)) : InBounds S m st ↔ m.Roomy S := by
  rw [ipcKmsgCopyinBody] at hok
  dsimp only at hok
  split at hok
  case isTrue => cases hok
  case isFalse hsmall =>
  split at hok
  case h_1 => cases hok
  case h_2 space hpass =>
  obtain ⟨hlt, hdvd⟩ := initialPass_spec (show 0 < 2 ^ 32 by decide) (dvd_zero _) hpass
  obtain ⟨base, events, ho, hnone, hnothing, hfold⟩ : ∃ base events,
      Owes S base space 0 ⟨[], base, space, false, m.header.circular, events⟩ ∧
      events.filterMap Event.kalloced = [] ∧ events.filterMap Event.physicalCopied = [] ∧
      m.descriptors.foldlM (copyinDescriptor S m.header)
        ⟨[], base, space, false, m.header.circular, events⟩ = .ok st := by
    by_cases hspace : 0 < space
    · rw [if_pos hspace] at hok
      cases halloc : S.vmAllocate with
      | none =>
        rw [halloc] at hok
        cases hok
      | some paddr =>
        rw [halloc] at hok
        exact ⟨_, _, .start hlt hdvd (.inl ⟨rfl, paddr.2⟩), rfl, rfl, ok_of_bind_ok hok⟩
    · rw [if_neg hspace] at hok
      have hzero : space = 0 := by omega
      exact ⟨_, _, .start hlt hdvd (.inr ⟨rfl, rfl, hzero⟩), rfl, rfl, ok_of_bind_ok hok⟩
  obtain ⟨⟨needed, buffers, hadds⟩, hend⟩ := fold_adds ho hfold
  have harrays := hadds.arrays
  have hkalloced := hadds.kalloced
  have hcopies := hadds.copies
  rw [filterMap_nil, nil_append] at harrays
  rw [hnone, nil_append] at hkalloced
  rw [hnothing, nil_append] at hcopies
  rw [Nat.zero_add] at hend
  have hleft := hend.left
  have hlt' := hend.spaceNeeded_lt
  have hsum := initialPass_sum (by decide) hpass
  have hiff := @space_iff S base _ _ hpass
  obtain ⟨hlen, hpos⟩ := descriptors_length (m := m) (by omega)
  constructor
  · intro hin
    have hused := hin.usedUp
    have hstaged := hin.copies
    rw [hend.region, hend.paddr] at hused
    rw [hend.region, hcopies] at hstaged
    refine ⟨?_, hadds.holding.mp (harrays ▸ hkalloced ▸ hin.arrays), hiff.mp ⟨hstaged, by omega⟩⟩
    have hlast := hin.descriptors (m.walked - 1) (by omega)
    rw [Message.saddr] at hlast
    omega
  · intro hroomy
    obtain ⟨hstaged, hall⟩ := hiff.mpr hroomy.pages
    have harea := hroomy.area
    refine ⟨fun k hk => ?_, ?_, ?_, ?_⟩
    · rw [Message.saddr]
      omega
    · rw [harrays, hkalloced]
      exact hadds.holding.mpr hroomy.counts
    · rw [hend.region, hcopies]
      exact hstaged
    · rw [hend.region, hend.paddr, hall]
      omega

end body

/-- A sender all of whose calls succeed. -/
def willingSender : Sender where
  pageShift := ⟨12, by decide⟩
  ipcObjectCopyin := fun _ _ => some 0x20000
  ipcPortCheckCircularity := fun _ _ => false
  vmAllocate := some ⟨0x40000, by decide⟩
  copyin := fun _ => true
  vmMove := fun _ => some 0x50000
  kalloc := fun _ => 0x30000
  copyinmap := fun _ => true
  lowMemory := fun _ => 0

/-- A message of 40 bytes, which is room for one descriptor, with two of memory to be copied. -/
def memoryMessage (count : ℕ) : Message where
  header := ⟨0x20000, portNull, portSend, 0, true, false⟩
  address := 0x10000
  msghSize := 40
  descriptorCount := count
  memory := fun _ => .known (.outOfLine ⟨0x4000, 5000, false, physicalCopy⟩)

/-- The same message with room for the second descriptor. -/
def roomyMessage : Message := { memoryMessage 2 with msghSize := 52 }

theorem copyin_body_bounds_iff_two :
    ∃ h st, ipcKmsgCopyinBody willingSender roomyMessage = .ok (h, st) ∧ st.done.length = 2 ∧
      (InBounds willingSender roomyMessage st ↔ roomyMessage.Roomy willingSender) :=
  ⟨_, _, rfl, rfl, copyin_body_bounds_iff rfl⟩

/-- The second descriptor is behind the message, and it is copied in all the same. -/
theorem descriptor_behind_message :
    ∃ h st, ipcKmsgCopyinBody willingSender (memoryMessage 2) = .ok (h, st) ∧
      ¬ InBounds willingSender (memoryMessage 2) st := by
  refine ⟨_, _, rfl, fun hin => ?_⟩
  have := hin.descriptors 1 (by decide)
  revert this
  decide

end Darwin.Ipc.Kmsg
