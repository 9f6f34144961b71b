import Darwin.Hfs.UtfRestart

/-! # What the decoder reads

Before it reads a sequence the decoder compares the address of its last byte with `sourceEnd`,
and takes the sequence where the two are equal. Then it reads the byte at `sourceEnd`.
-/
namespace Darwin.Hfs
open Darwin.Lib List

/-- The addresses that the loop of the decoder reads. -/
def decodeReads (memory : ℕ → UTF8) (sourceEnd : ℕ) : ℕ → ℕ → ℕ → List ℕ
  | 0, _, _ => []
  | n + 1, source, room =>
    if source < sourceEnd then
      let extraBytes := bytesFromUTF8 (memory source)
      if sourceEnd < source + extraBytes then [source]
      else
        List.range' source (extraBytes + 1) ++
          match writeUnits (decodeChar memory source) room with
          | (.ok, units) => decodeReads memory sourceEnd n (source + extraBytes + 1) (room - units.length)
          | _ => []
    else []

/-- From `source` to here there are whole sequences, and there is room for their units. -/
inductive Reaches (memory : ℕ → UTF8) (sourceEnd : ℕ) : ℕ → ℕ → ℕ → Prop where
  | here (source room : ℕ) : Reaches memory sourceEnd source room source
  | next {source room p : ℕ} : source + bytesFromUTF8 (memory source) < sourceEnd →
      unitsToWrite (decodeChar memory source) ≤ room →
      Reaches memory sourceEnd (source + bytesFromUTF8 (memory source) + 1)
        (room - unitsToWrite (decodeChar memory source)) p →
      Reaches memory sourceEnd source room p

variable {memory memory' : ℕ → UTF8} {sourceEnd : ℕ}

/-! ## One turn -/

theorem decodeLoop_cutOff {n source room : ℕ} (hlt : source < sourceEnd)
    (hcut : sourceEnd < source + bytesFromUTF8 (memory source)) :
    decodeLoop memory sourceEnd (n + 1) source room = ⟨.sourceExhausted, source, []⟩ := by
  rw [decodeLoop, if_pos hlt]
  exact if_pos hcut

theorem decodeReads_cutOff {n source room : ℕ} (hlt : source < sourceEnd)
    (hcut : sourceEnd < source + bytesFromUTF8 (memory source)) :
    decodeReads memory sourceEnd (n + 1) source room = [source] := by
  rw [decodeReads, if_pos hlt]
  exact if_pos hcut

theorem decodeReads_char {n source room : ℕ} (hlt : source < sourceEnd)
    (hfits : source + bytesFromUTF8 (memory source) ≤ sourceEnd) :
    decodeReads memory sourceEnd (n + 1) source room =
      List.range' source (bytesFromUTF8 (memory source) + 1) ++
        if unitsToWrite (decodeChar memory source) ≤ room then
          decodeReads memory sourceEnd n (source + bytesFromUTF8 (memory source) + 1)
            (room - unitsToWrite (decodeChar memory source))
        else [] := by
  have hnot : ¬ sourceEnd < source + bytesFromUTF8 (memory source) := Nat.not_lt.mpr hfits
  obtain ⟨hlen, ⟨hroom, hwrite⟩ | ⟨hroom, units, lost, hwrite, -, -⟩⟩ :=
    writeUnits_cases (decodeChar memory source) room
  · rw [decodeReads, if_pos hlt, if_pos hroom]
    simp only [hnot, if_false, hwrite, hlen]
  · rw [decodeReads, if_pos hlt, if_neg (Nat.not_le.mpr hroom)]
    simp only [hnot, if_false, hwrite]

/-! ## The result depends on what is read -/

theorem readBytes_congr : ∀ (n : ℕ) {source ch : ℕ},
    (∀ a, source ≤ a → a < source + n + 1 → memory' a = memory a) →
      readBytes memory' n source ch = readBytes memory n source ch
  | 0, source, ch, h => by rw [readBytes, readBytes, h source (by omega) (by omega)]
  | n + 1, source, ch, h => by
    rw [readBytes, readBytes, h source (by omega) (by omega)]
    exact readBytes_congr n (fun a ha ha' => h a (by omega) (by omega))

theorem decodeLoop_congr (n : ℕ) : ∀ source room : ℕ,
    (∀ a ∈ decodeReads memory sourceEnd n source room, memory' a = memory a) →
      decodeLoop memory' sourceEnd n source room = decodeLoop memory sourceEnd n source room := by
  induction n with
  | zero => exact fun _ _ _ => rfl
  | succ n ih =>
    intro source room h
    by_cases hlt : source < sourceEnd
    · by_cases hcut : sourceEnd < source + bytesFromUTF8 (memory source)
      · rw [decodeReads_cutOff hlt hcut] at h
        have hlead : memory' source = memory source := h source (mem_singleton_self _)
        rw [decodeLoop_cutOff hlt hcut, decodeLoop_cutOff hlt (by rwa [hlead])]
      · have hfits := Nat.not_lt.mp hcut
        rw [decodeReads_char hlt hfits] at h
        have hbytes : ∀ a, source ≤ a → a < source + bytesFromUTF8 (memory source) + 1 →
            memory' a = memory a := fun a ha ha' =>
          h a (mem_append_left _ (mem_range'_1.mpr ⟨ha, by omega⟩))
        have hlead : memory' source = memory source := hbytes source (by omega) (by omega)
        have hchar : decodeChar memory' source = decodeChar memory source := by
          rw [decodeChar, decodeChar, hlead, readBytes_congr _ hbytes]
        have hfits' : source + bytesFromUTF8 (memory' source) ≤ sourceEnd := by rwa [hlead]
        obtain ⟨hlen, ⟨hroom, hwrite⟩ | ⟨hroom, units, lost, hwrite, -, -⟩⟩ :=
          writeUnits_cases (decodeChar memory source) room
        · have hwrite' : writeUnits (decodeChar memory' source) room =
              (.ok, (writeUnits (decodeChar memory source) 2).2) := by rw [hchar, hwrite]
          rw [if_pos hroom] at h
          rw [decodeLoop_char hlt hfits hwrite, decodeLoop_char hlt hfits' hwrite', hlead]
          dsimp only
          rw [hlen, ih _ _ (fun a ha => h a (mem_append_right _ ha))]
        · have hwrite' : writeUnits (decodeChar memory' source) room = (.targetExhausted, units) := by
            rw [hchar, hwrite]
          rw [decodeLoop_char hlt hfits hwrite, decodeLoop_char hlt hfits' hwrite', hlead]
    · rw [decodeLoop, decodeLoop, if_neg hlt, if_neg hlt]

/-! ## Where the loop goes -/

theorem Reaches.decodeLoop {source room p : ℕ} (h : Reaches memory sourceEnd source room p) :
    ∀ n, sourceEnd - source ≤ n → ∃ k room' units, sourceEnd - p ≤ k ∧
      Darwin.Hfs.decodeLoop memory sourceEnd n source room =
        (Darwin.Hfs.decodeLoop memory sourceEnd k p room').after units ∧
      (∀ a ∈ decodeReads memory sourceEnd k p room', a ∈ decodeReads memory sourceEnd n source room) := by
  induction h with
  | here source room =>
    exact fun n hn => ⟨n, room, [], hn, rfl, fun a ha => ha⟩
  | @next source room p hlt hroom h ih =>
    intro n hn
    obtain ⟨m, rfl⟩ : ∃ m, n = m + 1 := ⟨n - 1, by omega⟩
    obtain ⟨k, room', units, hk, hloop, hreads⟩ := ih m (by omega)
    obtain ⟨hlen, ⟨-, hwrite⟩ | ⟨hnot, -⟩⟩ := writeUnits_cases (decodeChar memory source) room
    · refine ⟨k, room', (writeUnits (decodeChar memory source) 2).2 ++ units, hk, ?_, fun a ha => ?_⟩
      · rw [decodeLoop_char (by omega) hlt.le hwrite]
        dsimp only
        rw [hlen, hloop, after_after]
      · rw [decodeReads_char (by omega) hlt.le, if_pos hroom]
        exact mem_append_right _ (hreads a ha)
    · exact absurd hroom (Nat.not_le.mpr hnot)

theorem decodeReads_inside (n : ℕ) : ∀ source room : ℕ,
    (∀ p, Reaches memory sourceEnd source room p → p < sourceEnd →
      p + bytesFromUTF8 (memory p) ≠ sourceEnd) →
    ∀ a ∈ decodeReads memory sourceEnd n source room, source ≤ a ∧ a < sourceEnd := by
  induction n with
  | zero => exact fun _ _ _ a ha => absurd ha not_mem_nil
  | succ n ih =>
    intro source room h a ha
    by_cases hlt : source < sourceEnd
    · by_cases hcut : sourceEnd < source + bytesFromUTF8 (memory source)
      · rw [decodeReads_cutOff hlt hcut, mem_singleton] at ha
        omega
      · have hin : source + bytesFromUTF8 (memory source) < sourceEnd := by
          have := h source (.here source room) hlt
          omega
        rw [decodeReads_char hlt hin.le] at ha
        rcases mem_append.mp ha with ha | ha
        · have := mem_range'_1.mp ha
          omega
        · by_cases hroom : unitsToWrite (decodeChar memory source) ≤ room
          · rw [if_pos hroom] at ha
            have := ih _ _ (fun p hp => h p (.next hin hroom hp)) a ha
            omega
          · rw [if_neg hroom] at ha
            exact absurd ha not_mem_nil
    · rw [decodeReads, if_neg hlt] at ha
      exact absurd ha not_mem_nil

/-! ## The decoder -/

/-- What a decoder does that stays inside its source: it reads nothing else, its outcome depends
on nothing else, and a sequence that the end cuts off exhausts the source. -/
structure StaysInside (memory : ℕ → UTF8) (source sourceEnd room : ℕ) : Prop where
  reads : ∀ a ∈ decodeReads memory sourceEnd (sourceEnd - source) source room, source ≤ a ∧ a < sourceEnd
  same : ∀ memory' : ℕ → UTF8, (∀ a, source ≤ a → a < sourceEnd → memory' a = memory a) →
    convertUTF8toUTF16 memory' source sourceEnd room = convertUTF8toUTF16 memory source sourceEnd room
  exhausted : ∀ p, Reaches memory sourceEnd source room p → p < sourceEnd →
    sourceEnd ≤ p + bytesFromUTF8 (memory p) →
      (convertUTF8toUTF16 memory source sourceEnd room).result = .sourceExhausted ∧
        (convertUTF8toUTF16 memory source sourceEnd room).source = p

/-- The decoder stays inside its source unless whole sequences lead to one that lacks exactly its
last byte. -/
theorem staysInside_iff (memory : ℕ → UTF8) (source sourceEnd room : ℕ) :
    StaysInside memory source sourceEnd room ↔
      ¬ ∃ p, Reaches memory sourceEnd source room p ∧ p < sourceEnd ∧
        p + bytesFromUTF8 (memory p) = sourceEnd := by
  constructor
  · rintro h ⟨p, hp, hlt, hlast⟩
    obtain ⟨k, room', units, hk, -, hreads⟩ := hp.decodeLoop (sourceEnd - source) (Nat.le_refl _)
    obtain ⟨m, rfl⟩ : ∃ m, k = m + 1 := ⟨k - 1, by omega⟩
    have hend : sourceEnd ∈ decodeReads memory sourceEnd (m + 1) p room' := by
      rw [decodeReads_char hlt hlast.le]
      exact mem_append_left _ (mem_range'_1.mpr ⟨by omega, by omega⟩)
    have := h.reads sourceEnd (hreads sourceEnd hend)
    omega
  · intro h
    have hinside := @decodeReads_inside memory sourceEnd (sourceEnd - source) source room
      (fun p hp hlt hlast => h ⟨p, hp, hlt, hlast⟩)
    refine ⟨hinside, fun memory' hsame => ?_, fun p hp hlt hcut => ?_⟩
    · exact decodeLoop_congr _ _ _ (fun a ha => hsame a (hinside a ha).1 (hinside a ha).2)
    · obtain ⟨k, room', units, hk, hloop, -⟩ := hp.decodeLoop (sourceEnd - source) (Nat.le_refl _)
      obtain ⟨m, rfl⟩ : ∃ m, k = m + 1 := ⟨k - 1, by omega⟩
      have hbehind : sourceEnd < p + bytesFromUTF8 (memory p) :=
        Nat.lt_of_le_of_ne hcut (fun heq => h ⟨p, hp, hlt, heq.symm⟩)
      rw [decodeLoop_cutOff hlt hbehind] at hloop
      rw [convertUTF8toUTF16, hloop]
      exact ⟨rfl, rfl⟩

/-- The first byte of a sequence of two and nothing more: the letter comes from behind the end. -/
theorem lead_byte_alone_reads_on :
    ¬ StaysInside (fun _ => 0xC3#8) 0 1 4 ∧
      (convertUTF8toUTF16 (fun a => if a = 0 then 0xC3#8 else 0x86#8) 0 1 4) = ⟨.ok, 2, [0xC6#16]⟩ ∧
      (convertUTF8toUTF16 (fun a => if a = 0 then 0xC3#8 else 0x98#8) 0 1 4) = ⟨.ok, 2, [0xD8#16]⟩ := by
  refine ⟨fun h => ?_, by decide +kernel, by decide +kernel⟩
  have := h.reads 1 (by decide +kernel)
  omega

end Darwin.Hfs
