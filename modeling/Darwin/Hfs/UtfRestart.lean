import Darwin.Hfs.UtfRoundTrip

/-! # Conversions that go on in another buffer

A conversion that has exhausted its target has moved the source pointer behind the character it
had no room for. What goes on from there is without that character.
-/
namespace Darwin.Hfs
open Darwin.Lib List

section restarting
variable {Source Unit : Type} {convert : Source → Conversion Source Unit} {all : Source → List Unit}

/-- The chunks that one call after the other writes, until one does not exhaust its target. -/
inductive Restarted (convert : Source → Conversion Source Unit) : Source → List (List Unit) → Prop where
  | last {source : Source} : (convert source).result ≠ .targetExhausted →
      Restarted convert source [(convert source).target]
  | again {source : Source} {chunks : List (List Unit)} : (convert source).result = .targetExhausted →
      Restarted convert (convert source).source chunks →
      Restarted convert source ((convert source).target :: chunks)

/-- How a call ends: with all that the source gives, or exhausted and without some of it. -/
inductive ConversionEnds (all : Source → List Unit) (size : Source → ℕ) (source : Source) :
    Conversion Source Unit → Prop where
  | whole {r : Conversion Source Unit} : r.result ≠ .targetExhausted → r.target = all source →
      ConversionEnds all size source r
  | short {r : Conversion Source Unit} {lost : List Unit} : r.result = .targetExhausted → size r.source < size source →
      0 < lost.length → all source = r.target ++ lost ++ all r.source → ConversionEnds all size source r

variable {size : Source → ℕ}

theorem ConversionEnds.after {source rest : Source} {units : List Unit} {r : Conversion Source Unit}
    (h : ConversionEnds all size rest r) (hsize : size rest ≤ size source) (hall : all source = units ++ all rest) : ConversionEnds all size source (r.after units) := by
  cases h with
  | whole hr htarget => exact .whole hr (by rw [Conversion.after, htarget, hall])
  | short hr hless hlost heq =>
    refine .short hr (Nat.lt_of_lt_of_le hless hsize) hlost ?_
    rw [hall, heq, Conversion.after]
    simp only [append_assoc]

theorem after_result (units : List Unit) (r : Conversion Source Unit) : (r.after units).result = r.result := rfl

theorem exists_restarted (h : ∀ source, ConversionEnds all size source (convert source)) (source : Source) :
    ∃ chunks, Restarted convert source chunks := by
  induction hn : size source using Nat.strong_induction_on generalizing source with
  | h n ih =>
    cases h source with
    | whole hr _ => exact ⟨_, .last hr⟩
    | short hr hless _ _ =>
      obtain ⟨chunks, hchunks⟩ := ih _ (hn ▸ hless) _ rfl
      exact ⟨_, .again hr hchunks⟩

theorem Restarted.length_le (h : ∀ source, ConversionEnds all size source (convert source)) {source : Source}
    {chunks : List (List Unit)} (hc : Restarted convert source chunks) : chunks.flatten.length ≤ (all source).length := by
  induction hc with
  | @last source hr =>
    cases h source with
    | whole _ htarget => rw [flatten_singleton, htarget]
    | short hr' _ _ _ => exact absurd hr' hr
  | @again source chunks hr _ ih =>
    cases h source with
    | whole hr' _ => exact absurd hr hr'
    | short _ _ _ heq =>
      rw [heq]
      simp only [flatten_cons, length_append]
      omega

theorem Restarted.flatten_eq_iff (h : ∀ source, ConversionEnds all size source (convert source)) {source : Source}
    {chunks : List (List Unit)} (hc : Restarted convert source chunks) :
    chunks.flatten = all source ↔ (convert source).result ≠ .targetExhausted := by
  cases hc with
  | last hr =>
    cases h source with
    | whole _ htarget => exact ⟨fun _ => hr, fun _ => (flatten_singleton).trans htarget⟩
    | short hr' _ _ _ => exact absurd hr' hr
  | again hr hc =>
    refine ⟨fun heq => ?_, fun hne => absurd hr hne⟩
    cases h source with
    | whole hr' _ => exact absurd hr hr'
    | short _ _ hlost hall =>
      have hlen := congrArg List.length heq
      have hle := hc.length_le h
      rw [hall] at hlen
      simp only [flatten_cons, length_append] at hlen
      omega

end restarting

/-! ## From UTF-16 to UTF-8 -/

/-- The bytes of all characters of the source, at most `n` of them. -/
def encodeAll : ℕ → List UTF16 → List UTF8
  | 0, _ => []
  | _ + 1, [] => []
  | n + 1, ch :: source => encodeChar (readUTF16 ch source).1 ++ encodeAll n (readUTF16 ch source).2

/-- The room that the characters of the source need. -/
def encodedLength : ℕ → List UTF16 → ℕ
  | 0, _ => 0
  | _ + 1, [] => 0
  | n + 1, ch :: source => (bytesToWrite (readUTF16 ch source).1).1 + encodedLength n (readUTF16 ch source).2

theorem readUTF16_length (ch : UTF16) (source : List UTF16) : (readUTF16 ch source).2.length ≤ source.length := by
  unfold readUTF16
  split
  · exact Nat.le_refl _
  · split
    · exact Nat.le_refl _
    · split
      · exact Nat.le_succ _
      · exact Nat.le_refl _

theorem encodeAll_eq (n : ℕ) : ∀ source : List UTF16, source.length ≤ n →
    encodeAll n source = encodeAll source.length source := by
  induction n using Nat.strong_induction_on with
  | h n ih =>
    intro source hn
    cases source with
    | nil => cases n <;> rfl
    | cons ch source =>
      obtain ⟨n, rfl⟩ : ∃ k, n = k + 1 := ⟨n - 1, by rw [length_cons] at hn; omega⟩
      have hrest := readUTF16_length ch source
      rw [length_cons] at hn
      rw [length_cons, encodeAll, encodeAll, ih n (by omega) _ (by omega)]
      by_cases heq : source.length = n
      · rw [heq, ih n (by omega) _ (by omega)]
      · rw [ih source.length (by omega) _ hrest]

theorem encodeLoop_ends (n : ℕ) : ∀ (source : List UTF16) (room : ℕ), source.length ≤ n →
    ConversionEnds (fun s => encodeAll s.length s) List.length source (encodeLoop n source room) ∧
      ((encodeLoop n source room).result ≠ .targetExhausted ↔ encodedLength n source ≤ room) := by
  induction n with
  | zero =>
    intro source room hn
    obtain rfl : source = [] := length_eq_zero_iff.mp (by omega)
    exact ⟨.whole (by simp [encodeLoop]) rfl, fun _ => Nat.zero_le _, fun _ => by simp [encodeLoop]⟩
  | succ n ih =>
    intro source room hn
    cases source with
    | nil => exact ⟨.whole (by simp [encodeLoop]) rfl, fun _ => Nat.zero_le _, fun _ => by simp [encodeLoop]⟩
    | cons ch source =>
      rw [length_cons] at hn
      have hrest := readUTF16_length ch source
      have hall : encodeAll (ch :: source).length (ch :: source) = encodeChar (readUTF16 ch source).1 ++
          encodeAll (readUTF16 ch source).2.length (readUTF16 ch source).2 := by
        rw [length_cons, encodeAll, encodeAll_eq _ _ hrest]
      by_cases hfits : (encodeChar (readUTF16 ch source).1).length ≤ room
      · obtain ⟨hends, hiff⟩ := ih (readUTF16 ch source).2 (room - (encodeChar (readUTF16 ch source).1).length) (by omega)
        rw [encodeLoop_cons hfits]
        refine ⟨hends.after (by simp only [length_cons]; omega) hall, ?_⟩
        rw [after_result, hiff, encodedLength, ← encodeChar_count]
        omega
      · have hstop : encodeLoop (n + 1) (ch :: source) room = ⟨.targetExhausted, (readUTF16 ch source).2, []⟩ := by
          rw [encodeChar_count] at hfits
          simp only [encodeLoop, Nat.lt_of_not_le hfits, if_true]
        rw [hstop]
        refine ⟨.short rfl (by simp only [length_cons]; omega) (encodeChar_pos (readUTF16 ch source).1) ?_, ?_⟩
        · rw [hall, nil_append]
        · rw [encodedLength, ← encodeChar_count]
          exact ⟨fun hne => absurd rfl hne, fun hle => absurd (Nat.le_trans (Nat.le_add_right _ _) hle) hfits⟩

/-! ## From UTF-8 to UTF-16 -/

section decoding
variable {memory : ℕ → UTF8} {sourceEnd : ℕ}

/-- The character at the source pointer. -/
def decodeChar (memory : ℕ → UTF8) (source : ℕ) : ℕ :=
  u32Sub (readBytes memory (bytesFromUTF8 (memory source)) source 0) (offsetsFromUTF8.getD (bytesFromUTF8 (memory source)) 0)

/-- How many units a character is written as. -/
def unitsToWrite (ch : ℕ) : ℕ :=
  if ch ≤ kMaximumUCS2 then if (decomposer (if ch = colon then slash else ch)).2 = 0 then 1 else 2
  else if kMaximumUTF16 < ch then 1
  else 2

/-- The units of all characters of the source, at most `n` of them and each in one piece. -/
def decodeAll (memory : ℕ → UTF8) (sourceEnd : ℕ) : ℕ → ℕ → List UTF16
  | 0, _ => []
  | n + 1, source =>
    if source < sourceEnd ∧ source + bytesFromUTF8 (memory source) ≤ sourceEnd then
      (writeUnits (decodeChar memory source) 2).2 ++
        decodeAll memory sourceEnd n (source + bytesFromUTF8 (memory source) + 1)
    else []

/-- The room that the characters of the source need. -/
def decodedLength (memory : ℕ → UTF8) (sourceEnd : ℕ) : ℕ → ℕ → ℕ
  | 0, _ => 0
  | n + 1, source =>
    if source < sourceEnd ∧ source + bytesFromUTF8 (memory source) ≤ sourceEnd then
      unitsToWrite (decodeChar memory source) +
        decodedLength memory sourceEnd n (source + bytesFromUTF8 (memory source) + 1)
    else 0

theorem writeUnits_cases (ch room : ℕ) :
    (writeUnits ch 2).2.length = unitsToWrite ch ∧
      ((unitsToWrite ch ≤ room ∧ writeUnits ch room = (.ok, (writeUnits ch 2).2)) ∨
        (room < unitsToWrite ch ∧ ∃ units lost, writeUnits ch room = (.targetExhausted, units) ∧ 0 < lost.length ∧
          (writeUnits ch 2).2 = units ++ lost)) := by
  have hpos : 0 < (writeUnits ch 2).2.length ∧ (writeUnits ch 2).2.length = unitsToWrite ch := by
    unfold writeUnits unitsToWrite
    generalize decomposer (if ch = colon then slash else ch) = d
    split_ifs <;> simp_all
  refine ⟨hpos.2, ?_⟩
  by_cases h₀ : room = 0
  · subst h₀
    exact .inr ⟨hpos.2 ▸ hpos.1, [], _, by simp [writeUnits], hpos.1, rfl⟩
  by_cases h₁ : room = 1
  · subst h₁
    unfold writeUnits unitsToWrite
    generalize decomposer (if ch = colon then slash else ch) = d
    simp only [OfNat.ofNat_ne_zero, if_false, Nat.one_ne_zero, OfNat.ofNat_ne_one, if_true]
    split_ifs
    · exact .inl ⟨Nat.le_refl 1, rfl⟩
    · exact .inr ⟨Nat.one_lt_two, [_], [_], rfl, Nat.one_pos, rfl⟩
    · exact .inl ⟨Nat.le_refl 1, rfl⟩
    · exact .inr ⟨Nat.one_lt_two, [], [_, _], rfl, Nat.two_pos, rfl⟩
  · have hle : unitsToWrite ch ≤ room := by
      have htwo : unitsToWrite ch ≤ 2 := by
        unfold unitsToWrite
        split_ifs <;> omega
      omega
    refine .inl ⟨hle, ?_⟩
    unfold writeUnits
    simp only [OfNat.ofNat_ne_zero, if_false, h₀, h₁, OfNat.ofNat_ne_one]
    split_ifs <;> rfl

theorem decodeAll_eq (n : ℕ) : ∀ source : ℕ, sourceEnd - source ≤ n →
    decodeAll memory sourceEnd n source = decodeAll memory sourceEnd (sourceEnd - source) source := by
  induction n using Nat.strong_induction_on with
  | h n ih =>
    intro source hn
    cases n with
    | zero => rw [Nat.le_zero.mp hn]
    | succ n =>
      by_cases hmore : source < sourceEnd ∧ source + bytesFromUTF8 (memory source) ≤ sourceEnd
      · obtain ⟨k, hk⟩ : ∃ k, sourceEnd - source = k + 1 := ⟨sourceEnd - source - 1, by omega⟩
        rw [hk, decodeAll, decodeAll, if_pos hmore, if_pos hmore, ih n (by omega) _ (by omega)]
        by_cases heq : k = n
        · rw [heq, ih n (by omega) _ (by omega)]
        · rw [ih k (by omega) _ (by omega)]
      · cases hk : sourceEnd - source with
        | zero => exact if_neg hmore
        | succ k => rw [decodeAll, if_neg hmore, decodeAll, if_neg hmore]

theorem decodeLoop_char {n source room : ℕ} (hlt : source < sourceEnd)
    (hfits : source + bytesFromUTF8 (memory source) ≤ sourceEnd) {result : ConversionResult} {units : List UTF16}
    (hwrite : writeUnits (decodeChar memory source) room = (result, units)) :
    decodeLoop memory sourceEnd (n + 1) source room =
      match result with
      | .ok => (decodeLoop memory sourceEnd n (source + bytesFromUTF8 (memory source) + 1) (room - units.length)).after units
      | result => ⟨result, source + bytesFromUTF8 (memory source) + 1, units⟩ := by
  have hfits : ¬ sourceEnd < source + bytesFromUTF8 (memory source) := Nat.not_lt.mpr hfits
  rw [decodeChar] at hwrite
  rw [decodeLoop, if_pos hlt]
  simp only [hfits, if_false, hwrite]
  cases result <;> rfl

theorem decodeLoop_ends (n : ℕ) : ∀ source room : ℕ, sourceEnd - source ≤ n →
    ConversionEnds (fun s => decodeAll memory sourceEnd (sourceEnd - s) s) (sourceEnd - ·) source
        (decodeLoop memory sourceEnd n source room) ∧
      ((decodeLoop memory sourceEnd n source room).result ≠ .targetExhausted ↔
        decodedLength memory sourceEnd n source ≤ room) := by
  induction n with
  | zero =>
    intro source room hn
    refine ⟨.whole (by simp [decodeLoop]) ?_, fun _ => Nat.zero_le _, fun _ => by simp [decodeLoop]⟩
    rw [Nat.le_zero.mp hn]
    rfl
  | succ n ih =>
    intro source room hn
    by_cases hmore : source < sourceEnd ∧ source + bytesFromUTF8 (memory source) ≤ sourceEnd
    · have hall : decodeAll memory sourceEnd (sourceEnd - source) source =
          (writeUnits (decodeChar memory source) 2).2 ++
            decodeAll memory sourceEnd (sourceEnd - (source + bytesFromUTF8 (memory source) + 1))
              (source + bytesFromUTF8 (memory source) + 1) := by
        obtain ⟨k, hk⟩ : ∃ k, sourceEnd - source = k + 1 := ⟨sourceEnd - source - 1, by omega⟩
        rw [hk, decodeAll, if_pos hmore, decodeAll_eq k _ (by omega)]
      obtain ⟨hunits, hcases⟩ := writeUnits_cases (decodeChar memory source) room
      rw [decodedLength, if_pos hmore]
      rcases hcases with ⟨hle, hwrite⟩ | ⟨hlt, units, lost, hwrite, hlost, hparts⟩
      · obtain ⟨hends, hiff⟩ := ih (source + bytesFromUTF8 (memory source) + 1)
          (room - (writeUnits (decodeChar memory source) 2).2.length) (by omega)
        have hloop := decodeLoop_char (n := n) hmore.1 hmore.2 hwrite
        have hless : sourceEnd - (source + bytesFromUTF8 (memory source) + 1) ≤ sourceEnd - source := by omega
        rw [hloop]
        refine ⟨hends.after hless hall, ?_⟩
        rw [after_result, hiff, hunits]
        omega
      · rw [decodeLoop_char hmore.1 hmore.2 hwrite]
        refine ⟨.short rfl (by dsimp only; omega) hlost ?_, fun hne => absurd rfl hne, fun hle => absurd hlt (by omega)⟩
        rw [hall, hparts]
    · have hall : decodeAll memory sourceEnd (sourceEnd - source) source = [] := by
        cases sourceEnd - source with
        | zero => rfl
        | succ k => rw [decodeAll, if_neg hmore]
      have hstop : decodeLoop memory sourceEnd (n + 1) source room =
          if source < sourceEnd then ⟨.sourceExhausted, source, []⟩ else ⟨.ok, source, []⟩ := by
        rw [decodeLoop]
        by_cases hlt : source < sourceEnd
        · have hshort : sourceEnd < source + bytesFromUTF8 (memory source) := by omega
          simp only [hlt, hshort, if_true]
        · simp only [hlt, if_false]
      rw [hstop, decodedLength, if_neg hmore]
      by_cases hlt : source < sourceEnd
      · rw [if_pos hlt]
        exact ⟨.whole (by simp) hall.symm, fun _ => Nat.zero_le _, fun _ => by simp⟩
      · rw [if_neg hlt]
        exact ⟨.whole (by simp) hall.symm, fun _ => Nat.zero_le _, fun _ => by simp⟩

end decoding

/-! ## Both conversions -/

/-- The room that the text needs in UTF-8. -/
def neededUTF8 (source : List UTF16) : ℕ := encodedLength source.length source

/-- The room that the text needs in UTF-16. -/
def neededUTF16 (memory : ℕ → UTF8) (sourceEnd source : ℕ) : ℕ :=
  decodedLength memory sourceEnd (sourceEnd - source) source

/-- Chunks that are written one after the other into buffers of the same size are the whole text
exactly when the first buffer is large enough for it: what a call has no room for is lost. -/
theorem restarted_whole_iff (room : ℕ) :
    (∀ source : List UTF16,
      ∃ chunks, Restarted (convertUTF16toUTF8 · room) source chunks ∧ ∀ large, neededUTF8 source ≤ large →
        (chunks.flatten = (convertUTF16toUTF8 source large).target ↔ neededUTF8 source ≤ room)) ∧
    ∀ (memory : ℕ → UTF8) (source sourceEnd : ℕ),
      ∃ chunks, Restarted (convertUTF8toUTF16 memory · sourceEnd room) source chunks ∧
        ∀ large, neededUTF16 memory sourceEnd source ≤ large →
          (chunks.flatten = (convertUTF8toUTF16 memory source sourceEnd large).target ↔
            neededUTF16 memory sourceEnd source ≤ room) := by
  constructor
  · intro source
    have hends : ∀ s : List UTF16, ConversionEnds (fun s => encodeAll s.length s) List.length s (convertUTF16toUTF8 s room) :=
      fun s => (encodeLoop_ends s.length s room (Nat.le_refl _)).1
    obtain ⟨chunks, hchunks⟩ := exists_restarted hends source
    refine ⟨chunks, hchunks, fun large hlarge => ?_⟩
    obtain ⟨hwhole, hfits⟩ := encodeLoop_ends source.length source large (Nat.le_refl _)
    have hall : (convertUTF16toUTF8 source large).target = encodeAll source.length source := by
      cases hwhole with
      | whole _ htarget => exact htarget
      | short hr _ _ _ => exact absurd hr (hfits.mpr hlarge)
    rw [hall]
    exact (hchunks.flatten_eq_iff hends).trans (encodeLoop_ends source.length source room (Nat.le_refl _)).2
  · intro memory source sourceEnd
    have hends : ∀ s : ℕ, ConversionEnds (fun s => decodeAll memory sourceEnd (sourceEnd - s) s) (sourceEnd - ·) s
        (convertUTF8toUTF16 memory s sourceEnd room) :=
      fun s => (decodeLoop_ends (sourceEnd - s) s room (Nat.le_refl _)).1
    obtain ⟨chunks, hchunks⟩ := exists_restarted hends source
    refine ⟨chunks, hchunks, fun large hlarge => ?_⟩
    obtain ⟨hwhole, hfits⟩ := @decodeLoop_ends memory sourceEnd (sourceEnd - source) source large (Nat.le_refl _)
    have hall : (convertUTF8toUTF16 memory source sourceEnd large).target =
        decodeAll memory sourceEnd (sourceEnd - source) source := by
      cases hwhole with
      | whole _ htarget => exact htarget
      | short hr _ _ _ => exact absurd hr (hfits.mpr hlarge)
    rw [hall]
    exact (hchunks.flatten_eq_iff hends).trans (decodeLoop_ends (sourceEnd - source) source room (Nat.le_refl _)).2

/-- Five letters in buffers for four bytes: the letter at which the first buffer is full is lost. -/
theorem full_buffer_loses_letter :
    Restarted (convertUTF16toUTF8 · 4) [0x61#16, 0x62#16, 0x63#16, 0x64#16, 0x65#16] [[0x61#8, 0x62#8, 0x63#8, 0x64#8], []] ∧
      [[0x61#8, 0x62#8, 0x63#8, 0x64#8], []].flatten ≠
        (convertUTF16toUTF8 [0x61#16, 0x62#16, 0x63#16, 0x64#16, 0x65#16] 5).target ∧
      (convertUTF16toUTF8 [0x61#16, 0x62#16, 0x63#16, 0x64#16, 0x65#16] 5).result = .ok :=
  ⟨.again (by decide) (.last (by decide)), by decide, by decide⟩

end Darwin.Hfs
