import Darwin.Hfs.ConvertUTF

/-! # From UTF-16 to UTF-8 and back

What the encoder writes for a character is what the decoder reads as that character, and what
it writes for the character are the units that the encoder read.
-/
namespace Darwin.Hfs
open Darwin.Lib List

/-! ## The bytes of a character -/

/-- The bytes that the encoder writes for a character. -/
def encodeChar (ch : ℕ) : List UTF8 :=
  writeBytes (firstByteMark.getD (bytesToWrite ch).1 0) (bytesToWrite ch).1 (bytesToWrite ch).2

/-- The bytes stand in memory from the source pointer on. -/
def Holds (memory : ℕ → UTF8) (source : ℕ) (bytes : List UTF8) : Prop :=
  ∀ i (h : i < bytes.length), memory (source + i) = bytes[i]

theorem Holds.append {memory : ℕ → UTF8} {source : ℕ} {bytes bytes' : List UTF8}
    (h : Holds memory source (bytes ++ bytes')) :
    Holds memory source bytes ∧ Holds memory (source + bytes.length) bytes' := by
  constructor
  · intro i hi
    have hlt : i < (bytes ++ bytes').length := by
      rw [length_append]
      omega
    rw [h i hlt, getElem_append_left hi]
  · intro i hi
    have hlt : bytes.length + i < (bytes ++ bytes').length := by
      rw [length_append]
      omega
    rw [Nat.add_assoc, h _ hlt, getElem_append_right (by omega)]
    simp

theorem or_and_mask (ch : ℕ) : (ch ||| 0x80) &&& 0xBF = 0x80 + ch % 64 := by
  have hlow : ∀ x < 256, (x ||| 0x80) &&& 0xBF = 0x80 + x % 64 := by decide +kernel
  have hmod : (ch ||| 0x80) &&& 0xBF = ((ch % 2 ^ 8) ||| 0x80) &&& 0xBF := by
    have hle : (ch ||| 0x80) &&& 0xBF < 2 ^ 8 := lt_of_le_of_lt Nat.and_le_right (by norm_num)
    rw [← Nat.mod_eq_of_lt hle, Nat.and_mod_two_pow, Nat.or_mod_two_pow]
  rw [hmod, hlow (ch % 2 ^ 8) (Nat.mod_lt _ (by norm_num))]
  omega

theorem or_mark {ch n mark : ℕ} (h : ch < n) (hn : ∀ x < n, x ||| mark = x + mark) :
    ch ||| mark = ch + mark := hn ch h

section bytes
variable {ch : ℕ}

theorem encodeChar_one (h : ch < 0x80) : encodeChar ch = [BitVec.ofNat 8 ch] := by
  simp [encodeChar, bytesToWrite, h, writeBytes, firstByteMark]

theorem encodeChar_two (h : 0x80 ≤ ch) (h' : ch < 0x800) : encodeChar ch =
    [BitVec.ofNat 8 (ch / 64 + 0xC0), BitVec.ofNat 8 (0x80 + ch % 64)] := by
  have hmark : ch / 64 ||| 0xC0 = ch / 64 + 0xC0 := or_mark (n := 32) (by omega) (by decide)
  simp [encodeChar, bytesToWrite, show ¬ ch < 0x80 by omega, h', writeBytes, firstByteMark,
    or_and_mask, Nat.shiftRight_eq_div_pow, hmark]

theorem encodeChar_three (h : 0x800 ≤ ch) (h' : ch < 0x10000) : encodeChar ch =
    [BitVec.ofNat 8 (ch / 64 / 64 + 0xE0), BitVec.ofNat 8 (0x80 + ch / 64 % 64),
      BitVec.ofNat 8 (0x80 + ch % 64)] := by
  have hmark : ch / 64 / 64 ||| 0xE0 = ch / 64 / 64 + 0xE0 := or_mark (n := 16) (by omega) (by decide)
  simp [encodeChar, bytesToWrite, show ¬ ch < 0x80 by omega, show ¬ ch < 0x800 by omega, h',
    writeBytes, firstByteMark, or_and_mask, Nat.shiftRight_eq_div_pow, hmark]

theorem encodeChar_four (h : 0x10000 ≤ ch) (h' : ch < 0x110000) : encodeChar ch =
    [BitVec.ofNat 8 (ch / 64 / 64 / 64 + 0xF0), BitVec.ofNat 8 (0x80 + ch / 64 / 64 % 64),
      BitVec.ofNat 8 (0x80 + ch / 64 % 64), BitVec.ofNat 8 (0x80 + ch % 64)] := by
  have hmark : ch / 64 / 64 / 64 ||| 0xF0 = ch / 64 / 64 / 64 + 0xF0 :=
    or_mark (n := 8) (by omega) (by decide)
  simp [encodeChar, bytesToWrite, show ¬ ch < 0x80 by omega, show ¬ ch < 0x800 by omega,
    show ¬ ch < 0x10000 by omega, show ch < 0x200000 by omega, writeBytes, firstByteMark,
    or_and_mask, Nat.shiftRight_eq_div_pow, hmark]

end bytes

/-! ## Reading it back -/

theorem bytesFromUTF8_ofNat {b : ℕ} (h : b < 256) : bytesFromUTF8 (BitVec.ofNat 8 b) =
    if b < 0xC0 then 0 else if b < 0xE0 then 1 else if b < 0xF0 then 2
    else if b < 0xF8 then 3 else if b < 0xFC then 4 else 5 := by
  simp [bytesFromUTF8, Nat.mod_eq_of_lt h]

theorem readBytes_zero {memory : ℕ → UTF8} {source ch b : ℕ} (hb : memory source = BitVec.ofNat 8 b)
    (h : b < 256) : readBytes memory 0 source ch = u32 (ch + b) := by
  simp [readBytes, hb, Nat.mod_eq_of_lt h]

theorem readBytes_succ {memory : ℕ → UTF8} {n source ch b : ℕ}
    (hb : memory source = BitVec.ofNat 8 b) (h : b < 256) : readBytes memory (n + 1) source ch =
      readBytes memory n (source + 1) (u32 (u32 (ch + b) * 64)) := by
  simp [readBytes, hb, Nat.mod_eq_of_lt h, Nat.shiftLeft_eq]

theorem decode_encodeChar {memory : ℕ → UTF8} {source ch : ℕ} (h : ch < 0x110000)
    (hold : Holds memory source (encodeChar ch)) :
    bytesFromUTF8 (memory source) + 1 = (encodeChar ch).length ∧
      u32Sub (readBytes memory (bytesFromUTF8 (memory source)) source 0)
        (offsetsFromUTF8.getD (bytesFromUTF8 (memory source)) 0) = ch := by
  by_cases h1 : ch < 0x80
  · rw [encodeChar_one h1] at hold ⊢
    have b0 := hold 0 (by simp)
    simp only [Nat.add_zero, getElem_cons_zero] at b0
    have hextra : bytesFromUTF8 (memory source) = 0 := by
      rw [b0, bytesFromUTF8_ofNat (by omega), if_pos (by omega)]
    rw [hextra, readBytes_zero b0 (by omega)]
    refine ⟨rfl, ?_⟩
    simp only [offsetsFromUTF8, getD_cons_zero, u32, u32Sub]
    omega
  by_cases h2 : ch < 0x800
  · rw [encodeChar_two (by omega) h2] at hold ⊢
    have b0 := hold 0 (by simp)
    have b1 := hold 1 (by simp)
    simp only [Nat.add_zero, getElem_cons_zero, getElem_cons_succ] at b0 b1
    have hextra : bytesFromUTF8 (memory source) = 1 := by
      rw [b0, bytesFromUTF8_ofNat (by omega), if_neg (by omega), if_pos (by omega)]
    rw [hextra, readBytes_succ b0 (by omega), readBytes_zero b1 (by omega)]
    refine ⟨rfl, ?_⟩
    simp only [offsetsFromUTF8, getD_cons_zero, getD_cons_succ, u32, u32Sub]
    omega
  by_cases h3 : ch < 0x10000
  · rw [encodeChar_three (by omega) h3] at hold ⊢
    have b0 := hold 0 (by simp)
    have b1 := hold 1 (by simp)
    have b2 := hold 2 (by simp)
    simp only [Nat.add_zero, getElem_cons_zero, getElem_cons_succ] at b0 b1 b2
    have hextra : bytesFromUTF8 (memory source) = 2 := by
      rw [b0, bytesFromUTF8_ofNat (by omega), if_neg (by omega), if_neg (by omega),
        if_pos (by omega)]
    rw [hextra, readBytes_succ b0 (by omega), readBytes_succ b1 (by omega),
      readBytes_zero b2 (by omega)]
    refine ⟨rfl, ?_⟩
    simp only [offsetsFromUTF8, getD_cons_zero, getD_cons_succ, u32, u32Sub]
    omega
  · rw [encodeChar_four (by omega) h] at hold ⊢
    have b0 := hold 0 (by simp)
    have b1 := hold 1 (by simp)
    have b2 := hold 2 (by simp)
    have b3 := hold 3 (by simp)
    simp only [Nat.add_zero, getElem_cons_zero, getElem_cons_succ] at b0 b1 b2 b3
    have hextra : bytesFromUTF8 (memory source) = 3 := by
      rw [b0, bytesFromUTF8_ofNat (by omega), if_neg (by omega), if_neg (by omega),
        if_neg (by omega), if_pos (by omega)]
    rw [hextra, readBytes_succ b0 (by omega), readBytes_succ b1 (by omega),
      readBytes_succ b2 (by omega), readBytes_zero b3 (by omega)]
    refine ⟨rfl, ?_⟩
    simp only [offsetsFromUTF8, getD_cons_zero, getD_cons_succ, u32, u32Sub]
    omega

/-! ## Decomposition -/

/-- The decoder writes more than one unit for the character. -/
def Decomposed (ch : UTF16) : Prop := (decomposer ch.toNat).2 ≠ 0

instance (ch : UTF16) : Decidable (Decomposed ch) := inferInstanceAs (Decidable (_ ≠ _))

theorem decomposeKana_ne_zero (ch : ℕ) : (decomposeKana ch).2 ≠ 0 := by
  unfold decomposeKana
  split <;> simp

theorem decomposer_eq {ch : ℕ} (h : (decomposer ch).2 = 0) : decomposer ch = (ch, 0) := by
  by_cases hlatin : ch ≤ 0x00FF ∧ 0x00C0 ≤ ch
  · have hall : ∀ i < 64, (decomposer (i + 0xC0)).2 = 0 → decomposer (i + 0xC0) = (i + 0xC0, 0) := by
      decide +kernel
    obtain ⟨i, rfl⟩ := Nat.exists_eq_add_of_le' hlatin.2
    exact hall i (by omega) h
  · unfold decomposer at h ⊢
    rw [if_neg hlatin] at h ⊢
    split_ifs at h ⊢
    · exact absurd h (decomposeKana_ne_zero ch)
    · rfl

/-! ## Characters of UTF-16 -/

/-- A unit that both conversions leave alone. -/
def Plain (ch : UTF16) : Prop := ch.toNat ≠ slash ∧ ch.toNat ≠ colon ∧ ¬ Decomposed ch

instance (ch : UTF16) : Decidable (Plain ch) := inferInstanceAs (Decidable (_ ∧ _ ∧ _))

theorem plain_of_le {ch : UTF16} (h : 0x3100 ≤ ch.toNat) : Plain ch := by
  have hsame : decomposer ch.toNat = (ch.toNat, 0) := by
    unfold decomposer
    rw [if_neg (by omega), if_neg (by omega)]
  refine ⟨?_, ?_, ?_⟩
  · rw [slash]
    omega
  · rw [colon]
    omega
  · rw [Decomposed, hsame]
    exact not_not.mpr rfl

/-- A unit that comes back: a slash is a colon in between. -/
def Kept (ch : UTF16) : Prop := ch.toNat ≠ colon ∧ ¬ Decomposed ch

instance (ch : UTF16) : Decidable (Kept ch) := inferInstanceAs (Decidable (_ ∧ _))

theorem Plain.kept {ch : UTF16} (h : Plain ch) : Kept ch := h.2

theorem Kept.writeUnits {ch : UTF16} (h : Kept ch) {room : ℕ} (hroom : 0 < room) :
    Darwin.Hfs.writeUnits ch.toNat room = (.ok, [ch]) := by
  have hsame := decomposer_eq (not_not.mp h.2)
  have hle : ch.toNat ≤ kMaximumUCS2 := by
    have := ch.isLt
    unfold kMaximumUCS2
    omega
  simp [Darwin.Hfs.writeUnits, Nat.pos_iff_ne_zero.mp hroom, hle, h.1, hsame]

theorem writeUnits_colon {ch : UTF16} (h : ch.toNat = slash) {room : ℕ} (hroom : 0 < room) :
    writeUnits colon room = (.ok, [ch]) := by
  have hch : ch = BitVec.ofNat 16 slash := BitVec.eq_of_toNat_eq (by rw [h]; rfl)
  have hsame : decomposer slash = (slash, 0) := by decide
  simp [writeUnits, Nat.pos_iff_ne_zero.mp hroom, hsame, hch, colon, kMaximumUCS2]

theorem and_halfMask (x : ℕ) : x &&& 0x3FF = x % 1024 := by
  simpa using Nat.and_two_pow_sub_one_eq_mod x 10

theorem writeUnits_pair {c c2 : UTF16} (hc : highSurrogate c.toNat = true)
    (hc2 : lowSurrogate c2.toNat = true) {room : ℕ} (hroom : 2 ≤ room) :
    writeUnits (((c.toNat - 0xD800) <<< 10) + (c2.toNat - 0xDC00) + 0x10000) room =
      (.ok, [c, c2]) := by
  simp only [highSurrogate, lowSurrogate, decide_eq_true_eq] at hc hc2
  obtain ⟨a, ha⟩ := Nat.exists_eq_add_of_le hc.1
  obtain ⟨b, hb⟩ := Nat.exists_eq_add_of_le hc2.1
  have hch : ((c.toNat - 0xD800) <<< 10) + (c2.toNat - 0xDC00) + 0x10000 = a * 1024 + b + 0x10000 := by
    rw [Nat.shiftLeft_eq, ha, hb, Nat.add_sub_cancel_left, Nat.add_sub_cancel_left]
  have hsub : a * 1024 + b + 0x10000 - 0x10000 = a * 1024 + b := Nat.add_sub_cancel ..
  have hucs : ¬ a * 1024 + b + 0x10000 ≤ kMaximumUCS2 := by
    unfold kMaximumUCS2
    omega
  have hutf : ¬ kMaximumUTF16 < a * 1024 + b + 0x10000 := by
    unfold kMaximumUTF16
    omega
  have hhigh : (a * 1024 + b) / 2 ^ 10 + 0xD800 = c.toNat := by omega
  have hlow : (a * 1024 + b) % 1024 + 0xDC00 = c2.toNat := by omega
  rw [hch, writeUnits, if_neg (by omega), if_neg hucs, if_neg hutf, if_neg (by omega), hsub,
    and_halfMask, Nat.shiftRight_eq_div_pow, hhigh, hlow]
  simp

/-- The encoder reads one or two units; the decoder writes them for the character. -/
structure Reads (c : UTF16) (source : List UTF16) (units : List UTF16) : Prop where
  split : c :: source = units ++ (readUTF16 c source).2
  pos : 0 < units.length
  bound : (readUTF16 c source).1 < 0x110000
  bytes : (encodeChar (readUTF16 c source).1).length ≤ 3 * units.length
  back : (∀ u ∈ units, Kept u) → ∀ room, units.length ≤ room →
    writeUnits (readUTF16 c source).1 room = (.ok, units)

theorem encodeChar_length {ch : ℕ} (h : ch < 0x110000) :
    (encodeChar ch).length ≤ if ch < 0x10000 then 3 else 4 := by
  by_cases h1 : ch < 0x80
  · rw [encodeChar_one h1, if_pos (by omega)]
    simp
  by_cases h2 : ch < 0x800
  · rw [encodeChar_two (by omega) h2, if_pos (by omega)]
    simp
  by_cases h3 : ch < 0x10000
  · rw [encodeChar_three (by omega) h3, if_pos h3]
    simp
  · rw [encodeChar_four (by omega) h, if_neg h3]
    simp

theorem readUTF16_spec (c : UTF16) (source : List UTF16) : ∃ units, Reads c source units := by
  have hc : c.toNat < 0x10000 := c.isLt
  have hone : readUTF16 c source = (c.toNat, source) → Reads c source [c] := by
    intro hread
    refine ⟨by rw [hread]; rfl, Nat.one_pos, by rw [hread]; omega, ?_, ?_⟩
    · rw [hread]
      have hlen := encodeChar_length (show c.toNat < 0x110000 by omega)
      rwa [if_pos hc] at hlen
    · intro hkept room hroom
      rw [hread]
      exact (hkept c mem_cons_self).writeUnits hroom
  by_cases hslash : c.toNat = slash
  · have hread : readUTF16 c source = (colon, source) := by
      unfold readUTF16
      exact if_pos hslash
    refine ⟨[c], by rw [hread]; rfl, Nat.one_pos, by rw [hread]; norm_num [colon], ?_, ?_⟩
    · rw [hread]
      change (encodeChar colon).length ≤ 3
      decide
    · intro _ room hroom
      rw [hread]
      exact writeUnits_colon hslash hroom
  cases source with
  | nil => exact ⟨[c], hone (by rw [readUTF16, if_neg hslash])⟩
  | cons c2 rest =>
    by_cases hpair : highSurrogate c.toNat = true ∧ lowSurrogate c2.toNat = true
    · have hread : readUTF16 c (c2 :: rest) =
          (((c.toNat - 0xD800) <<< 10) + (c2.toNat - 0xDC00) + 0x10000, rest) := by
        rw [readUTF16, if_neg hslash]
        exact if_pos hpair
      have hlt : ((c.toNat - 0xD800) <<< 10) + (c2.toNat - 0xDC00) + 0x10000 < 0x110000 := by
        have hhigh := hpair.1
        have hlow := hpair.2
        simp only [highSurrogate, lowSurrogate, decide_eq_true_eq] at hhigh hlow
        rw [Nat.shiftLeft_eq]
        omega
      refine ⟨[c, c2], by rw [hread]; rfl, Nat.two_pos, by rw [hread]; exact hlt, ?_, ?_⟩
      · rw [hread]
        have hlen := encodeChar_length hlt
        simp only [length_cons, length_nil]
        split_ifs at hlen <;> omega
      · intro _ room hroom
        rw [hread]
        exact writeUnits_pair hpair.1 hpair.2 hroom
    · refine ⟨[c], hone ?_⟩
      rw [readUTF16, if_neg hslash]
      exact if_neg hpair

/-! ## The whole text -/

@[simp] theorem after_after {Source Unit : Type} (units units' : List Unit)
    (r : Conversion Source Unit) : (r.after units').after units = r.after (units ++ units') := by
  simp [Conversion.after]

theorem writeBytes_length (mark : ℕ) : ∀ n ch, (writeBytes mark n ch).length = n
  | 0, _ => rfl
  | 1, _ => rfl
  | n + 2, ch => by simp [writeBytes, writeBytes_length mark (n + 1)]

theorem encodeChar_count (ch : ℕ) : (encodeChar ch).length = (bytesToWrite ch).1 :=
  writeBytes_length _ _ _

theorem encodeChar_pos (ch : ℕ) : 0 < (encodeChar ch).length := by
  rw [encodeChar_count]
  unfold bytesToWrite
  split_ifs <;> simp

theorem encodeLoop_cons {n room : ℕ} {c : UTF16} {source : List UTF16}
    (hroom : (encodeChar (readUTF16 c source).1).length ≤ room) :
    encodeLoop (n + 1) (c :: source) room =
      (encodeLoop n (readUTF16 c source).2
        (room - (encodeChar (readUTF16 c source).1).length)).after
          (encodeChar (readUTF16 c source).1) := by
  rw [encodeChar_count] at hroom ⊢
  have hfits : ¬ room < (bytesToWrite (readUTF16 c source).1).1 := Nat.not_lt.mpr hroom
  simp only [encodeLoop, hfits, if_false]
  rfl

theorem decodeLoop_cons {memory : ℕ → UTF8} {sourceEnd m source room ch : ℕ} {units : List UTF16}
    (hch : ch < 0x110000) (hold : Holds memory source (encodeChar ch))
    (hend : source + (encodeChar ch).length ≤ sourceEnd)
    (hunits : writeUnits ch room = (.ok, units)) :
    decodeLoop memory sourceEnd (m + 1) source room =
      (decodeLoop memory sourceEnd m (source + (encodeChar ch).length)
        (room - units.length)).after units := by
  obtain ⟨hextra, hread⟩ := decode_encodeChar hch hold
  rw [decodeLoop, if_pos (by omega)]
  simp only [hread, hunits]
  rw [if_neg (by omega), Nat.add_assoc, hextra]

theorem encodeLoop_spec (n : ℕ) : ∀ source : List UTF16, source.length ≤ n →
    ∃ bytes : List UTF8, bytes.length ≤ 3 * source.length ∧
      (∀ room, bytes.length ≤ room → encodeLoop n source room = ⟨.ok, [], bytes⟩) ∧
      ((∀ c ∈ source, Kept c) → ∀ memory start m room, Holds memory start bytes →
        bytes.length ≤ m → source.length ≤ room →
          decodeLoop memory (start + bytes.length) m start room =
            ⟨.ok, start + bytes.length, source⟩) := by
  induction n with
  | zero =>
    intro source hn
    obtain rfl : source = [] := length_eq_zero_iff.mp (by omega)
    refine ⟨[], le_refl _, fun _ _ => rfl, ?_⟩
    rintro - memory start m room - - -
    cases m with
    | zero => rfl
    | succ m => exact if_neg (Nat.lt_irrefl _)
  | succ n ih =>
    intro source hn
    cases source with
    | nil =>
      refine ⟨[], le_refl _, fun _ _ => rfl, ?_⟩
      rintro - memory start m room - - -
      cases m with
      | zero => rfl
      | succ m => exact if_neg (Nat.lt_irrefl _)
    | cons c source =>
      obtain ⟨units, hreads⟩ := readUTF16_spec c source
      have hlength : (c :: source).length = units.length + (readUTF16 c source).2.length := by
        rw [hreads.split, length_append]
      have hpos := hreads.pos
      obtain ⟨bytes, hbytes, hencode, hdecode⟩ := ih (readUTF16 c source).2 (by omega)
      have hfirst := hreads.bytes
      have hnonempty := encodeChar_pos (readUTF16 c source).1
      refine ⟨encodeChar (readUTF16 c source).1 ++ bytes, ?_, ?_, ?_⟩
      · rw [length_append]
        omega
      · intro room hroom
        rw [length_append] at hroom
        rw [encodeLoop_cons (by omega), hencode _ (by omega)]
        rfl
      · intro hkept memory start m room hold hm hroom
        obtain ⟨hold₁, hold₂⟩ := hold.append
        rw [length_append] at hm ⊢
        obtain ⟨m, rfl⟩ : ∃ k, m = k + 1 := ⟨m - 1, by omega⟩
        rw [hreads.split] at hkept
        have hunits := hreads.back (fun u hu => hkept u (mem_append_left _ hu)) room (by omega)
        have hrest := hdecode (fun u hu => hkept u (mem_append_right _ hu)) memory
          (start + (encodeChar (readUTF16 c source).1).length) m (room - units.length) hold₂
          (by omega) (by omega)
        rw [decodeLoop_cons hreads.bound hold₁ (by omega) hunits, ← Nat.add_assoc, hrest]
        rw [Conversion.after, ← hreads.split]

theorem utf16_comesBack (source : List UTF16) (hkept : ∀ c ∈ source, Kept c) :
    ∃ bytes : List UTF8, bytes.length ≤ 3 * source.length ∧
      (∀ room, bytes.length ≤ room → convertUTF16toUTF8 source room = ⟨.ok, [], bytes⟩) ∧
      ∀ memory start room, Holds memory start bytes → source.length ≤ room →
        convertUTF8toUTF16 memory start (start + bytes.length) room =
          ⟨.ok, start + bytes.length, source⟩ := by
  obtain ⟨bytes, hlength, hencode, hdecode⟩ := encodeLoop_spec source.length source (le_refl _)
  refine ⟨bytes, hlength, hencode, ?_⟩
  intro memory start room hold hroom
  exact hdecode hkept memory start _ room hold (by omega) hroom

/-- Text without slashes, colons and characters that the decoder decomposes comes back from
UTF-8 as it was, whatever the memory around the bytes holds. The target buffers are large
enough when they have room for the bytes, three for a unit at most, and for the text. -/
theorem utf16_roundTrip (source : List UTF16) (hplain : ∀ c ∈ source, Plain c) :
    ∃ bytes : List UTF8, bytes.length ≤ 3 * source.length ∧
      (∀ room, bytes.length ≤ room → convertUTF16toUTF8 source room = ⟨.ok, [], bytes⟩) ∧
      ∀ memory start room, Holds memory start bytes → source.length ≤ room →
        convertUTF8toUTF16 memory start (start + bytes.length) room =
          ⟨.ok, start + bytes.length, source⟩ :=
  utf16_comesBack source (fun c hc => (hplain c hc).kept)

/-- A surrogate pair between two lone surrogates. -/
def surrogates : List UTF16 := [0xDC00#16, 0xD83D#16, 0xDE00#16, 0xD800#16]

theorem utf16_roundTrip_surrogates :
    ∃ bytes : List UTF8, bytes.length ≤ 3 * surrogates.length ∧
      (∀ room, bytes.length ≤ room → convertUTF16toUTF8 surrogates room = ⟨.ok, [], bytes⟩) ∧
      ∀ memory start room, Holds memory start bytes → surrogates.length ≤ room →
        convertUTF8toUTF16 memory start (start + bytes.length) room =
          ⟨.ok, start + bytes.length, surrogates⟩ :=
  utf16_roundTrip surrogates (fun c hc => plain_of_le (by
    revert c
    simp [surrogates]))

end Darwin.Hfs
