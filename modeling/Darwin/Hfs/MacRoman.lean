import Darwin.Hfs.UtfRoundTrip

/-! # MacRoman names in UTF-8

The tables between MacRoman and decomposed Unicode, the two conversions over them, and the
conversions of a name to UTF-8 and back.
-/
namespace Darwin.Hfs
open Darwin.Lib List

inductive TextErr where
  | noErr
  | kTECUsedFallbacksStatus
  | kTECOutputBufferFullStatus
  | kTECPartialCharErr
  | kTextMalformedInputErr
  deriving DecidableEq, Repr

/-- A Pascal string: its length byte is the length of the list. -/
@[ext] structure Str31 where
  chars : List UTF8
  length_le : chars.length ≤ 31

def Str31.empty : Str31 := ⟨[], Nat.zero_le _⟩

/-! ## From MacRoman to Unicode -/

def gHiBitBaseUnicode : List ℕ := [
  0x0041, 0x0041, 0x0043, 0x0045, 0x004E, 0x004F, 0x0055, 0x0061,
  0x0061, 0x0061, 0x0061, 0x0061, 0x0061, 0x0063, 0x0065, 0x0065,
  0x0065, 0x0065, 0x0069, 0x0069, 0x0069, 0x0069, 0x006E, 0x006F,
  0x006F, 0x006F, 0x006F, 0x006F, 0x0075, 0x0075, 0x0075, 0x0075,
  0x2020, 0x00B0, 0x00A2, 0x00A3, 0x00A7, 0x2022, 0x00B6, 0x00DF,
  0x00AE, 0x00A9, 0x2122, 0x00B4, 0x00A8, 0x2260, 0x00C6, 0x00D8,
  0x221E, 0x00B1, 0x2264, 0x2265, 0x00A5, 0x00B5, 0x2202, 0x2211,
  0x220F, 0x03C0, 0x222B, 0x00AA, 0x00BA, 0x03A9, 0x00E6, 0x00F8,
  0x00BF, 0x00A1, 0x00AC, 0x221A, 0x0192, 0x2248, 0x2206, 0x00AB,
  0x00BB, 0x2026, 0x00A0, 0x0041, 0x0041, 0x004F, 0x0152, 0x0153,
  0x2013, 0x2014, 0x201C, 0x201D, 0x2018, 0x2019, 0x00F7, 0x25CA,
  0x0079, 0x0059, 0x2044, 0x00A4, 0x2039, 0x203A, 0xFB01, 0xFB02,
  0x2021, 0x00B7, 0x201A, 0x201E, 0x2030, 0x0041, 0x0045, 0x0041,
  0x0045, 0x0045, 0x0049, 0x0049, 0x0049, 0x0049, 0x004F, 0x004F,
  0xF8FF, 0x004F, 0x0055, 0x0055, 0x0055, 0x0131, 0x02C6, 0x02DC,
  0x00AF, 0x02D8, 0x02D9, 0x02DA, 0x00B8, 0x02DD, 0x02DB, 0x02C7]

def gHiBitCombUnicode : List ℕ := [
  0x0308, 0x030A, 0x0327, 0x0301, 0x0303, 0x0308, 0x0308, 0x0301,
  0x0300, 0x0302, 0x0308, 0x0303, 0x030A, 0x0327, 0x0301, 0x0300,
  0x0302, 0x0308, 0x0301, 0x0300, 0x0302, 0x0308, 0x0303, 0x0301,
  0x0300, 0x0302, 0x0308, 0x0303, 0x0301, 0x0300, 0x0302, 0x0308,
  0x0000, 0x0000, 0x0000, 0x0000, 0x0000, 0x0000, 0x0000, 0x0000,
  0x0000, 0x0000, 0x0000, 0x0000, 0x0000, 0x0000, 0x0000, 0x0000,
  0x0000, 0x0000, 0x0000, 0x0000, 0x0000, 0x0000, 0x0000, 0x0000,
  0x0000, 0x0000, 0x0000, 0x0000, 0x0000, 0x0000, 0x0000, 0x0000,
  0x0000, 0x0000, 0x0000, 0x0000, 0x0000, 0x0000, 0x0000, 0x0000,
  0x0000, 0x0000, 0x0000, 0x0300, 0x0303, 0x0303, 0x0000, 0x0000,
  0x0000, 0x0000, 0x0000, 0x0000, 0x0000, 0x0000, 0x0000, 0x0000,
  0x0308, 0x0308, 0x0000, 0x0000, 0x0000, 0x0000, 0x0000, 0x0000,
  0x0000, 0x0000, 0x0000, 0x0000, 0x0000, 0x0302, 0x0302, 0x0301,
  0x0308, 0x0300, 0x0301, 0x0302, 0x0308, 0x0300, 0x0301, 0x0302,
  0x0000, 0x0300, 0x0301, 0x0302, 0x0300, 0x0000, 0x0000, 0x0000,
  0x0000, 0x0000, 0x0000, 0x0000, 0x0000, 0x0000, 0x0000, 0x0000]

/-- The units of one character: a letter of the upper half has a mark behind it. -/
def macRomanChar (c : ℕ) : List ℕ :=
  if c < 0x80 then [c]
  else
    let uc := gHiBitBaseUnicode.getD (c - 0x80) 0
    if uc ≤ 0x7A ∧ 0x41 ≤ uc then [uc, gHiBitCombUnicode.getD (c - 0x80) 0]
    else [uc]

def macRomanToUnicode (pascalString : Str31) : List UTF16 :=
  pascalString.chars.flatMap (fun c => (macRomanChar c.toNat).map (BitVec.ofNat 16))

/-! ## From Unicode to MacRoman -/

def gLatin1Table : List ℕ := [
  0xCA, 0xC1, 0xA2, 0xA3, 0xDB, 0xB4, 0x3F, 0xA4, 0xAC, 0xA9, 0xBB, 0xC7, 0xC2, 0x3F, 0xA8, 0xF8,
  0xA1, 0xB1, 0x3F, 0x3F, 0xAB, 0xB5, 0xA6, 0xE1, 0xFC, 0x3F, 0xBC, 0xC8, 0x3F, 0x3F, 0x3F, 0xC0,
  0x3F, 0x3F, 0x3F, 0x3F, 0x3F, 0x3F, 0xAE, 0x3F, 0x3F, 0x3F, 0x3F, 0x3F, 0x3F, 0x3F, 0x3F, 0x3F,
  0x3F, 0x3F, 0x3F, 0x3F, 0x3F, 0x3F, 0x3F, 0x3F, 0xAF, 0x3F, 0x3F, 0x3F, 0x3F, 0x3F, 0x3F, 0xA7,
  0x3F, 0x3F, 0x3F, 0x3F, 0x3F, 0x3F, 0xBE, 0x3F, 0x3F, 0x3F, 0x3F, 0x3F, 0x3F, 0x3F, 0x3F, 0x3F,
  0x3F, 0x3F, 0x3F, 0x3F, 0x3F, 0x3F, 0x3F, 0xD6, 0xBF, 0x3F, 0x3F, 0x3F, 0x3F, 0x3F, 0x3F, 0x3F]

def gSpaceModsTable : List ℕ := [
  0x3F, 0x3F, 0x3F, 0x3F, 0x3F, 0x3F, 0xF6, 0xFF, 0x3F, 0x3F, 0x3F, 0x3F, 0x3F, 0x3F, 0x3F, 0x3F,
  0x3F, 0x3F, 0x3F, 0x3F, 0x3F, 0x3F, 0x3F, 0x3F, 0xF9, 0xFA, 0xFB, 0xFE, 0xF7, 0xFD, 0x3F, 0x3F]

def gPunctTable : List ℕ := [
  0x3F, 0x3F, 0x3F, 0x3F, 0x3F, 0x3F, 0x3F, 0x3F, 0x3F, 0x3F, 0x3F, 0x3F, 0x3F, 0x3F, 0x3F, 0x3F,
  0x3F, 0x3F, 0x3F, 0xD0, 0xD1, 0x3F, 0x3F, 0x3F, 0xD4, 0xD5, 0xE2, 0x3F, 0xD2, 0xD3, 0xE3, 0x3F,
  0xA0, 0xE0, 0xA5, 0x3F, 0x3F, 0x3F, 0xC9, 0x3F, 0x3F, 0x3F, 0x3F, 0x3F, 0x3F, 0x3F, 0x3F, 0x3F,
  0xE4, 0x3F, 0x3F, 0x3F, 0x3F, 0x3F, 0x3F, 0x3F, 0x3F, 0xDC, 0xDD, 0x3F, 0x3F, 0x3F, 0x3F, 0x3F,
  0x3F, 0x3F, 0x3F, 0x3F, 0xDA, 0x3F, 0x3F, 0x3F, 0x3F, 0x3F, 0x3F, 0x3F, 0x3F, 0x3F, 0x3F, 0x3F]

def gMathTable : List ℕ := [
  0x3F, 0x3F, 0xB6, 0x3F, 0x3F, 0x3F, 0xC6, 0x3F, 0x3F, 0x3F, 0x3F, 0x3F, 0x3F, 0x3F, 0x3F, 0xB8,
  0x3F, 0xB7, 0x3F, 0x3F, 0x3F, 0x3F, 0x3F, 0x3F, 0x3F, 0x3F, 0xC3, 0x3F, 0x3F, 0x3F, 0xB0, 0x3F,
  0x3F, 0x3F, 0x3F, 0x3F, 0x3F, 0x3F, 0x3F, 0x3F, 0x3F, 0x3F, 0x3F, 0xBA, 0x3F, 0x3F, 0x3F, 0x3F,
  0x3F, 0x3F, 0x3F, 0x3F, 0x3F, 0x3F, 0x3F, 0x3F, 0x3F, 0x3F, 0x3F, 0x3F, 0x3F, 0x3F, 0x3F, 0x3F,
  0x3F, 0x3F, 0x3F, 0x3F, 0x3F, 0x3F, 0x3F, 0x3F, 0xC5, 0x3F, 0x3F, 0x3F, 0x3F, 0x3F, 0x3F, 0x3F,
  0x3F, 0x3F, 0x3F, 0x3F, 0x3F, 0x3F, 0x3F, 0x3F, 0x3F, 0x3F, 0x3F, 0x3F, 0x3F, 0x3F, 0x3F, 0x3F,
  0xAD, 0x3F, 0x3F, 0x3F, 0xB2, 0xB3, 0x3F, 0x3F, 0x3F, 0x3F, 0x3F, 0x3F, 0x3F, 0x3F, 0x3F, 0x3F]

/-- For each letter from 0x40 on the place of its row, then the rows for the marks 0x0300 to 0x030A. -/
def gReverseCombTable : List ℕ := [
  0xDA, 0x40, 0xDA, 0xDA, 0xDA, 0x56, 0xDA, 0xDA, 0xDA, 0x6C, 0xDA, 0xDA, 0xDA, 0xDA, 0x82, 0x98,
  0xDA, 0xDA, 0xDA, 0xDA, 0xDA, 0xAE, 0xDA, 0xDA, 0xDA, 0xC4, 0xDA, 0xDA, 0xDA, 0xDA, 0xDA, 0xDA,
  0xDA, 0x4B, 0xDA, 0xDA, 0xDA, 0x61, 0xDA, 0xDA, 0xDA, 0x77, 0xDA, 0xDA, 0xDA, 0xDA, 0x8D, 0xA3,
  0xDA, 0xDA, 0xDA, 0xDA, 0xDA, 0xB9, 0xDA, 0xDA, 0xDA, 0xCF, 0xDA, 0xDA, 0xDA, 0xDA, 0xDA, 0xDA,
  0xCB, 0xE7, 0xE5, 0xCC, 0x3F, 0x3F, 0x3F, 0x3F, 0x80, 0x3F, 0x81,
  0x88, 0x87, 0x89, 0x8B, 0x3F, 0x3F, 0x3F, 0x3F, 0x8A, 0x3F, 0x8C,
  0xE9, 0x83, 0xE6, 0x3F, 0x3F, 0x3F, 0x3F, 0x3F, 0xE8, 0x3F, 0x3F,
  0x8F, 0x8E, 0x90, 0x3F, 0x3F, 0x3F, 0x3F, 0x3F, 0x91, 0x3F, 0x3F,
  0xED, 0xEA, 0xEB, 0x3F, 0x3F, 0x3F, 0x3F, 0x3F, 0xEC, 0x3F, 0x3F,
  0x93, 0x92, 0x94, 0x3F, 0x3F, 0x3F, 0x3F, 0x3F, 0x95, 0x3F, 0x3F,
  0x3F, 0x3F, 0x3F, 0x84, 0x3F, 0x3F, 0x3F, 0x3F, 0x3F, 0x3F, 0x3F,
  0x3F, 0x3F, 0x3F, 0x96, 0x3F, 0x3F, 0x3F, 0x3F, 0x3F, 0x3F, 0x3F,
  0xF1, 0xEE, 0xEF, 0xCD, 0x3F, 0x3F, 0x3F, 0x3F, 0x85, 0x3F, 0x3F,
  0x98, 0x97, 0x99, 0x9B, 0x3F, 0x3F, 0x3F, 0x3F, 0x9A, 0x3F, 0x3F,
  0xF4, 0xF2, 0xF3, 0x3F, 0x3F, 0x3F, 0x3F, 0x3F, 0x86, 0x3F, 0x3F,
  0x9D, 0x9C, 0x9E, 0x3F, 0x3F, 0x3F, 0x3F, 0x3F, 0x9F, 0x3F, 0x3F,
  0x3F, 0x3F, 0x3F, 0x3F, 0x3F, 0x3F, 0x3F, 0x3F, 0xD9, 0x3F, 0x3F,
  0x3F, 0x3F, 0x3F, 0x3F, 0x3F, 0x3F, 0x3F, 0x3F, 0xD8, 0x3F, 0x3F,
  0x3F, 0x3F, 0x3F, 0x3F, 0x3F, 0x3F, 0x3F, 0x3F, 0x3F, 0x3F, 0x3F]

/-- The switch of `UnicodeToMacRoman`: the character `mc`, and whether it takes the place of
the base character in front of it. -/
def mapUnicode (prevChar c : ℕ) : ℕ × Bool :=
  let lsb := c &&& 0xFF
  match c &&& 0xFF00 with
  | 0x0000 => (if 0xA0 ≤ lsb then gLatin1Table.getD (lsb - 0xA0) 0 else 0x3F, false)
  | 0x0200 => (if 0xC0 ≤ lsb ∧ lsb ≤ 0xDF then gSpaceModsTable.getD (lsb - 0xC0) 0 else 0x3F, false)
  | 0x2000 => (if lsb ≤ 0x4F then gPunctTable.getD lsb 0 else 0x3F, false)
  | 0x2200 => (if lsb ≤ 0x6F then gMathTable.getD lsb 0 else 0x3F, false)
  | 0x0300 =>
    if c ≤ 0x030A then
      if 0x41 ≤ prevChar ∧ prevChar < 0x7A then
        (gReverseCombTable.getD (gReverseCombTable.getD (prevChar - 0x40) 0 + lsb) 0, true)
      else (0x3F, false)
    else
      match c with
      | 0x0327 =>
        if prevChar = 0x43 then (0x82, true)
        else if prevChar = 0x63 then (0x8D, true)
        else (0x3F, false)
      | 0x03A9 => (0xBD, false)
      | 0x03C0 => (0xB9, false)
      | _ => (0x3F, false)
  | _ =>
    match c with
    | 0x0131 => (0xF5, false)
    | 0x0152 => (0xCE, false)
    | 0x0153 => (0xCF, false)
    | 0x0192 => (0xC4, false)
    | 0x2122 => (0xAA, false)
    | 0x25CA => (0xD7, false)
    | 0xF8FF => (0xF0, false)
    | 0xFB01 => (0xDE, false)
    | 0xFB02 => (0xDF, false)
    | _ => (0x3F, false)

/-- Back up over the last character. -/
def Str31.back (s : Str31) : Str31 :=
  ⟨s.chars.dropLast, s.chars.length_dropLast ▸ (Nat.sub_le _ _).trans s.length_le⟩

def Str31.push (s : Str31) (c : ℕ) (h : s.chars.length < 31) : Str31 :=
  ⟨s.chars ++ [BitVec.ofNat 8 c], by rw [length_append]; exact h⟩

/-- The loop of `UnicodeToMacRoman`, over what has been written so far. -/
def unicodeToMacRomanLoop : List UTF16 → ℕ → Str31 → TextErr → TextErr × Str31
  | [], _, written, result => (result, written)
  | u :: source, prevChar, written, result =>
    if u.toNat &&& 0xFF80 ≠ 0 then
      let (mc, combines) := mapUnicode prevChar u.toNat
      let written := if combines then written.back else written
      if h : written.chars.length < 31 then
        unicodeToMacRomanLoop source 0 (written.push mc h)
          (if mc = 0x3F then .kTECUsedFallbacksStatus else result)
      else (.kTECOutputBufferFullStatus, written)
    else if h : written.chars.length < 31 then
      unicodeToMacRomanLoop source (u.toNat &&& 0xFF) (written.push (u.toNat &&& 0xFF) h) result
    else (.kTECOutputBufferFullStatus, written)

def unicodeToMacRoman (unicodeString : List UTF16) : TextErr × Str31 :=
  unicodeToMacRomanLoop unicodeString 0 .empty .noErr

/-! ## The conversions of a name -/

/-- What has been written to the destination, and its length without the null behind it. -/
structure UTF8Name where
  result : TextErr
  actualDstLen : ℕ
  dstStr : List UTF8

def convertUnicodeToUTF8 (srcStr : List UTF16) (maxDstLen : ℕ) : UTF8Name :=
  let conversion := convertUTF16toUTF8 srcStr maxDstLen
  let outputLength := conversion.target.length
  match conversion.result with
  | .targetExhausted => ⟨.kTECOutputBufferFullStatus, outputLength, conversion.target⟩
  | .sourceExhausted => ⟨.kTECPartialCharErr, outputLength, conversion.target⟩
  | .ok =>
    if maxDstLen ≤ outputLength then ⟨.kTECOutputBufferFullStatus, outputLength, conversion.target⟩
    else ⟨.noErr, outputLength, conversion.target ++ [0]⟩

def convertUTF8ToUnicode (memory : ℕ → UTF8) (srcLen srcStr maxDstLen : ℕ) : TextErr × List UTF16 :=
  let conversion := convertUTF8toUTF16 memory srcStr (srcStr + srcLen) (maxDstLen / 2)
  match conversion.result with
  | .targetExhausted => (.kTECOutputBufferFullStatus, conversion.target)
  | .sourceExhausted => (.kTextMalformedInputErr, conversion.target)
  | .ok => (.noErr, conversion.target)

/-- The size of `uniStr`, 64 characters. -/
def uniStrSize : ℕ := 128

/-- The destination is written only when the first conversion succeeds. -/
def convertUTF8ToMacRoman (memory : ℕ → UTF8) (srcLen srcStr : ℕ) (dstStr : Str31) : TextErr × Str31 :=
  match convertUTF8ToUnicode memory srcLen srcStr uniStrSize with
  | (.noErr, uniStr) => unicodeToMacRoman uniStr
  | (result, _) => (result, dstStr)

def convertMacRomanToUTF8 (srcStr : Str31) (maxDstLen : ℕ) : UTF8Name :=
  convertUnicodeToUTF8 (macRomanToUnicode srcStr) maxDstLen

/-! ## One character -/

theorem mapUnicode_prev {c : ℕ} (h : c &&& 0xFF00 ≠ 0x0300 ∨ 0x0328 ≤ c) (prevChar : ℕ) :
    mapUnicode prevChar c = mapUnicode 0 c := by
  unfold mapUnicode
  dsimp only
  split
  case h_5 h3 =>
    have hbig : 0x0328 ≤ c := h.resolve_left (absurd h3)
    have hmark : ¬ c ≤ 0x030A := by omega
    rw [if_neg hmark, if_neg hmark]
    split
    · omega
    · rfl
    · rfl
    · rfl
  all_goals rfl

/-- How the units of a character are read back as the character. -/
inductive ReadsBack (c : ℕ) : List ℕ → Prop where
  | ascii : c < 0x80 → ReadsBack c [c]
  | single {u : ℕ} : 0x80 ≤ c → u < 0x10000 → u &&& 0xFF80 ≠ 0 → (∀ prevChar, mapUnicode prevChar u = (c, false)) →
      ReadsBack c [u]
  | letter {base mark : ℕ} : 0x80 ≤ c → base < 0x80 → mark < 0x10000 → mark &&& 0xFF80 ≠ 0 →
      mapUnicode base mark = (c, true) → ReadsBack c [base, mark]

theorem macRomanChar_readsBack {c : ℕ} (hc : c < 256) : ReadsBack c (macRomanChar c) := by
  have hletter : ∀ i < 0x80, gHiBitBaseUnicode.getD i 0 ≤ 0x7A ∧ 0x41 ≤ gHiBitBaseUnicode.getD i 0 →
      gHiBitCombUnicode.getD i 0 < 0x10000 ∧ gHiBitCombUnicode.getD i 0 &&& 0xFF80 ≠ 0 ∧
        mapUnicode (gHiBitBaseUnicode.getD i 0) (gHiBitCombUnicode.getD i 0) = (i + 0x80, true) := by
    decide +kernel
  have hsingle : ∀ i < 0x80, ¬ (gHiBitBaseUnicode.getD i 0 ≤ 0x7A ∧ 0x41 ≤ gHiBitBaseUnicode.getD i 0) →
      gHiBitBaseUnicode.getD i 0 < 0x10000 ∧ gHiBitBaseUnicode.getD i 0 &&& 0xFF80 ≠ 0 ∧
        (gHiBitBaseUnicode.getD i 0 &&& 0xFF00 ≠ 0x0300 ∨ 0x0328 ≤ gHiBitBaseUnicode.getD i 0) ∧
        mapUnicode 0 (gHiBitBaseUnicode.getD i 0) = (i + 0x80, false) := by
    decide +kernel
  by_cases hascii : c < 0x80
  · rw [macRomanChar, if_pos hascii]
    exact .ascii hascii
  · obtain ⟨i, rfl⟩ : ∃ i, c = i + 0x80 := ⟨c - 0x80, by omega⟩
    rw [macRomanChar, if_neg hascii, Nat.add_sub_cancel]
    dsimp only
    by_cases halpha : gHiBitBaseUnicode.getD i 0 ≤ 0x7A ∧ 0x41 ≤ gHiBitBaseUnicode.getD i 0
    · obtain ⟨hlt, hmark, hmap⟩ := hletter i (by omega) halpha
      rw [if_pos halpha]
      exact .letter (by omega) (by omega) hlt hmark hmap
    · obtain ⟨hlt, hmask, hnot, hmap⟩ := hsingle i (by omega) halpha
      rw [if_neg halpha]
      exact .single (by omega) hlt hmask fun prevChar => (mapUnicode_prev hnot prevChar).trans hmap

theorem macRomanChar_kept {c : ℕ} (hc : c < 256) (hcolon : c ≠ colon) :
    ∀ u ∈ macRomanChar c, Kept (BitVec.ofNat 16 u) := by
  have hall : ∀ c < 256, c ≠ colon → ∀ u ∈ macRomanChar c,
      u % 2 ^ 16 ≠ colon ∧ (decomposer (u % 2 ^ 16)).2 = 0 := by
    decide +kernel
  intro u hu
  obtain ⟨hne, hsame⟩ := hall c hc hcolon u hu
  rw [← BitVec.toNat_ofNat] at hne hsame
  exact ⟨hne, not_not.mpr hsame⟩

/-! ## The whole name -/

@[simp] theorem Str31.push_chars (s : Str31) (c : ℕ) (h : s.chars.length < 31) :
    (s.push c h).chars = s.chars ++ [BitVec.ofNat 8 c] := rfl

theorem Str31.push_back (s : Str31) (c : ℕ) (h : s.chars.length < 31) : (s.push c h).back = s :=
  Str31.ext (by simp [Str31.back])

section loop
variable {source : List UTF16} {prevChar c : ℕ} {written : Str31} {result : TextErr}

theorem loop_ascii (hc : c < 0x80) (h : written.chars.length < 31) :
    unicodeToMacRomanLoop (BitVec.ofNat 16 c :: source) prevChar written result =
      unicodeToMacRomanLoop source c (written.push c h) result := by
  have hall : ∀ c < 0x80, c % 2 ^ 16 &&& 0xFF80 = 0 ∧ c % 2 ^ 16 &&& 0xFF = c := by decide +kernel
  obtain ⟨hmask, hlsb⟩ := hall c hc
  rw [unicodeToMacRomanLoop, BitVec.toNat_ofNat, if_neg (not_not.mpr hmask), dif_pos h]
  simp only [hlsb]

theorem loop_map {u : ℕ} {combines : Bool} (hu : u < 0x10000) (hmask : u &&& 0xFF80 ≠ 0)
    (hmap : mapUnicode prevChar u = (c, combines)) (hc : c ≠ 0x3F)
    (h : (if combines then written.back else written).chars.length < 31) :
    unicodeToMacRomanLoop (BitVec.ofNat 16 u :: source) prevChar written result =
      unicodeToMacRomanLoop source 0 ((if combines then written.back else written).push c h) result := by
  have hsame : (BitVec.ofNat 16 u).toNat = u := by rw [BitVec.toNat_ofNat, Nat.mod_eq_of_lt hu]
  rw [unicodeToMacRomanLoop, hsame, if_pos hmask, hmap]
  dsimp only
  rw [dif_pos h, if_neg hc]

variable (source prevChar result) in
theorem loop_readsBack {units : List ℕ} (hback : ReadsBack c units) (h : written.chars.length < 31) :
    ∃ prevChar', unicodeToMacRomanLoop (units.map (BitVec.ofNat 16) ++ source) prevChar written result =
      unicodeToMacRomanLoop source prevChar' (written.push c h) result := by
  cases hback with
  | ascii hascii => exact ⟨c, loop_ascii hascii h⟩
  | single hc hu hmask hmap => exact ⟨0, loop_map hu hmask (hmap prevChar) (by omega) h⟩
  | @letter base mark hc hbase hmark hmask hmap =>
    have hpopped : (if true = true then (written.push base h).back else written.push base h) = written := by
      rw [if_pos rfl, Str31.push_back]
    refine ⟨0, ?_⟩
    rw [map_cons, map_cons, map_nil, cons_append, cons_append, nil_append,
      loop_ascii hbase h, loop_map hmark hmask hmap (by omega) (by rw [hpopped]; exact h)]
    congr 1
    exact Str31.ext (by rw [Str31.push_chars, Str31.push_chars, hpopped])

theorem loop_name (chars : List UTF8) : ∀ (prevChar : ℕ) (written name : Str31),
    name.chars = written.chars ++ chars →
      unicodeToMacRomanLoop (chars.flatMap fun c => (macRomanChar c.toNat).map (BitVec.ofNat 16)) prevChar written result =
        (result, name) := by
  induction chars with
  | nil =>
    intro prevChar written name hname
    rw [flatMap_nil, unicodeToMacRomanLoop, Str31.ext (hname.trans (append_nil _))]
  | cons c chars ih =>
    intro prevChar written name hname
    have hlt : written.chars.length < 31 := by
      have hle := name.length_le
      rw [hname, length_append, length_cons] at hle
      omega
    obtain ⟨prevChar', hloop⟩ := loop_readsBack
      (chars.flatMap fun c => (macRomanChar c.toNat).map (BitVec.ofNat 16)) prevChar result
      (macRomanChar_readsBack c.isLt) hlt
    rw [flatMap_cons, hloop]
    refine ih prevChar' (written.push c.toNat hlt) name ?_
    rw [hname, Str31.push_chars, append_assoc, BitVec.ofNat_toNat, BitVec.setWidth_eq, singleton_append]

end loop

theorem unicodeToMacRoman_macRomanToUnicode (name : Str31) :
    unicodeToMacRoman (macRomanToUnicode name) = (.noErr, name) :=
  loop_name name.chars 0 .empty name (nil_append _).symm

theorem macRomanToUnicode_length (name : Str31) :
    (macRomanToUnicode name).length ≤ 2 * name.chars.length := by
  have hchar : ∀ c, (macRomanChar c).length ≤ 2 := by
    intro c
    unfold macRomanChar
    dsimp only
    split_ifs <;> simp
  unfold macRomanToUnicode
  induction name.chars with
  | nil => exact Nat.le_refl _
  | cons c chars ih =>
    have hc := hchar c.toNat
    rw [flatMap_cons, length_append, length_map, length_cons]
    omega

/-- A MacRoman name without colons, written as UTF-8 in a buffer with room for it and for the
null behind it, is read from there as the same name. -/
theorem macRoman_roundTrip (name : Str31) (hcolon : ∀ c ∈ name.chars, c.toNat ≠ colon) :
    ∃ bytes : List UTF8, bytes.length ≤ 6 * name.chars.length ∧ ∀ maxDstLen, bytes.length < maxDstLen →
      convertMacRomanToUTF8 name maxDstLen = ⟨.noErr, bytes.length, bytes ++ [0]⟩ ∧
        ∀ memory start dstStr, Holds memory start (bytes ++ [0]) →
          convertUTF8ToMacRoman memory bytes.length start dstStr = (.noErr, name) := by
  have hkept : ∀ u ∈ macRomanToUnicode name, Kept u := by
    intro u hu
    obtain ⟨c, hc, hu⟩ := mem_flatMap.mp hu
    obtain ⟨v, hv, rfl⟩ := mem_map.mp hu
    exact macRomanChar_kept c.isLt (hcolon c hc) v hv
  have hlength := macRomanToUnicode_length name
  have hshort := name.length_le
  obtain ⟨bytes, hbytes, hencode, hdecode⟩ := utf16_comesBack (macRomanToUnicode name) hkept
  refine ⟨bytes, by omega, fun maxDstLen hroom => ⟨?_, fun memory start dstStr hold => ?_⟩⟩
  · have hfits : ¬ maxDstLen ≤ bytes.length := Nat.not_le.mpr hroom
    rw [convertMacRomanToUTF8, convertUnicodeToUTF8, hencode maxDstLen (Nat.le_of_lt hroom)]
    simp only [hfits, if_false]
  · have hread := hdecode memory start (uniStrSize / 2) hold.append.1 (by unfold uniStrSize; omega)
    have hunicode : convertUTF8ToUnicode memory bytes.length start uniStrSize = (.noErr, macRomanToUnicode name) := by
      rw [convertUTF8ToUnicode, hread]
    rw [convertUTF8ToMacRoman, hunicode]
    exact unicodeToMacRoman_macRomanToUnicode name

/-- An accented letter between plain ones, and a slash. -/
def accentedName : Str31 := ⟨[0x43#8, 0x61#8, 0x66#8, 0x8E#8, 0x73#8, 0x2F#8], by decide⟩

theorem macRoman_roundTrip_accentedName :
    ∃ bytes : List UTF8, bytes.length ≤ 6 * accentedName.chars.length ∧ ∀ maxDstLen, bytes.length < maxDstLen →
      convertMacRomanToUTF8 accentedName maxDstLen = ⟨.noErr, bytes.length, bytes ++ [0]⟩ ∧
        ∀ memory start dstStr, Holds memory start (bytes ++ [0]) →
          convertUTF8ToMacRoman memory bytes.length start dstStr = (.noErr, accentedName) :=
  macRoman_roundTrip accentedName (by decide)

end Darwin.Hfs
