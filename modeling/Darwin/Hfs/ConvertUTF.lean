import Darwin.Lib.BitWords

/-! # Conversion between UTF-16 and UTF-8

The two loops of the converter and the decomposition of characters. The encoder reads its
source only before `sourceEnd`, so the source is a list; the decoder reads memory.
-/
namespace Darwin.Hfs
open Darwin.Lib

abbrev UTF16 := BitVec 16
abbrev UTF8 := BitVec 8

def kReplacementCharacter : ℕ := 0xFFFD
def kMaximumUCS2 : ℕ := 0xFFFF
def kMaximumUTF16 : ℕ := 0x10FFFF
def kMaximumUCS4 : ℕ := 0x7FFFFFFF

def slash : ℕ := 0x2F
def colon : ℕ := 0x3A

inductive ConversionResult where
  | ok
  | sourceExhausted
  | targetExhausted
  deriving DecidableEq, Repr

/-- What a conversion returns: the result, where the source pointer is then, and what has been
written to the target. -/
structure Conversion (Source Unit : Type) where
  result : ConversionResult
  source : Source
  target : List Unit
  deriving DecidableEq, Repr

/-- The conversion that goes on after these units have been written. -/
def Conversion.after {Source Unit : Type} (units : List Unit) (r : Conversion Source Unit) :
    Conversion Source Unit :=
  { r with target := units ++ r.target }

/-! ## From UTF-16 to UTF-8 -/

def highSurrogate (ch : ℕ) : Bool := 0xD800 ≤ ch ∧ ch ≤ 0xDBFF

def lowSurrogate (ch : ℕ) : Bool := 0xDC00 ≤ ch ∧ ch ≤ 0xDFFF

/-- The character at the start of the source, and the source behind it. -/
def readUTF16 (ch : UTF16) (source : List UTF16) : ℕ × List UTF16 :=
  if ch.toNat = slash then (colon, source)
  else
    match source with
    | [] => (ch.toNat, [])
    | ch2 :: rest =>
      if highSurrogate ch.toNat ∧ lowSurrogate ch2.toNat then
        (((ch.toNat - 0xD800) <<< 10) + (ch2.toNat - 0xDC00) + 0x10000, rest)
      else (ch.toNat, source)

/-- `bytesToWrite`, and the character that is written. -/
def bytesToWrite (ch : ℕ) : ℕ × ℕ :=
  if ch < 0x80 then (1, ch)
  else if ch < 0x800 then (2, ch)
  else if ch < 0x10000 then (3, ch)
  else if ch < 0x200000 then (4, ch)
  else if ch < 0x4000000 then (5, ch)
  else if ch ≤ kMaximumUCS4 then (6, ch)
  else (2, kReplacementCharacter)

def firstByteMark : List ℕ := [0x00, 0x00, 0xC0, 0xE0, 0xF0, 0xF8, 0xFC]

/-- The switch of the encoder, which goes backwards from the last byte to the first one. -/
def writeBytes (mark : ℕ) : ℕ → ℕ → List UTF8
  | 0, _ => []
  | 1, ch => [BitVec.ofNat 8 (ch ||| mark)]
  | n + 1, ch => writeBytes mark n (ch >>> 6) ++ [BitVec.ofNat 8 ((ch ||| 0x80) &&& 0xBF)]

/-- The loop of the encoder. Each turn takes a unit of the source, so that it ends within as
many turns as the source has units. When the target is exhausted the source pointer is behind
the character that was not written. -/
def encodeLoop : ℕ → List UTF16 → ℕ → Conversion (List UTF16) UTF8
  | 0, source, _ => ⟨.ok, source, []⟩
  | _ + 1, [], _ => ⟨.ok, [], []⟩
  | n + 1, ch :: source, room =>
    let (ch, source) := readUTF16 ch source
    let (bytes, ch) := bytesToWrite ch
    if room < bytes then ⟨.targetExhausted, source, []⟩
    else (encodeLoop n source (room - bytes)).after (writeBytes (firstByteMark.getD bytes 0) bytes ch)

def convertUTF16toUTF8 (source : List UTF16) (room : ℕ) : Conversion (List UTF16) UTF8 :=
  encodeLoop source.length source room

/-! ## Decomposition -/

def primaryChar : List ℕ := [
  0x41, 0x41, 0x41, 0x41, 0x41, 0x41, 0xC6, 0x43,
  0x45, 0x45, 0x45, 0x45, 0x49, 0x49, 0x49, 0x49,
  0xD0, 0x4E, 0x4F, 0x4F, 0x4F, 0x4F, 0x4F, 0xD7,
  0xD8, 0x55, 0x55, 0x55, 0x55, 0x59, 0xDE, 0xDF,
  0x61, 0x61, 0x61, 0x61, 0x61, 0x61, 0xE6, 0x63,
  0x65, 0x65, 0x65, 0x65, 0x69, 0x69, 0x69, 0x69,
  0xF0, 0x6E, 0x6F, 0x6F, 0x6F, 0x6F, 0x6F, 0xF7,
  0xF8, 0x75, 0x75, 0x75, 0x75, 0x79, 0xFE, 0x79]

def combiningChar : List ℕ := [
  0x00, 0x01, 0x02, 0x03, 0x08, 0x0A, 0xFF, 0x27,
  0x00, 0x01, 0x02, 0x08, 0x00, 0x01, 0x02, 0x08,
  0xFF, 0x03, 0x00, 0x01, 0x02, 0x03, 0x08, 0xFF,
  0xFF, 0x00, 0x01, 0x02, 0x08, 0x01, 0xFF, 0xFF,
  0x00, 0x01, 0x02, 0x03, 0x08, 0x0A, 0xFF, 0x27,
  0x00, 0x01, 0x02, 0x08, 0x00, 0x01, 0x02, 0x08,
  0xFF, 0x03, 0x00, 0x01, 0x02, 0x03, 0x08, 0xFF,
  0xFF, 0x00, 0x01, 0x02, 0x08, 0x01, 0xFF, 0x08]

def cjkDecompBitmap : List (BitVec 32) := [
  0x00000000#32, 0x00000000#32, 0x000AAAAA#32, 0xA540DB6C#32,
  0x00000802#32, 0x000AAAAA#32, 0xA540DB6C#32, 0x000009E2#32]

/-- `IS_DECOMPOSABLE`. -/
def isDecomposable (table : List (BitVec 32)) (unicodeVal : ℕ) : Bool :=
  (table.getD (unicodeVal / 32) 0).getLsbD (31 - unicodeVal % 32)

/-- The switch of `Decomposer` for the kana. -/
def decomposeKana (srcChar : ℕ) : ℕ × ℕ :=
  match srcChar with
  | 0x3071 => (0x306F, 0x309A)
  | 0x3074 => (0x3072, 0x309A)
  | 0x3077 => (0x3075, 0x309A)
  | 0x307A => (0x3078, 0x309A)
  | 0x307D => (0x307B, 0x309A)
  | 0x3094 => (0x3046, 0x3099)
  | 0x30D1 => (0x30CF, 0x309A)
  | 0x30D4 => (0x30D2, 0x309A)
  | 0x30D7 => (0x30D5, 0x309A)
  | 0x30DA => (0x30D8, 0x309A)
  | 0x30DD => (0x30DB, 0x309A)
  | 0x30F4 => (0x30A6, 0x3099)
  | 0x30F7 => (0x30EF, 0x3099)
  | 0x30F8 => (0x30F0, 0x3099)
  | 0x30F9 => (0x30F1, 0x3099)
  | 0x30FA => (0x30F2, 0x3099)
  | srcChar => (srcChar - 1, 0x3099)

/-- The character and the one that combines with it, or zero. -/
def decomposer (srcChar : ℕ) : ℕ × ℕ :=
  if srcChar ≤ 0x00FF ∧ 0x00C0 ≤ srcChar then
    let dstChar := primaryChar.getD (srcChar - 0x00C0) 0
    if dstChar ≤ 0x7A then (dstChar, 0x0300 + combiningChar.getD (srcChar - 0x00C0) 0)
    else (dstChar, 0)
  else if 0x3000 < srcChar ∧ srcChar < 0x3100 ∧ isDecomposable cjkDecompBitmap (srcChar - 0x3000) then
    decomposeKana srcChar
  else (srcChar, 0)

/-! ## From UTF-8 to UTF-16 -/

def offsetsFromUTF8 : List ℕ :=
  [0x00000000, 0x00003080, 0x000E2080, 0x03C82080, 0xFA082080, 0x82082080]

/-- The table `bytesFromUTF8`: six rows of 32 bytes with 0, one with 1 and one with the rest. -/
def bytesFromUTF8 (b : UTF8) : ℕ :=
  if b.toNat < 0xC0 then 0
  else if b.toNat < 0xE0 then 1
  else if b.toNat < 0xF0 then 2
  else if b.toNat < 0xF8 then 3
  else if b.toNat < 0xFC then 4
  else 5

/-- The switch of the decoder: the bytes from `source` on, this many more than one. -/
def readBytes (memory : ℕ → UTF8) : ℕ → ℕ → ℕ → ℕ
  | 0, source, ch => u32 (ch + (memory source).toNat)
  | n + 1, source, ch => readBytes memory n (source + 1) (u32 (u32 (ch + (memory source).toNat) <<< 6))

/-- The units that a character is written as; in the end there is `room` for so many. The result
says whether the target is exhausted. -/
def writeUnits (ch room : ℕ) : ConversionResult × List UTF16 :=
  if room = 0 then (.targetExhausted, [])
  else if ch ≤ kMaximumUCS2 then
    let (dstChar, combine) := decomposer (if ch = colon then slash else ch)
    if combine = 0 then (.ok, [BitVec.ofNat 16 dstChar])
    else if room = 1 then (.targetExhausted, [BitVec.ofNat 16 dstChar])
    else (.ok, [BitVec.ofNat 16 dstChar, BitVec.ofNat 16 combine])
  else if kMaximumUTF16 < ch then (.ok, [BitVec.ofNat 16 kReplacementCharacter])
  else if room = 1 then (.targetExhausted, [])
  else (.ok, [BitVec.ofNat 16 (((ch - 0x10000) >>> 10) + 0xD800),
    BitVec.ofNat 16 (((ch - 0x10000) &&& 0x3FF) + 0xDC00)])

/-- The loop of the decoder. Each turn moves the source pointer on. -/
def decodeLoop (memory : ℕ → UTF8) (sourceEnd : ℕ) : ℕ → ℕ → ℕ → Conversion ℕ UTF16
  | 0, source, _ => ⟨.ok, source, []⟩
  | n + 1, source, room =>
    if source < sourceEnd then
      let extraBytes := bytesFromUTF8 (memory source)
      if sourceEnd < source + extraBytes then ⟨.sourceExhausted, source, []⟩
      else
        let ch := u32Sub (readBytes memory extraBytes source 0) (offsetsFromUTF8.getD extraBytes 0)
        match writeUnits ch room with
        | (.ok, units) => (decodeLoop memory sourceEnd n (source + extraBytes + 1)
            (room - units.length)).after units
        | (result, units) => ⟨result, source + extraBytes + 1, units⟩
    else ⟨.ok, source, []⟩

def convertUTF8toUTF16 (memory : ℕ → UTF8) (source sourceEnd room : ℕ) : Conversion ℕ UTF16 :=
  decodeLoop memory sourceEnd (sourceEnd - source) source room

end Darwin.Hfs
