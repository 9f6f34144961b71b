import Darwin.Hfs.ConvertUTF
import Darwin.Lib.ThreeWay
import Mathlib.Data.List.Lex
import Mathlib.Data.Prod.Lex
import Mathlib.Tactic.SplitIfs

/-! # The comparison of names

`FastUnicodeCompare` folds the two strings while it walks them, and skips what folds to zero.
The catalog keeps its keys in the order that this gives to their names.
-/
namespace Darwin.Hfs
open Darwin.Lib List

/-- The lower case table: a word for each upper byte, zero or the index of its sub-table, and the
sub-tables of 256 words behind them. -/
structure LowerCaseTable where
  words : List UTF16
  upper : 256 ≤ words.length
  subTable : ∀ i : Fin 256, words.get (i.castLE upper) ≠ 0 →
    (words.get (i.castLE upper)).toNat + 256 ≤ words.length

variable (table : LowerCaseTable)

namespace LowerCaseTable

def upperByte (c : UTF16) : Fin 256 := ⟨c.toNat / 256, by omega⟩

/-- The word at the upper byte of a character. -/
def temp (c : UTF16) : UTF16 := table.words.get ((upperByte c).castLE table.upper)

theorem lower_lt {c : UTF16} (h : table.temp c ≠ 0) :
    (table.temp c).toNat + c.toNat % 256 < table.words.length := by
  have := table.subTable (upperByte c) h
  unfold temp
  omega

def fold (c : UTF16) : UTF16 :=
  if h : table.temp c ≠ 0 then table.words.get ⟨_, table.lower_lt h⟩ else c

/-- The order of a name: the values of its folded characters that are not ignorable. -/
def folded (str : List UTF16) : List ℕ := ((str.map table.fold).filter (· ≠ 0)).map BitVec.toNat

@[simp] theorem folded_nil : table.folded [] = [] := rfl

theorem folded_cons_ignorable {c : UTF16} (h : table.fold c = 0) (str : List UTF16) :
    table.folded (c :: str) = table.folded str := by
  unfold folded
  rw [map_cons, filter_cons_of_neg (by simp [h])]

theorem folded_cons_valid {c : UTF16} (h : table.fold c ≠ 0) (str : List UTF16) :
    table.folded (c :: str) = (table.fold c).toNat :: table.folded str := by
  unfold folded
  rw [map_cons, filter_cons_of_pos (by simpa using h), map_cons]

end LowerCaseTable

/-- The loop that finds the next character that is not ignorable, or zero, and the rest of the
string. -/
def nextValidChar (c : UTF16) : List UTF16 → UTF16 × List UTF16
  | [] => (c, [])
  | d :: str => if c = 0 then nextValidChar (table.fold d) str else (c, d :: str)

theorem nextValidChar_of_ne {c : UTF16} (h : c ≠ 0) (str : List UTF16) :
    nextValidChar table c str = (c, str) := by
  cases str with
  | nil => rfl
  | cons d str => exact if_neg h

theorem folded_next (str : List UTF16) :
    ((nextValidChar table 0 str).1 = 0 ∧ table.folded str = []) ∨
      (nextValidChar table 0 str).1 ≠ 0 ∧
        (nextValidChar table 0 str).2.length < str.length ∧
        table.folded str =
          (nextValidChar table 0 str).1.toNat :: table.folded (nextValidChar table 0 str).2 := by
  induction str with
  | nil => exact .inl ⟨rfl, rfl⟩
  | cons d str ih =>
    have hstep : nextValidChar table 0 (d :: str) = nextValidChar table (table.fold d) str := rfl
    rw [hstep]
    by_cases hd : table.fold d = 0
    · rw [hd, table.folded_cons_ignorable hd]
      rcases ih with ih | ⟨hc, hlen, heq⟩
      · exact .inl ih
      · exact .inr ⟨hc, hlen.trans (Nat.lt_succ_self _), heq⟩
    · rw [nextValidChar_of_ne table hd]
      exact .inr ⟨hd, Nat.lt_succ_self _, table.folded_cons_valid hd str⟩

theorem folded_of_end {str : List UTF16} (h : (nextValidChar table 0 str).1 = 0) :
    table.folded str = [] := by
  rcases folded_next table str with ⟨-, heq⟩ | ⟨hc, -⟩
  · exact heq
  · exact absurd h hc

theorem folded_of_valid {str : List UTF16} (h : (nextValidChar table 0 str).1 ≠ 0) :
    table.folded str =
      (nextValidChar table 0 str).1.toNat :: table.folded (nextValidChar table 0 str).2 := by
  rcases folded_next table str with ⟨h0, -⟩ | ⟨-, -, heq⟩
  · exact absurd h0 h
  · exact heq

theorem nextValidChar_length {str : List UTF16} (h : (nextValidChar table 0 str).1 ≠ 0) :
    (nextValidChar table 0 str).2.length < str.length := by
  rcases folded_next table str with ⟨h0, -⟩ | ⟨-, hlen, -⟩
  · exact absurd h0 h
  · exact hlen

def fastUnicodeCompare (str1 str2 : List UTF16) : ℤ :=
  let c1 := (nextValidChar table 0 str1).1
  let c2 := (nextValidChar table 0 str2).1
  if c1 ≠ c2 then
    if c1 < c2 then -1 else 1
  else if _h : c1 = 0 then 0
  else fastUnicodeCompare (nextValidChar table 0 str1).2 (nextValidChar table 0 str2).2
termination_by str1.length
decreasing_by exact nextValidChar_length table ‹_›

/-! ## The order on names -/

theorem folded_lt_of_next_lt {str1 str2 : List UTF16}
    (h : (nextValidChar table 0 str1).1 < (nextValidChar table 0 str2).1) :
    table.folded str1 < table.folded str2 := by
  have h2 : (nextValidChar table 0 str2).1 ≠ 0 := by
    intro h0
    rw [h0] at h
    exact absurd h (BitVec.not_lt_zero)
  rw [folded_of_valid table h2]
  by_cases h1 : (nextValidChar table 0 str1).1 = 0
  · rw [folded_of_end table h1]
    exact nil_lt_cons _ _
  · rw [folded_of_valid table h1]
    exact List.Lex.rel h

theorem fastUnicodeCompare_folded (str1 str2 : List UTF16) :
    (fastUnicodeCompare table str1 str2 = 0 ∧ table.folded str1 = table.folded str2) ∨
      (fastUnicodeCompare table str1 str2 = -1 ∧ table.folded str1 < table.folded str2) ∨
      (fastUnicodeCompare table str1 str2 = 1 ∧ table.folded str2 < table.folded str1) := by
  induction str1, str2 using fastUnicodeCompare.induct table with
  | case1 str1 str2 c1 c2 hne hlt =>
    rw [fastUnicodeCompare, if_pos hne, if_pos hlt]
    exact .inr (.inl ⟨rfl, folded_lt_of_next_lt table hlt⟩)
  | case2 str1 str2 c1 c2 hne hlt =>
    rw [fastUnicodeCompare, if_pos hne, if_neg hlt]
    have hgt : c2 < c1 := by
      have : c1.toNat ≠ c2.toNat := fun h => hne (BitVec.eq_of_toNat_eq h)
      rw [BitVec.lt_def] at hlt ⊢
      omega
    exact .inr (.inr ⟨rfl, folded_lt_of_next_lt table hgt⟩)
  | case3 str1 str2 c1 c2 heq h0 =>
    rw [fastUnicodeCompare, if_neg heq, dif_pos h0]
    have h2 : c2 = 0 := (not_not.mp heq) ▸ h0
    rw [folded_of_end table h0, folded_of_end table h2]
    exact .inl ⟨rfl, rfl⟩
  | case4 str1 str2 c1 c2 heq h0 ih =>
    rw [fastUnicodeCompare, if_neg heq, dif_neg h0]
    have h12 : c1 = c2 := not_not.mp heq
    have h2 : c2 ≠ 0 := h12 ▸ h0
    have hhead : (nextValidChar table 0 str1).1.toNat = (nextValidChar table 0 str2).1.toNat :=
      congrArg BitVec.toNat h12
    rw [folded_of_valid table h0, folded_of_valid table h2, hhead]
    -- both strings go on with the same character, so what follows it decides
    simpa [cons_lt_cons_iff] using ih

theorem fastUnicodeCompare_ordersBy : OrdersBy (fastUnicodeCompare table) table.folded where
  eq_iff a b := by
    rcases fastUnicodeCompare_folded table a b with ⟨hr, hk⟩ | ⟨hr, hk⟩ | ⟨hr, hk⟩
    · simp [hr, hk]
    · simp [hr, hk.ne]
    · simp [hr, hk.ne']
  lt_iff a b := by
    rcases fastUnicodeCompare_folded table a b with ⟨hr, hk⟩ | ⟨hr, hk⟩ | ⟨hr, hk⟩
    · simp [hr, hk]
    · simp [hr, hk]
    · simp [hr, hk.le]

theorem fastUnicodeCompare_mem (a b : List UTF16) :
    fastUnicodeCompare table a b = -1 ∨ fastUnicodeCompare table a b = 0 ∨
      fastUnicodeCompare table a b = 1 := by
  rcases fastUnicodeCompare_folded table a b with ⟨hr, -⟩ | ⟨hr, -⟩ | ⟨hr, -⟩
  · exact .inr (.inl hr)
  · exact .inl hr
  · exact .inr (.inr hr)

/-- The comparison is a total preorder, the lexicographic one of the folded names. -/
theorem fastUnicodeCompare_preorder (table : LowerCaseTable) :
    (∀ str1 str2,
      (fastUnicodeCompare table str1 str2 = 0 ↔ table.folded str1 = table.folded str2) ∧
      (fastUnicodeCompare table str1 str2 = -1 ↔ table.folded str1 < table.folded str2) ∧
      (fastUnicodeCompare table str1 str2 = 1 ↔ table.folded str2 < table.folded str1)) ∧
    (∀ str, fastUnicodeCompare table str str = 0) ∧
    (∀ str1 str2, fastUnicodeCompare table str2 str1 = - fastUnicodeCompare table str1 str2) ∧
    (∀ str1 str2 str3, fastUnicodeCompare table str1 str2 ≤ 0 →
      fastUnicodeCompare table str2 str3 ≤ 0 → fastUnicodeCompare table str1 str3 ≤ 0) := by
  have h := fastUnicodeCompare_ordersBy table
  have hmem := fastUnicodeCompare_mem table
  refine ⟨fun a b => ⟨h.eq_iff a b, ?_, ?_⟩, h.refl, fun a b => ?_, fun a b c => h.trans⟩
  · rw [← h.lt_iff]
    have := hmem a b
    omega
  · rw [← h.gt_iff]
    have := hmem a b
    omega
  · have hswap := h.sign_swap a b
    rcases hmem a b with hab | hab | hab <;> rcases hmem b a with hba | hba | hba <;>
      simp_all

/-- A table with two sub-tables: the letters from A to Z, and U+200C to U+200F, which are ignored. -/
def latinWords : List UTF16 :=
  (List.range 256).map (fun c => if c = 0 then 256 else if c = 0x20 then 512 else 0) ++
    ((List.range 256).map (fun c =>
      if c = 0 then 0xffff else BitVec.ofNat 16 (if 0x41 ≤ c ∧ c ≤ 0x5a then c + 32 else c)) ++
    (List.range 256).map (fun c => if 0x0c ≤ c ∧ c ≤ 0x0f then 0 else BitVec.ofNat 16 (0x2000 + c)))

theorem latinWords_length : latinWords.length = 768 := by simp [latinWords]

def latinTable : LowerCaseTable where
  words := latinWords
  upper := by rw [latinWords_length]; decide
  subTable := by
    rintro ⟨c, hc⟩ -
    have hindex : (latinWords.get ⟨c, by rw [latinWords_length]; omega⟩).toNat ≤ 512 := by
      simp only [latinWords, get_eq_getElem]
      rw [getElem_append_left (by simpa using hc), getElem_map, getElem_range]
      split_ifs <;> decide
    have hlength := latinWords_length
    rw [Fin.castLE_mk]
    omega

/-- `AB` with an ignored character in it is `ab`. -/
theorem fastUnicodeCompare_preorder_ignored :
    fastUnicodeCompare latinTable [0x41, 0x200c, 0x42] [0x61, 0x62] = 0 :=
  ((fastUnicodeCompare_preorder latinTable).1 _ _).1.mpr (by decide +kernel)

/-! ## The keys of the catalog -/

structure HFSPlusCatalogKey where
  parentID : ℕ
  nodeName : List UTF16
  deriving DecidableEq, Repr

def compareExtendedCatalogKeys (searchKey trialKey : HFSPlusCatalogKey) : ℤ :=
  if trialKey.parentID < searchKey.parentID then 1
  else if searchKey.parentID < trialKey.parentID then -1
  else if searchKey.nodeName.length = 0 ∨ trialKey.nodeName.length = 0 then
    searchKey.nodeName.length - trialKey.nodeName.length
  else fastUnicodeCompare table searchKey.nodeName trialKey.nodeName

/-- The place of a name among those of one parent: the thread record has none and comes first. -/
def nameOrder (nodeName : List UTF16) : WithBot (List ℕ) :=
  if nodeName = [] then ⊥ else (table.folded nodeName : List ℕ)

theorem nodeName_ordersBy :
    OrdersBy (fun a b : List UTF16 => if a.length = 0 ∨ b.length = 0 then (a.length - b.length : ℤ)
      else fastUnicodeCompare table a b) (nameOrder table) := by
  have h := fastUnicodeCompare_ordersBy table
  constructor <;> intro a b <;> rcases a with _ | ⟨c, a⟩ <;> rcases b with _ | ⟨d, b⟩
  case eq_iff.nil.nil | lt_iff.nil.nil => simp [nameOrder]
  case eq_iff.nil.cons => simp [nameOrder]; omega
  case eq_iff.cons.nil => simp [nameOrder]; omega
  case lt_iff.nil.cons => simp [nameOrder]; omega
  case lt_iff.cons.nil => simp [nameOrder]; omega
  case eq_iff.cons.cons => simpa [nameOrder] using h.eq_iff (c :: a) (d :: b)
  case lt_iff.cons.cons => simpa [nameOrder] using h.lt_iff (c :: a) (d :: b)

/-- The order of the catalog: by parent, then by name. -/
def HFSPlusCatalogKey.order (key : HFSPlusCatalogKey) : ℕ ×ₗ WithBot (List ℕ) :=
  toLex (key.parentID, nameOrder table key.nodeName)

theorem compareExtendedCatalogKeys_ordersBy :
    OrdersBy (compareExtendedCatalogKeys table) (HFSPlusCatalogKey.order table) := by
  exact ((nodeName_ordersBy table).comap HFSPlusCatalogKey.nodeName).lex HFSPlusCatalogKey.parentID

/-- The comparison of the catalog is a total preorder, the one by parent and then by folded name,
with the thread record of a parent in front of its names. -/
theorem catalog_keys_ordered :
    OrdersBy (compareExtendedCatalogKeys table) (HFSPlusCatalogKey.order table) ∧
      Std.TransCmp fun a b => compare (compareExtendedCatalogKeys table a b) 0 :=
  ⟨compareExtendedCatalogKeys_ordersBy table, (compareExtendedCatalogKeys_ordersBy table).transCmp⟩

/-- Of the names under one parent, `a` with an ignored character is in front of `B`. -/
theorem catalog_keys_ordered_ignored :
    compareExtendedCatalogKeys latinTable ⟨2, [0x200d, 0x61]⟩ ⟨2, [0x42]⟩ < 0 :=
  ((catalog_keys_ordered latinTable).1.lt_iff _ _).mpr (by decide +kernel)

end Darwin.Hfs
