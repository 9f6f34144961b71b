import Mathlib.Algebra.Group.Nat.Defs
import Mathlib.Data.List.Basic
import Mathlib.Tactic.Common

/-! # Bytes in memory

A memory gives a byte for each address. Lists of bytes are stored and moved, and what lies at an
address is said by `At`. A word is two bytes, the high one first.
-/
namespace Darwin.Lib
open List

abbrev Memory := ℕ → UInt8

namespace Memory

/-- `memmove`: the two regions may overlap. -/
def move (m : Memory) (src dst n : ℕ) : Memory :=
  fun a => if dst ≤ a ∧ a < dst + n then m (src + (a - dst)) else m a

def store (m : Memory) (dst : ℕ) (l : List UInt8) : Memory :=
  fun a => if dst ≤ a ∧ a < dst + l.length then l.getD (a - dst) 0 else m a

def clear (m : Memory) (dst n : ℕ) : Memory := fun a => if dst ≤ a ∧ a < dst + n then 0 else m a

def read (m : Memory) (a n : ℕ) : List UInt8 := (List.range n).map (fun k => m (a + k))

def word (m : Memory) (a : ℕ) : ℕ := 256 * (m a).toNat + (m (a + 1)).toNat

/-- A number of four bytes. -/
def long (m : Memory) (a : ℕ) : ℕ := 2 ^ 16 * m.word a + m.word (a + 2)

/-- The two bytes of a word. -/
def wordBytes (w : ℕ) : List UInt8 := [UInt8.ofNat (w / 256), UInt8.ofNat w]

def storeWord (m : Memory) (a w : ℕ) : Memory := m.store a (wordBytes w)

/-- The list lies at the address. -/
def At (m : Memory) (a : ℕ) (l : List UInt8) : Prop := ∀ k (hk : k < l.length), m (a + k) = l[k]

/-- The two memories have the same bytes from `a` to `b`. -/
def Agree (m m' : Memory) (a b : ℕ) : Prop := ∀ x, a ≤ x → x < b → m x = m' x

variable {m m' : Memory} {a b c src dst n w w' : ℕ} {l l' : List UInt8}

section agree

@[simp] theorem Agree.refl (m : Memory) (a b : ℕ) : Agree m m a b := fun _ _ _ => rfl

theorem Agree.trans {m'' : Memory} (h : Agree m m' a b) (h' : Agree m' m'' a b) : Agree m m'' a b :=
  fun x ha hb => (h x ha hb).trans (h' x ha hb)

theorem Agree.symm (h : Agree m m' a b) : Agree m' m a b := fun x ha hb => (h x ha hb).symm

theorem Agree.mono {a' b' : ℕ} (h : Agree m m' a b) (ha : a ≤ a') (hb : b' ≤ b) :
    Agree m m' a' b' := fun x hx hx' => h x (Nat.le_trans ha hx) (Nat.lt_of_lt_of_le hx' hb)

theorem agree_store (h : b ≤ dst ∨ dst + l.length ≤ a) : Agree (m.store dst l) m a b := by
  intro x ha hb
  rw [store, if_neg (by omega)]

theorem agree_move (h : b ≤ dst ∨ dst + n ≤ a) : Agree (m.move src dst n) m a b := by
  intro x ha hb
  rw [move, if_neg (by omega)]

theorem agree_clear (h : b ≤ dst ∨ dst + n ≤ a) : Agree (m.clear dst n) m a b := by
  intro x ha hb
  rw [clear, if_neg (by omega)]

end agree

section at_

@[simp] theorem at_nil : m.At a [] := fun k hk => absurd hk (Nat.not_lt_zero k)

theorem at_append : m.At a (l ++ l') ↔ m.At a l ∧ m.At (a + l.length) l' := by
  constructor
  · intro h
    refine ⟨fun k hk => ?_, fun k hk => ?_⟩
    · rw [h k (by rw [length_append]; omega), getElem_append_left hk]
    · have := h (l.length + k) (by rw [length_append]; omega)
      rw [getElem_append_right (by omega)] at this
      simpa [Nat.add_assoc] using this
  · rintro ⟨h, h'⟩ k hk
    rw [length_append] at hk
    by_cases hlt : k < l.length
    · rw [getElem_append_left hlt]
      exact h k hlt
    · rw [getElem_append_right (by omega)]
      have := h' (k - l.length) (by omega)
      rwa [Nat.add_assoc, Nat.add_sub_cancel' (Nat.le_of_not_lt hlt)] at this

theorem At.congr (h : m.At a l) (hagree : Agree m' m a (a + l.length)) : m'.At a l := by
  intro k hk
  rw [hagree _ (Nat.le_add_right a k) (by omega)]
  exact h k hk

theorem at_store : (m.store a l).At a l := by
  intro k hk
  rw [store, if_pos (by omega)]
  simp [hk]

theorem at_clear {k : ℕ} (hk : k ≤ n) : (m.clear a n).At a (List.replicate k 0) := by
  intro i hi
  rw [length_replicate] at hi
  rw [clear, if_pos (by omega), getElem_replicate]

@[simp] theorem clear_zero : m.clear a 0 = m := by
  funext x
  rw [clear, if_neg (by omega)]

theorem At.move (h : m.At src l) (dst : ℕ) : (m.move src dst l.length).At dst l := by
  intro k hk
  rw [Memory.move, if_pos (by omega), Nat.add_sub_cancel_left]
  exact h k hk

theorem At.read (h : m.At a l) : m.read a l.length = l := by
  apply ext_getElem
  · simp [Memory.read]
  · intro k hk hk'
    simpa [Memory.read] using h k hk'

@[simp] theorem read_length : (m.read a n).length = n := by simp [Memory.read]

theorem At.unique (h : m.At a l) (h' : m.At a l') (hlen : l.length = l'.length) : l = l' := by
  rw [← h.read, ← h'.read, hlen]

end at_

section words

theorem word_wordBytes (h : m.At a (wordBytes w)) (hw : w < 2 ^ 16) : m.word a = w := by
  have hhigh : m a = UInt8.ofNat (w / 256) := h 0 Nat.two_pos
  have hlow : m (a + 1) = UInt8.ofNat w := h 1 Nat.one_lt_two
  rw [word, hhigh, hlow, UInt8.toNat_ofNat', UInt8.toNat_ofNat']
  omega

theorem word_storeWord (hw : w < 2 ^ 16) : (m.storeWord a w).word a = w :=
  word_wordBytes at_store hw

theorem word_lt (m : Memory) (a : ℕ) : m.word a < 2 ^ 16 := by
  have hupper : (m a).toNat < 2 ^ 8 := (m a).toNat_lt
  have hlow : (m (a + 1)).toNat < 2 ^ 8 := (m (a + 1)).toNat_lt
  rw [word]
  omega

theorem word_congr (h : Agree m m' a (a + 2)) : m.word a = m'.word a := by
  rw [word, word, h a (Nat.le_refl a) (by omega), h (a + 1) (by omega) (by omega)]

theorem word_clear_upper (hle : dst ≤ a) (hend : dst + n = a + 1) : (m.clear dst n).word a = m.word a % 2 ^ 8 := by
  have hlow : (m (a + 1)).toNat < 2 ^ 8 := (m (a + 1)).toNat_lt
  have hbyte : (m.clear dst n) (a + 1) = m (a + 1) := if_neg (by omega)
  have hupper : (m.clear dst n) a = 0 := if_pos (by omega)
  rw [word, word, hbyte, hupper, UInt8.toNat_zero]
  omega

theorem word_clear_both (hle : dst ≤ a) (hend : a + 2 ≤ dst + n) : (m.clear dst n).word a = 0 := by
  have hlow : (m.clear dst n) (a + 1) = 0 := if_pos (by omega)
  have hupper : (m.clear dst n) a = 0 := if_pos (by omega)
  rw [word, hlow, hupper, UInt8.toNat_zero]

theorem agree_storeWord (h : b ≤ dst ∨ dst + 2 ≤ a) : Agree (m.storeWord dst w) m a b :=
  agree_store h

end words

end Memory

end Darwin.Lib
