import Mathlib.Data.Nat.Count
import Mathlib.Algebra.BigOperators.Intervals
import Mathlib.Data.Nat.Factorization.Basic
import Mathlib.Tactic.Linarith

/-! # Bitmaps kept as words, most significant bit first

A bitmap is a sequence of `w`-bit words and bit `n` is the bit `n % w` of word `n / w`
counted from the high end. Programs reach it through one-bit masks that are shifted down
a word, and count its clear bits.
-/
namespace Darwin.Lib
open Function
variable {w : ℕ}

/-- A value kept in 32 bits. -/
def u32 (x : ℕ) : ℕ := x % 2 ^ 32

/-- The difference of two 32-bit values, which wraps. -/
def u32Sub (a b : ℕ) : ℕ := (a + 2 ^ 32 - b % 2 ^ 32) % 2 ^ 32

theorem u32_eq {x : ℕ} (h : x < 2 ^ 32) : u32 x = x := Nat.mod_eq_of_lt h

theorem u32Sub_eq {a b : ℕ} (h : b ≤ a) (ha : a < 2 ^ 32) : u32Sub a b = a - b := by
  rw [u32Sub, Nat.mod_eq_of_lt (Nat.lt_of_le_of_lt h ha),
    show a + 2 ^ 32 - b = a - b + 2 ^ 32 by omega, Nat.add_mod_right]
  exact Nat.mod_eq_of_lt (by omega)

def bitAt (m : ℕ → BitVec w) (n : ℕ) : Bool := (m (n / w)).getMsbD (n % w)

/-- The one-bit mask a program gets by shifting the high bit of a word down `k` times. -/
def maskAt (w k : ℕ) : BitVec w := BitVec.twoPow w (w - 1) >>> k

theorem getMsbD_maskAt {k i : ℕ} (hk : k < w) :
    (maskAt w k).getMsbD i = decide (i = k) := by
  rw [maskAt, BitVec.getMsbD_ushiftRight, BitVec.getMsbD_twoPow]
  by_cases hi : i = k
  · subst hi
    simp [hk]
    omega
  · simp [hi]
    omega

theorem and_maskAt_eq_zero {x : BitVec w} {k : ℕ} (hk : k < w) :
    x &&& maskAt w k = 0 ↔ x.getMsbD k = false := by
  constructor
  · intro h
    have hm := congrArg (fun y => y.getMsbD k) h
    simpa [getMsbD_maskAt hk] using hm
  · intro h
    apply BitVec.eq_of_getMsbD_eq
    intro i hi
    rw [BitVec.getMsbD_and, getMsbD_maskAt hk]
    by_cases hik : i = k
    · simp [hik, h]
    · simp [hik]

theorem maskAt_shift (w k : ℕ) : maskAt w k >>> 1 = maskAt w (k + 1) := by
  rw [maskAt, maskAt, ← BitVec.shiftRight_add]

theorem maskAt_eq_zero {k : ℕ} : maskAt w k = 0 ↔ w ≤ k := by
  constructor
  · intro h
    by_contra hk
    have hm := congrArg (fun y => y.getMsbD k) h
    simp [getMsbD_maskAt (Nat.lt_of_not_le hk)] at hm
  · intro hk
    apply BitVec.eq_of_getMsbD_eq
    intro i hi
    rw [maskAt, BitVec.getMsbD_ushiftRight]
    simp
    omega

theorem one_shiftLeft {k : ℕ} (hk : k < w) : 1#w <<< (w - 1 - k) = maskAt w k := by
  apply BitVec.eq_of_getMsbD_eq
  intro i hi
  rw [getMsbD_maskAt hk, BitVec.getMsbD_shiftLeft, BitVec.getMsbD_one]
  by_cases hik : i = k
  · simp [hik]
    omega
  · simp [hik]
    omega

theorem maskAt_shiftLeft {k : ℕ} (hk : k < w) :
    maskAt w k <<< 1 = if k = 0 then 0 else maskAt w (k - 1) := by
  apply BitVec.eq_of_getMsbD_eq
  intro i hi
  rw [BitVec.getMsbD_shiftLeft, getMsbD_maskAt hk]
  split_ifs with h0
  · simp [h0]
  · rw [getMsbD_maskAt (by omega)]
    simp
    omega

theorem getMsbD_allOnes_shift {k i : ℕ} :
    (BitVec.allOnes w >>> k).getMsbD i = decide (k ≤ i ∧ i < w) := by
  rw [BitVec.getMsbD_ushiftRight, BitVec.getMsbD_allOnes]
  by_cases hk : k ≤ i
  · by_cases hi : i < w
    · simp [hk, hi]
      omega
    · simp [hi]
  · simp [hk]

theorem bitAt_update (m : ℕ → BitVec w) (i : ℕ) (x : BitVec w) (n : ℕ) :
    bitAt (update m i x) n = if n / w = i then x.getMsbD (n % w) else bitAt m n := by
  unfold bitAt
  split_ifs with h
  · rw [h, update_self]
  · rw [update_of_ne h]

/-! ## Ranges and counts -/

/-- `m'` is `m` with the bits of the range set to `v`. -/
def Marked (m m' : ℕ → BitVec w) (start len : ℕ) (v : Bool) : Prop :=
  ∀ n, bitAt m' n = if start ≤ n ∧ n < start + len then v else bitAt m n

theorem Marked.refl (m : ℕ → BitVec w) (start : ℕ) (v : Bool) : Marked m m start 0 v := by
  intro n
  rw [if_neg (by omega)]

theorem Marked.append {m m' m'' : ℕ → BitVec w} {start len len' : ℕ} {v : Bool}
    (h : Marked m m' start len v) (h' : Marked m' m'' (start + len) len' v) :
    Marked m m'' start (len + len') v := by
  intro n
  rw [h' n, h n]
  split_ifs <;> first | rfl | omega

theorem word_ext {m m' : ℕ → BitVec w} {k : ℕ}
    (h : ∀ i, i < w → bitAt m' (w * k + i) = bitAt m (w * k + i)) : m' k = m k := by
  apply BitVec.eq_of_getMsbD_eq
  intro i hi
  have hdiv : (w * k + i) / w = k := by
    rw [Nat.mul_add_div (by omega), Nat.div_eq_of_lt hi, Nat.add_zero]
  have hmod : (w * k + i) % w = i := by
    rw [Nat.mul_add_mod, Nat.mod_eq_of_lt hi]
  have hbit := h i hi
  rwa [bitAt, bitAt, hdiv, hmod] at hbit

theorem Marked.word_eq {m m' : ℕ → BitVec w} {start len k : ℕ} {v : Bool}
    (h : Marked m m' start len v) (hk : w * (k + 1) ≤ start ∨ start + len ≤ w * k) :
    m' k = m k := by
  rw [Nat.mul_add, Nat.mul_one] at hk
  apply word_ext
  intro i hi
  rw [h (w * k + i), if_neg (by omega)]

theorem Marked.undo {m m' m'' : ℕ → BitVec w} {start len : ℕ} {v : Bool}
    (h : Marked m m' start len (!v)) (h' : Marked m' m'' start len v)
    (hold : ∀ n, start ≤ n → n < start + len → bitAt m n = v) : m'' = m := by
  funext k
  apply word_ext
  intro i hi
  rw [h' (w * k + i), h (w * k + i)]
  split_ifs with hn
  · exact (hold _ hn.1 hn.2).symm
  · rfl

theorem mod_ne_of_div_eq {k n : ℕ} (hk : k ≠ n) (hd : k / w = n / w) : k % w ≠ n % w := by
  intro hmod
  apply hk
  rw [← Nat.div_add_mod k w, ← Nat.div_add_mod n w, hd, hmod]

theorem marked_or (m : ℕ → BitVec w) (hw : 0 < w) (n : ℕ) :
    Marked m (update m (n / w) (m (n / w) ||| maskAt w (n % w))) n 1 true := by
  intro k
  rw [bitAt_update, BitVec.getMsbD_or, getMsbD_maskAt (Nat.mod_lt n hw)]
  by_cases hk : k = n
  · simp [hk]
  · rw [if_neg (show ¬ (n ≤ k ∧ k < n + 1) by omega)]
    split_ifs with hd
    · have hmod := mod_ne_of_div_eq hk hd
      simp [hmod, bitAt, hd]
    · rfl

theorem marked_and_not (m : ℕ → BitVec w) (hw : 0 < w) (n : ℕ) :
    Marked m (update m (n / w) (m (n / w) &&& ~~~maskAt w (n % w))) n 1 false := by
  intro k
  rw [bitAt_update, BitVec.getMsbD_and, BitVec.getMsbD_not, getMsbD_maskAt (Nat.mod_lt n hw)]
  by_cases hk : k = n
  · simp [hk]
  · rw [if_neg (show ¬ (n ≤ k ∧ k < n + 1) by omega)]
    split_ifs with hd
    · have hmod := mod_ne_of_div_eq hk hd
      simp [hmod, bitAt, hd, Nat.mod_lt k hw]
    · rfl

theorem count_congr {p q : ℕ → Prop} [DecidablePred p] [DecidablePred q] {n : ℕ}
    (h : ∀ k < n, p k ↔ q k) : Nat.count p n = Nat.count q n := by
  induction n with
  | zero => rfl
  | succ n ih =>
    rw [Nat.count_succ, Nat.count_succ, ih (fun k hk => h k (Nat.lt_succ_of_lt hk))]
    simp only [h n (Nat.lt_succ_self n)]

/-- The number of clear bits below `n`. -/
def clearCount (m : ℕ → BitVec w) (n : ℕ) : ℕ := Nat.count (fun k => bitAt m k = false) n

theorem Marked.clearCount {m m' : ℕ → BitVec w} {start len n : ℕ} (h : Marked m m' start len true)
    (hc : ∀ k, start ≤ k → k < start + len → bitAt m k = false) (hn : start + len ≤ n) :
    Lib.clearCount m n = Lib.clearCount m' n + len := by
  obtain ⟨r, rfl⟩ : ∃ r, n = start + len + r := ⟨n - (start + len), by omega⟩
  have hlow : Nat.count (fun k => bitAt m k = false) start =
      Nat.count (fun k => bitAt m' k = false) start := by
    refine count_congr (fun k hk => ?_)
    rw [h k, if_neg (by omega)]
  have hmid : ∀ j, j ≤ len → Nat.count (fun k => bitAt m (start + k) = false) j =
      Nat.count (fun k => bitAt m' (start + k) = false) j + j := by
    intro j
    induction j with
    | zero => intro _; rfl
    | succ j ih =>
      intro hj
      have h1 := hc (start + j) (by omega) (by omega)
      have h2 := h (start + j)
      rw [if_pos (by omega)] at h2
      rw [Nat.count_succ, Nat.count_succ, ih (by omega), if_pos h1, if_neg (by simp [h2])]
      omega
  have hhigh : Nat.count (fun k => bitAt m (start + len + k) = false) r =
      Nat.count (fun k => bitAt m' (start + len + k) = false) r := by
    refine count_congr (fun k hk => ?_)
    rw [h (start + len + k), if_neg (by omega)]
  simp only [Lib.clearCount]
  rw [Nat.count_add, Nat.count_add, Nat.count_add, Nat.count_add, hlow, hmid len (le_refl _),
    hhigh]
  omega

theorem Marked.clearCount_succ {m m' : ℕ → BitVec w} {k n : ℕ} (h : Marked m m' k 1 false)
    (hk : bitAt m k = true) (hn : k < n) : Lib.clearCount m' n = Lib.clearCount m n + 1 := by
  have hback : Marked m' m k 1 true := by
    intro i
    rw [h i]
    split_ifs with hi
    · rwa [show i = k by omega]
    · rfl
  apply hback.clearCount
  · intro i hi hi'
    rw [h i, if_pos ⟨hi, hi'⟩]
  · exact hn

theorem clearCount_add {m : ℕ → BitVec w} {n k : ℕ}
    (h : ∀ i, n ≤ i → i < n + k → bitAt m i = false) :
    clearCount m (n + k) = clearCount m n + k := by
  induction k with
  | zero => rfl
  | succ k ih =>
    have hstep : clearCount m (n + (k + 1)) = clearCount m (n + k) + 1 := by
      rw [clearCount, ← Nat.add_assoc, Nat.count_succ, if_pos (h (n + k) (by omega) (by omega))]
      rfl
    rw [hstep, ih (fun i hi hi' => h i hi (by omega)), Nat.add_assoc]

theorem clearCount_le (m : ℕ → BitVec w) (n : ℕ) : clearCount m n ≤ n := Nat.count_le _

theorem clearCount_pos {m : ℕ → BitVec w} {n : ℕ} :
    0 < clearCount m n ↔ ∃ k < n, bitAt m k = false := by
  rw [clearCount, Nat.pos_iff_ne_zero, Nat.count_ne_iff_exists]

/-! ## The set bits of one word -/

theorem exists_and_sub_one {x : BitVec w} (h : x ≠ 0) : ∃ k < w, x.getLsbD k = true ∧
    ∀ j, (x &&& (x - 1)).getLsbD j = (x.getLsbD j && decide (j ≠ k)) := by
  have hx : x.toNat ≠ 0 := fun h0 => h (BitVec.eq_of_toNat_eq (by simpa using h0))
  obtain ⟨k, m, hodd, hm⟩ := Nat.exists_eq_two_pow_mul_odd hx
  obtain ⟨q, rfl⟩ := hodd
  have hbits : ∀ j, x.toNat.testBit j = if j < k then false else (2 * q + 1).testBit (j - k) := by
    intro j
    have := Nat.testBit_two_pow_mul_add (2 * q + 1) (Nat.two_pow_pos k) j
    rw [Nat.add_zero, ← hm] at this
    simpa using this
  have hk : x.toNat.testBit k = true := by
    rw [hbits k]
    simp
  have hkw : k < w := BitVec.lt_of_getLsbD hk
  have hsub : (x - 1).toNat = 2 ^ k * (2 * q) + (2 ^ k - 1) := by
    have hw : 1 < 2 ^ w := Nat.one_lt_two_pow (by omega)
    have h1 : (1 : BitVec w).toNat = 1 := by
      change (BitVec.ofNat w 1).toNat = 1
      rw [BitVec.toNat_ofNat, Nat.mod_eq_of_lt hw]
    rw [BitVec.toNat_sub_of_le, h1, hm]
    · have := Nat.two_pow_pos k
      rw [Nat.mul_add, Nat.mul_one]
      omega
    · rw [BitVec.le_def, h1]
      omega
  refine ⟨k, hkw, hk, ?_⟩
  intro j
  rw [BitVec.getLsbD_and]
  change (x.toNat.testBit j && (x - 1).toNat.testBit j) = (x.toNat.testBit j && _)
  rw [hsub, Nat.testBit_two_pow_mul_add _ (by have := Nat.two_pow_pos k; omega), hbits j]
  by_cases hj : j < k
  · simp [hj]
  · rcases Nat.eq_or_lt_of_le (Nat.le_of_not_lt hj) with rfl | hlt
    · simp
    · obtain ⟨i, hi⟩ : ∃ i, j - k = i + 1 := ⟨j - k - 1, by omega⟩
      simp only [hj, hi, Nat.testBit_succ, if_false]
      simp [hlt.ne', show (2 * q + 1) / 2 = q by omega]

theorem count_and_sub_one {x : BitVec w} (h : x ≠ 0) :
    Nat.count (fun i => x.getLsbD i = true) w =
      Nat.count (fun i => (x &&& (x - 1)).getLsbD i = true) w + 1 := by
  obtain ⟨k, hk, hbit, hand⟩ := exists_and_sub_one h
  rw [Nat.count_eq_card_filter_range, Nat.count_eq_card_filter_range]
  have herase : (Finset.range w).filter (fun i => (x &&& (x - 1)).getLsbD i = true) =
      ((Finset.range w).filter (fun i => x.getLsbD i = true)).erase k := by
    ext i
    simp only [hand, Finset.mem_filter, Finset.mem_erase, Finset.mem_range, Bool.and_eq_true,
      decide_eq_true_eq]
    tauto
  rw [herase, Finset.card_erase_add_one]
  simp [hk, hbit]

theorem count_getMsbD (x : BitVec w) : Nat.count (fun i => x.getMsbD i = true) w =
    Nat.count (fun i => x.getLsbD i = true) w := by
  rw [Nat.count_eq_card_filter_range, Nat.count_eq_card_filter_range, Finset.card_filter,
    Finset.card_filter, ← Finset.sum_range_reflect]
  refine Finset.sum_congr rfl (fun i hi => ?_)
  have hi' : i < w := Finset.mem_range.mp hi
  rw [BitVec.getLsbD_eq_getMsbD]
  simp [hi']

end Darwin.Lib
