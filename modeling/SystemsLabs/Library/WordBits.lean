import Mathlib.Data.Nat.Bitwise
import Mathlib.Tactic

/-!
# Bits of machine words

Machine words are natural numbers below `2 ^ w`. Masks that keep, set or clear a few
low bits are turned into quotients and remainders, which linear arithmetic can handle.
The conversions between signed and unsigned readings of a word are reductions modulo
`2 ^ w`.
-/

namespace SystemsLabs.Library

/-- The unsigned `w`-bit reading of an integer. -/
def wrapUnsigned (w : ℕ) (x : ℤ) : ℕ := (x % 2 ^ w).toNat

/-- The signed two's-complement `w`-bit reading of an integer. -/
def wrapSigned (w : ℕ) (x : ℤ) : ℤ :=
  if 2 * wrapUnsigned w x < 2 ^ w then wrapUnsigned w x else wrapUnsigned w x - 2 ^ w

lemma wrapUnsigned_lt (w : ℕ) (x : ℤ) : wrapUnsigned w x < 2 ^ w := by
  have hpos : (0 : ℤ) < 2 ^ w := by positivity
  have h := Int.emod_lt_of_pos x hpos
  have h0 := Int.emod_nonneg x hpos.ne'
  unfold wrapUnsigned
  zify
  rw [Int.toNat_of_nonneg h0]
  exact_mod_cast h

lemma wrapUnsigned_of_lt {w : ℕ} {x : ℤ} (h0 : 0 ≤ x) (h : x < 2 ^ w) :
    wrapUnsigned w x = x.toNat := by
  unfold wrapUnsigned
  rw [Int.emod_eq_of_lt h0 h]

lemma wrapUnsigned_natCast {w x : ℕ} (h : x < 2 ^ w) : wrapUnsigned w (x : ℤ) = x := by
  rw [wrapUnsigned_of_lt (Int.natCast_nonneg x) (by exact_mod_cast h), Int.toNat_natCast]

lemma wrapUnsigned_cast (w : ℕ) (x : ℤ) : (wrapUnsigned w x : ℤ) = x % 2 ^ w :=
  Int.toNat_of_nonneg (Int.emod_nonneg x (by positivity))

/-- A half-range value reads back as itself when it is taken as signed. -/
lemma wrapSigned_of_bounds {w : ℕ} {x : ℤ} (hlo : -(2 ^ w : ℤ) ≤ x) (hhi : x < 2 ^ w) :
    wrapSigned (w + 1) x = x := by
  have hpow : (2 : ℤ) ^ (w + 1) = 2 * 2 ^ w := by ring
  have hcast := wrapUnsigned_cast (w + 1) x
  unfold wrapSigned
  zify
  rw [hcast, hpow]
  by_cases hx : 0 ≤ x
  · rw [Int.emod_eq_of_lt hx (by omega), if_pos (by omega)]
  · have hmod : x % (2 * 2 ^ w) = x + 2 * 2 ^ w := by
      rw [← Int.add_emod_right, Int.emod_eq_of_lt (by omega) (by omega)]
    rw [hmod, if_neg (by omega)]
    omega

/-- A value of the upper half range reads as a negative one. -/
lemma wrapSigned_neg {w : ℕ} {x : ℤ} (hlo : 2 ^ w ≤ x) (hhi : x < 2 ^ (w + 1)) :
    wrapSigned (w + 1) x < 0 := by
  have hpow : (2 : ℤ) ^ (w + 1) = 2 * 2 ^ w := by ring
  have hpos : (0 : ℤ) < 2 ^ w := by positivity
  have hcast := wrapUnsigned_cast (w + 1) x
  rw [Int.emod_eq_of_lt (by omega) hhi] at hcast
  unfold wrapSigned
  zify
  rw [hcast, if_neg (by omega)]
  omega

lemma land_one (v : ℕ) : v &&& 1 = v % 2 := Nat.and_one_is_mod v

lemma land_two (v : ℕ) : v &&& 2 = 2 * (v / 2 % 2) := by
  have h := Nat.and_two_pow v 1
  rw [pow_one, Nat.testBit_succ, Nat.testBit_zero] at h
  rw [h]
  rcases Nat.mod_two_eq_zero_or_one (v / 2) with h2 | h2 <;> simp [h2]

/-- Keeping the bits from `k` on of a `w`-bit word. -/
theorem land_high_mask {w k v : ℕ} (hv : v < 2 ^ w) (hk : k ≤ w) :
    v &&& (2 ^ w - 2 ^ k) = v / 2 ^ k * 2 ^ k := by
  have hmask : 2 ^ w - 2 ^ k = (2 ^ (w - k) - 1) * 2 ^ k := by
    rw [Nat.sub_mul, one_mul, ← pow_add, Nat.sub_add_cancel hk]
  have hpos : 0 < 2 ^ k := by positivity
  have hquot : (v &&& (2 ^ w - 2 ^ k)) / 2 ^ k = v / 2 ^ k := by
    rw [Nat.and_div_two_pow, hmask, Nat.mul_div_cancel _ hpos, Nat.and_two_pow_sub_one_eq_mod,
      Nat.mod_eq_of_lt]
    rw [Nat.div_lt_iff_lt_mul hpos, ← pow_add, Nat.sub_add_cancel hk]
    exact hv
  have hrem : (v &&& (2 ^ w - 2 ^ k)) % 2 ^ k = 0 := by
    rw [Nat.and_mod_two_pow, hmask, Nat.mul_mod_left, Nat.and_zero]
  rw [← Nat.div_add_mod (v &&& (2 ^ w - 2 ^ k)) (2 ^ k), hquot, hrem, add_zero, mul_comm]

/-- A mask of `w` bits reads the low bits only. -/
lemma land_mod {w v m : ℕ} (hm : m < 2 ^ w) : v &&& m = (v % 2 ^ w) &&& m := by
  conv_rhs => rw [← Nat.mod_eq_of_lt hm]
  rw [← Nat.and_mod_two_pow, Nat.mod_eq_of_lt (Nat.and_le_right.trans_lt hm)]

/-- Fields that share no bit are packed by addition. -/
theorem lor_low_bits {k a b : ℕ} (ha : a % 2 ^ k = 0) (hb : b < 2 ^ k) : a ||| b = a + b := by
  obtain ⟨q, rfl⟩ := Nat.dvd_of_mod_eq_zero ha
  exact (Nat.two_pow_add_eq_or_of_lt hb q).symm

/-- Splitting a word at bit `k` splits a bitwise and. -/
lemma land_split (k a b : ℕ) :
    a &&& b = 2 ^ k * (a / 2 ^ k &&& b / 2 ^ k) + (a % 2 ^ k &&& b % 2 ^ k) := by
  rw [← Nat.and_div_two_pow, ← Nat.and_mod_two_pow, Nat.div_add_mod]

end SystemsLabs.Library
