import SystemsLabs.Bits.Twice

/-!
# Halving a number

`float_half` decreases the exponent of its argument, or shifts the fields to the right where the
result is subnormal. Halving loses a bit there, and doubling loses none: half of what `float_twice`
returns is its argument, except where that has the largest finite exponent.
-/

namespace SystemsLabs.Bits

open Library

variable {f : Word}

def floatHalf (f : Word) : Word :=
  let sign := f &&& 0x80000000
  let expo := f &&& 0x7f800000
  let frac := f &&& 0x007fffff
  if expo = 0x7f800000 then f
  else if expo > 0x00800000 then f - 0x00800000
  else sign ||| (((expo ||| frac) >>> 1) + (if f &&& 3 = 3 then 1 else 0))

/-- What `float_half` is to return: a NaN and an infinity themselves, and the number nearest to the
half of a finite one. -/
structure Halves (f r : Word) : Prop where
  special : ¬(u2f f).IsFinite → r = f
  halved : (u2f f).IsFinite → single.Nearest ((u2f f).value / 2) (u2f r) ∧
    (u2f r).negative = (u2f f).negative

lemma single_half (p : ℕ) : single.half p =
    if p < 2 * 2 ^ 23 then p / 2 + (if p % 4 = 3 then 1 else 0) else p - 2 ^ 23 := rfl

lemma floatHalf_special (h : ¬(u2f f).IsFinite) : floatHalf f = f := by
  simp only [floatHalf, (exponent_special f).mpr h, if_true]

lemma floatHalf_toNat (h : (u2f f).IsFinite) : (floatHalf f).toNat =
    f.toNat / 2 ^ 31 * 2 ^ 31 + single.half (u2f f).bits := by
  have hlt := f.isLt
  have hbits := u2f_bits f
  have hinf : f &&& 0x7f800000 ≠ 0x7f800000 := mt (exponent_special f).mp (not_not.mpr h)
  rw [isFinite_iff] at h
  have hnormal : f &&& 0x7f800000 > 0x00800000 ↔ ¬(u2f f).bits < 2 * 2 ^ 23 := by
    rw [gt_iff_lt, BitVec.lt_def, exponent_toNat, show (0x00800000 : Word).toNat = 2 ^ 23 from rfl]
    omega
  simp only [floatHalf, if_neg hinf, hnormal, single_half]
  by_cases hsub : (u2f f).bits < 2 * 2 ^ 23
  · have hfields : ((f &&& 0x7f800000) ||| (f &&& 0x007fffff)).toNat = (u2f f).bits := by
      rw [BitVec.toNat_or, exponent_toNat, fraction_toNat, lor_low_bits (k := 23) (by omega) (by omega)]
      omega
    have hlast : f &&& 3 = 3 ↔ (u2f f).bits % 4 = 3 := by
      rw [← BitVec.toNat_inj, BitVec.toNat_and, show (3 : Word).toNat = 2 ^ 2 - 1 from rfl,
        Nat.and_two_pow_sub_one_eq_mod]
      omega
    have hround : (((f &&& 0x7f800000) ||| (f &&& 0x007fffff)) >>> 1 +
        (if f &&& 3 = 3 then 1 else 0 : Word)).toNat =
          (u2f f).bits / 2 + if (u2f f).bits % 4 = 3 then 1 else 0 := by
      rw [BitVec.toNat_add, BitVec.toNat_ushiftRight, hfields, Nat.shiftRight_eq_div_pow]
      simp only [hlast]
      split_ifs
      · rw [show (1 : Word).toNat = 1 from rfl]
        omega
      · rw [show (0 : Word).toNat = 0 from rfl]
        omega
    rw [if_neg (not_not.mpr hsub), if_pos hsub, BitVec.toNat_or, sign_mask, hround]
    apply lor_low_bits (k := 31) (by omega)
    split_ifs <;> omega
  · rw [if_pos hsub, if_neg hsub, BitVec.toNat_sub, show (0x00800000 : Word).toNat = 2 ^ 23 from rfl]
    omega

theorem u2f_floatHalf (h : (u2f f).IsFinite) :
    (u2f (floatHalf f)).negative = (u2f f).negative ∧
      (u2f (floatHalf f)).bits = single.half (u2f f).bits ∧ (u2f (floatHalf f)).IsFinite := by
  have hnat := floatHalf_toNat h
  rw [isFinite_iff] at h
  have hlt : single.half (u2f f).bits < 255 * 2 ^ 23 := by
    rw [single_half]
    split_ifs <;> omega
  rw [u2f_negative, u2f_negative, isFinite_iff, u2f_bits (floatHalf f), hnat, decide_eq_decide]
  omega

/-- `float_half` rounds the half of every finite number correctly. -/
theorem floatHalf_halves (f : Word) : Halves f (floatHalf f) := by
  refine ⟨floatHalf_special, fun h => ?_⟩
  obtain ⟨hneg, hbits, hfinite⟩ := u2f_floatHalf h
  have hrounds : single.Rounds (u2f f).negative ((u2f f).value / 2) (u2f (floatHalf f)) := by
    refine ⟨hneg, single.half (u2f f).bits, ?_, ?_⟩
    · rw [abs_div, abs_two, FloatFormat.Pattern.abs_value]
      exact FloatFormat.roundsBits_half _
    · rw [hbits, min_eq_left]
      exact hbits ▸ le_of_lt hfinite
  refine ⟨hrounds.nearest ?_ hfinite, hneg⟩
  have hnonneg := FloatFormat.magnitude_nonneg (F := single) (u2f f).bits
  rw [FloatFormat.Pattern.value]
  split <;> linarith

lemma floatHalf_of_finite (h : (u2f (floatTwice f)).IsFinite) (hfin : (u2f f).IsFinite) :
    floatHalf (floatTwice f) = f := by
  obtain ⟨hneg, htwice⟩ := u2f_floatTwice hfin
  obtain ⟨hneg', hhalf, -⟩ := u2f_floatHalf h
  have hback : u2f (floatHalf (floatTwice f)) = u2f f := by
    ext
    · rw [hneg', hneg]
    · rw [hhalf, htwice, FloatFormat.half_twice]
  rw [← f2u_u2f (floatHalf (floatTwice f)), hback, f2u_u2f]

/-- The double of a finite number is finite unless the exponent is the largest. -/
lemma finite_double_iff (hfin : (u2f f).IsFinite) :
    (u2f (floatTwice f)).IsFinite ↔ f &&& 0x7f800000 ≠ 0x7f000000 := by
  have hmask : f &&& 0x7f800000 = 0x7f000000 ↔ (u2f f).bits / 2 ^ 23 = 254 :=
    exponent_mask (e := 254) (by norm_num)
  rw [Ne, hmask, isFinite_iff, (u2f_floatTwice hfin).2, single_twice]
  rw [isFinite_iff] at hfin
  split <;> omega

/-- Halving undoes doubling unless the exponent is the largest finite one. Then the double is an
infinity or a NaN, which `float_half` returns. -/
theorem floatHalf_floatTwice (f : Word) :
    (floatHalf (floatTwice f) = f ↔ f &&& 0x7f800000 ≠ 0x7f000000) ∧
      (f &&& 0x7f800000 = 0x7f000000 →
        ¬(u2f (floatTwice f)).IsFinite ∧ floatHalf (floatTwice f) = floatTwice f) := by
  by_cases hfin : (u2f f).IsFinite
  · rw [← finite_double_iff hfin]
    have hreturned : ¬(u2f (floatTwice f)).IsFinite → floatHalf (floatTwice f) = floatTwice f :=
      floatHalf_special
    refine ⟨⟨fun heq => ?_, fun h => floatHalf_of_finite h hfin⟩, fun hlargest => ?_⟩
    · by_contra hdouble
      have hsame : floatTwice f = f := (hreturned hdouble).symm.trans heq
      exact hdouble (hsame.symm ▸ hfin)
    · have hdouble := mt (finite_double_iff hfin).mp (not_not.mpr hlargest)
      exact ⟨hdouble, hreturned hdouble⟩
  · have hmask : f &&& 0x7f800000 = 0x7f000000 ↔ (u2f f).bits / 2 ^ 23 = 254 :=
      exponent_mask (e := 254) (by norm_num)
    rw [floatTwice_special hfin, floatHalf_special hfin, Ne, hmask]
    have hbits : (u2f f).bits < 2 ^ 31 := (u2f f).bits_lt
    rw [isFinite_iff] at hfin
    exact ⟨iff_of_true rfl (by omega), fun hlargest => absurd hlargest (by omega)⟩

end SystemsLabs.Bits
