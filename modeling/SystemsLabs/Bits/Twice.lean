import SystemsLabs.Bits.Puzzles

/-!
# Doubling a number

The masks of `float_twice` read the exponent and the fraction of its argument. For every finite
argument it computes the pattern of the double with an exponent that is not bounded. This is the
reference's result unless the pattern goes past infinity, where the reference overflows.
-/

namespace SystemsLabs.Bits

open Library

variable {u uf r : Word}

/-- What `float_twice` is to return: a NaN and an infinity themselves, and the double of a finite
number, or an infinity where it is too large. -/
structure Doubles (uf r : Word) : Prop where
  special : ¬(u2f uf).IsFinite → r = uf
  doubled : (u2f uf).IsFinite → |2 * (u2f uf).value| ≤ single.maxFinite →
    (u2f r).IsFinite ∧ (u2f r).value = 2 * (u2f uf).value ∧
      (u2f r).negative = (u2f uf).negative
  overflow : (u2f uf).IsFinite → single.maxFinite < |2 * (u2f uf).value| →
    (u2f r).IsInfinite ∧ (u2f r).negative = (u2f uf).negative

lemma isFinite_iff (u : Word) : (u2f u).IsFinite ↔ (u2f u).bits < 255 * 2 ^ 23 := Iff.rfl

/-! ### The masks -/

/-- The first mask reads the exponent field. -/
lemma exponent_toNat (u : Word) :
    (u &&& 0x7f800000).toNat = (u2f u).bits / 2 ^ 23 * 2 ^ 23 := by
  have hbits : (u2f u).bits < 2 ^ 31 := (u2f u).bits_lt
  rw [BitVec.toNat_and, show (0x7f800000 : Word).toNat = 2 ^ 31 - 2 ^ 23 from rfl,
    land_mod (w := 31) (by norm_num)]
  exact land_high_mask hbits (by norm_num)

lemma exponent_mask {e : ℕ} (he : e < 256) :
    u &&& 0x7f800000 = BitVec.ofNat 32 (e * 2 ^ 23) ↔ (u2f u).bits / 2 ^ 23 = e := by
  have hbits : (u2f u).bits < 2 ^ 31 := (u2f u).bits_lt
  rw [← BitVec.toNat_inj, exponent_toNat, BitVec.toNat_ofNat]
  omega

/-- The largest exponent is that of the infinities and the NaNs. -/
lemma exponent_special (u : Word) : u &&& 0x7f800000 = 0x7f800000 ↔ ¬(u2f u).IsFinite := by
  have hbits : (u2f u).bits < 2 ^ 31 := (u2f u).bits_lt
  rw [isFinite_iff]
  refine (exponent_mask (e := 255) (by norm_num)).trans ?_
  omega

/-- The second mask reads the fraction field. -/
lemma fraction_toNat (u : Word) : (u &&& 0x007fffff).toNat = (u2f u).bits % 2 ^ 23 := by
  rw [BitVec.toNat_and, show (0x007fffff : Word).toNat = 2 ^ 23 - 1 from rfl,
    Nat.and_two_pow_sub_one_eq_mod, u2f_bits]
  omega

lemma fraction_mask : u &&& 0x007fffff = 0 ↔ (u2f u).bits % 2 ^ 23 = 0 := by
  rw [← BitVec.toNat_inj, fraction_toNat]
  rfl

/-! ### The function -/

lemma floatTwice_special (h : ¬(u2f uf).IsFinite) : floatTwice uf = uf := by
  simp only [floatTwice, (exponent_special uf).mpr h, if_true]

lemma floatTwice_toNat (h : (u2f uf).IsFinite) : (floatTwice uf).toNat =
    uf.toNat / 2 ^ 31 * 2 ^ 31 + single.twice (u2f uf).bits := by
  have hlt := uf.isLt
  have hbits := u2f_bits uf
  have hinf : uf &&& 0x7f800000 ≠ 0x7f800000 := mt (exponent_special uf).mp (not_not.mpr h)
  rw [isFinite_iff] at h
  have hzero : uf &&& 0x7f800000 = 0 ↔ (u2f uf).bits < 2 ^ 23 := by
    refine (exponent_mask (e := 0) (by norm_num)).trans ?_
    omega
  simp only [floatTwice, if_neg hinf, hzero, single_twice]
  by_cases hsub : (u2f uf).bits < 2 ^ 23
  · -- a subnormal number is shifted, below its sign
    have hshift : (uf <<< 1).toNat = 2 * (u2f uf).bits := by
      rw [BitVec.toNat_shiftLeft, Nat.shiftLeft_eq]
      omega
    rw [if_pos hsub, if_pos hsub, BitVec.toNat_or, sign_mask, hshift,
      lor_low_bits (k := 31) (by omega) (by omega)]
  · -- the exponent of a normal number is increased
    rw [if_neg hsub, if_neg hsub, BitVec.toNat_add, show (0x800000 : Word).toNat = 2 ^ 23 from rfl]
    omega

/-- The pattern of the result is that of the double with an exponent that is not bounded. -/
theorem u2f_floatTwice (h : (u2f uf).IsFinite) :
    (u2f (floatTwice uf)).negative = (u2f uf).negative ∧
      (u2f (floatTwice uf)).bits = single.twice (u2f uf).bits := by
  have hnat := floatTwice_toNat h
  rw [isFinite_iff] at h
  have hlt : single.twice (u2f uf).bits < 2 ^ 31 := by
    rw [single_twice]
    split <;> omega
  rw [u2f_negative, u2f_negative, u2f_bits (floatTwice uf), hnat, decide_eq_decide]
  omega

/-- The double of a finite number is finite exactly if its pattern is. -/
lemma le_maxFinite_iff (f : single.Pattern) :
    |2 * f.value| ≤ single.maxFinite ↔ single.twice f.bits < single.infinity := by
  rw [abs_mul, abs_two, f.abs_value, ← FloatFormat.magnitude_twice,
    FloatFormat.magnitude_le_maxFinite]

lemma value_of_twice {f g : single.Pattern} (hneg : g.negative = f.negative)
    (hbits : g.bits = single.twice f.bits) : g.value = 2 * f.value := by
  rw [FloatFormat.Pattern.value, FloatFormat.Pattern.value, hneg, hbits,
    FloatFormat.magnitude_twice]
  split <;> ring

lemma doubles_special (h : ¬(u2f uf).IsFinite) : Doubles uf r ↔ r = uf :=
  ⟨fun hr => hr.special h, fun hr => ⟨fun _ => hr, fun hfin => absurd hfin h, fun hfin => absurd hfin h⟩⟩

/-- The double of a finite number has one pattern: only its overflow is not exact. -/
theorem doubles_finite (h : (u2f uf).IsFinite) : Doubles uf r ↔ (u2f r).negative = (u2f uf).negative ∧
    (u2f r).bits = min (single.twice (u2f uf).bits) single.infinity := by
  constructor
  · intro hr
    rcases lt_or_ge (single.twice (u2f uf).bits) single.infinity with hlt | hge
    · obtain ⟨-, hvalue, hneg⟩ := hr.doubled h ((le_maxFinite_iff _).mpr hlt)
      have habs := congrArg abs hvalue
      rw [abs_mul, abs_two, FloatFormat.Pattern.abs_value, FloatFormat.Pattern.abs_value,
        ← FloatFormat.magnitude_twice] at habs
      rw [min_eq_left hlt.le]
      exact ⟨hneg, FloatFormat.magnitude_strictMono.injective habs⟩
    · obtain ⟨hbits, hneg⟩ := hr.overflow h (not_le.mp (mt (le_maxFinite_iff _).mp hge.not_gt))
      rw [min_eq_right hge]
      exact ⟨hneg, hbits⟩
  · rintro ⟨hneg, hbits⟩
    refine ⟨fun hspecial => absurd h hspecial, fun _ hmax => ?_, fun _ hover => ?_⟩
    · have hlt := (le_maxFinite_iff _).mp hmax
      rw [min_eq_left hlt.le] at hbits
      exact ⟨hbits.trans_lt hlt, value_of_twice hneg hbits, hneg⟩
    · have hge := mt (le_maxFinite_iff _).mpr hover.not_ge
      rw [min_eq_right (not_lt.mp hge)] at hbits
      exact ⟨hbits, hneg⟩

lemma eq_f2u_iff {f : single.Pattern} : r = f2u f ↔ u2f r = f := by
  constructor
  · rintro rfl
    exact u2f_f2u f
  · rintro rfl
    exact (f2u_u2f r).symm

/-- The words with the property are those that the test of `float_twice` computes. -/
theorem doubles_iff_test (uf r : Word) : Doubles uf r ↔ TestFloatTwice uf r := by
  simp only [TestFloatTwice, IsDouble, eq_f2u_iff, exists_eq_right']
  rcases lt_trichotomy (u2f uf).bits single.infinity with hfin | hinf | hnan
  · rw [doubles_finite hfin, if_neg (show ¬(u2f uf).IsNaN from hfin.not_gt),
      if_neg (show ¬(u2f uf).IsInfinite from hfin.ne),
      FloatFormat.rounds_iff_of_magnitude]
    rw [abs_mul, abs_two, FloatFormat.Pattern.abs_value, FloatFormat.magnitude_twice]
  · rw [doubles_special (show ¬(u2f uf).IsFinite from hinf.not_lt),
      if_neg (show ¬(u2f uf).IsNaN from hinf.not_gt),
      if_pos (show (u2f uf).IsInfinite from hinf), ← eq_f2u_iff, f2u_u2f]
  · rw [doubles_special (show ¬(u2f uf).IsFinite from hnan.not_gt),
      if_pos (show (u2f uf).IsNaN from hnan)]

/-- The largest exponent is the one before infinity's. -/
lemma twice_le_infinity_iff (h : (u2f uf).IsFinite) :
    single.twice (u2f uf).bits ≤ single.infinity ↔
      ¬(uf &&& 0x7f800000 = 0x7f000000 ∧ uf &&& 0x007fffff ≠ 0) := by
  have hexp : uf &&& 0x7f800000 = 0x7f000000 ↔ (u2f uf).bits / 2 ^ 23 = 254 :=
    exponent_mask (e := 254) (by norm_num)
  rw [isFinite_iff] at h
  rw [hexp, Ne, fraction_mask, single_twice, single_infinity]
  split <;> omega

/-- `float_twice` doubles exactly the words that are not of the largest finite exponent with a
fraction. -/
theorem floatTwice_doubles_iff (uf : Word) : Doubles uf (floatTwice uf) ↔
    ¬(uf &&& 0x7f800000 = 0x7f000000 ∧ uf &&& 0x007fffff ≠ 0) := by
  by_cases hfin : (u2f uf).IsFinite
  swap
  · have hmask : uf &&& 0x7f800000 ≠ 0x7f000000 := by
      refine mt (exponent_mask (e := 254) (by norm_num)).mp ?_
      rw [isFinite_iff] at hfin
      omega
    exact iff_of_true ((doubles_special hfin).mpr (floatTwice_special hfin)) fun h => hmask h.1
  obtain ⟨hneg, hbits⟩ := u2f_floatTwice hfin
  rw [doubles_finite hfin, hneg, hbits, eq_self, true_and, left_eq_inf, twice_le_infinity_iff hfin]

/-- A number above half of the largest finite one gets the exponent of infinity and keeps its
fraction, which makes it a NaN. -/
theorem floatTwice_gives_nan : (u2f 0x7f000001).IsFinite ∧ (u2f (floatTwice 0x7f000001)).IsNaN ∧
    ¬Doubles 0x7f000001 (floatTwice 0x7f000001) := by
  have hnan : (u2f (floatTwice 0x7f000001)).IsNaN := by decide
  refine ⟨by decide, hnan, fun h => ?_⟩
  have hover : single.maxFinite < |2 * (u2f 0x7f000001).value| := by
    rw [← not_le, le_maxFinite_iff]
    decide
  exact hnan.ne' (h.overflow (by decide) hover).1

end SystemsLabs.Bits
