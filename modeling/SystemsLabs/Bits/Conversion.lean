import SystemsLabs.Bits.Puzzles

/-!
# Converting an integer

The loop of `float_i2f` finds the position of the first bit of the argument. The bits behind it
fill the fraction, and what does not fit there decides the rounding. A carry out of the fraction
goes into the exponent field, where it belongs.
-/

namespace SystemsLabs.Bits

open Library

variable {x sign : Word} {n exp : ℕ}

lemma toNat_sshiftRight (hx : x.toNat < 2 ^ 31) (k : ℕ) :
    (x.sshiftRight k).toNat = x.toNat / 2 ^ k := by
  have hmsb : x.msb = false := by
    rw [BitVec.msb_eq_decide, decide_eq_false_iff_not]
    omega
  rw [BitVec.toNat_sshiftRight_of_msb_false hmsb, Nat.shiftRight_eq_div_pow]

/-- The loop ends at the first shift that moves every bit out. -/
lemma expLoop_eq (hx : x.toNat < 2 ^ 31) (hcount : n + exp = 32) (hexp : 0 < exp)
    (hle : 2 ^ (exp - 1) ≤ x.toNat) : expLoop x n exp = some (Nat.log 2 x.toNat + 1) := by
  induction n generalizing exp with
  | zero =>
    obtain rfl : exp = 32 := by omega
    omega
  | succ n ih =>
    have hpos : 0 < 2 ^ exp := by positivity
    have hzero : x.sshiftRight exp = 0 ↔ x.toNat < 2 ^ exp := by
      rw [← BitVec.toNat_inj, toNat_sshiftRight hx]
      exact Nat.div_eq_zero_iff_lt hpos
    rw [expLoop]
    split_ifs with hshift hexp0
    · have hlog : Nat.log 2 x.toNat = exp - 1 := by
        apply Nat.log_eq_of_pow_le_of_lt_pow hle
        rw [Nat.sub_add_cancel hexp]
        exact hzero.mp hshift
      rw [hlog, Nat.sub_add_cancel hexp]
    · omega
    · exact ih (by omega) (by omega) (not_lt.mp (mt hzero.mpr hshift))

/-- The loop ends for every positive number, and `exp` is the position of its first bit. -/
theorem findExp_eq (hx : x.toNat < 2 ^ 31) (hpos : 0 < x.toNat) :
    findExp x = some (Nat.log 2 x.toNat) := by
  rw [findExp, expLoop_eq hx (by norm_num) one_pos hpos]
  rfl

lemma positive_toNat (hmin : x ≠ 0x80000000) :
    (positive x).toNat = x.toInt.natAbs ∧ (positive x).toNat < 2 ^ 31 := by
  have hlt := x.isLt
  have hne : x.toNat ≠ 2 ^ 31 := fun h => hmin (BitVec.toNat_inj.mp h)
  have hsign : x &&& 0x80000000 ≠ 0 ↔ 2 ^ 31 ≤ x.toNat := by
    rw [Ne, ← BitVec.toNat_inj, sign_mask, show (0 : Word).toNat = 0 from rfl]
    omega
  rw [positive, BitVec.toInt_eq_toNat_cond]
  by_cases h : 2 ^ 31 ≤ x.toNat
  · rw [if_pos (hsign.mpr h), if_neg (by omega), BitVec.toNat_neg]
    omega
  · rw [if_neg (mt hsign.mp h), if_pos (by omega)]
    omega

/-- The bits behind the first one, in front of a byte that is cut off. -/
def cutBits (n exp : ℕ) : ℕ := n * 2 ^ (31 - exp) % 2 ^ 31

/-- Shifted up, the first bit is at the place of the sign. -/
lemma cutBits_spec (hlow : 2 ^ exp ≤ n) (hhigh : n < 2 ^ (exp + 1)) (hexp : exp ≤ 30) :
    n * 2 ^ (31 - exp) = 2 ^ 31 + cutBits n exp ∧ cutBits n exp < 2 ^ 31 := by
  have hpos : 0 < 2 ^ (31 - exp) := by positivity
  have hfirst : 2 ^ exp * 2 ^ (31 - exp) = 2 ^ 31 := by
    rw [← pow_add, Nat.add_sub_cancel' (show exp ≤ 31 by omega)]
  have hlow' := Nat.mul_le_mul_right (2 ^ (31 - exp)) hlow
  have hhigh' := Nat.mul_lt_mul_of_pos_right hhigh hpos
  rw [hfirst] at hlow'
  rw [pow_succ, mul_right_comm, hfirst] at hhigh'
  rw [cutBits]
  generalize n * 2 ^ (31 - exp) = shifted at hlow' hhigh' ⊢
  omega

lemma cutBits_exact (hexp : exp ≤ 23) : cutBits n exp % 256 = 0 := by
  have hsplit : 2 ^ (31 - exp) = 2 ^ (23 - exp) * 256 := by
    rw [show 31 - exp = 23 - exp + 8 by omega, pow_add]
    norm_num
  rw [cutBits, hsplit, ← mul_assoc]
  generalize n * 2 ^ (23 - exp) = quotient
  omega

/-- The rounding of `float_i2f`: up if more than half a unit is cut off, or exactly half a unit
behind an odd fraction. -/
def roundsUp (cut : ℕ) : Prop := 128 < cut % 256 ∨ cut % 256 = 128 ∧ cut / 256 % 2 = 1

instance (cut : ℕ) : Decidable (roundsUp cut) := inferInstanceAs (Decidable (_ ∨ _))

/-- The pattern of the result without its sign. -/
def roundedBits (n exp : ℕ) : ℕ :=
  (exp + 127) * 2 ^ 23 + cutBits n exp / 256 + if roundsUp (cutBits n exp) then 1 else 0

lemma packI2f_toNat (hlow : 2 ^ exp ≤ x.toNat) (hhigh : x.toNat < 2 ^ (exp + 1)) (hexp : exp ≤ 30)
    (hsign : sign.toNat ≤ 2 ^ 31) :
    (packI2f sign x exp).toNat = sign.toNat + roundedBits x.toNat exp := by
  obtain ⟨hshift, hcut⟩ := cutBits_spec hlow hhigh hexp
  have hmantissa : ((x <<< (31 - exp)) &&& 0x7fffffff).toNat = cutBits x.toNat exp := by
    rw [BitVec.toNat_and, show (0x7fffffff : Word).toNat = 2 ^ 31 - 1 from rfl,
      Nat.and_two_pow_sub_one_eq_mod, BitVec.toNat_shiftLeft, Nat.shiftLeft_eq, hshift]
    omega
  simp only [packI2f]
  generalize (x <<< (31 - exp)) &&& 0x7fffffff = mantissa at hmantissa
  have hround : (mantissa &&& 0xff).toNat = cutBits x.toNat exp % 256 := by
    rw [BitVec.toNat_and, show (0xff : Word).toNat = 2 ^ 8 - 1 from rfl,
      Nat.and_two_pow_sub_one_eq_mod, hmantissa]
  have hfraction : (mantissa.sshiftRight 8).toNat = cutBits x.toNat exp / 256 := by
    rw [toNat_sshiftRight (by omega), hmantissa]
    rfl
  have hodd : mantissa.sshiftRight 8 &&& 1 ≠ 0 ↔ cutBits x.toNat exp / 256 % 2 = 1 := by
    rw [Ne, ← BitVec.toNat_inj, BitVec.toNat_and, hfraction, show (1 : Word).toNat = 1 from rfl,
      show (0 : Word).toNat = 0 from rfl, land_one]
    omega
  have hhalf : mantissa &&& 0xff = 0x80 ↔ cutBits x.toNat exp % 256 = 128 := by
    rw [← BitVec.toNat_inj, hround]
    rfl
  have habove : BitVec.slt 0x80 (mantissa &&& 0xff) ↔ 128 < cutBits x.toNat exp % 256 := by
    rw [BitVec.slt_iff_toInt_lt, BitVec.toInt_eq_toNat_of_lt (x := mantissa &&& 0xff) (by omega),
      hround, show (0x80 : Word).toInt = 128 from rfl]
    omega
  have hcond : (23 < exp ∧ (BitVec.slt 0x80 (mantissa &&& 0xff) ∨
      mantissa &&& 0xff = 0x80 ∧ mantissa.sshiftRight 8 &&& 1 ≠ 0)) ↔
      roundsUp (cutBits x.toNat exp) := by
    rw [habove, hhalf, hodd, roundsUp, and_iff_right_iff_imp]
    intro hcut
    by_contra hsmall
    have := cutBits_exact (n := x.toNat) (not_lt.mp hsmall)
    omega
  have hfield : (BitVec.ofNat 32 (exp + 127) <<< 23).toNat = (exp + 127) * 2 ^ 23 := by
    rw [BitVec.toNat_shiftLeft, Nat.shiftLeft_eq, BitVec.toNat_ofNat]
    omega
  simp only [hcond, roundedBits]
  by_cases hup : roundsUp (cutBits x.toNat exp)
  · rw [if_pos hup, if_pos hup, BitVec.toNat_add, BitVec.toNat_add, BitVec.toNat_add, hfield,
      hfraction, show (1 : Word).toNat = 1 from rfl]
    omega
  · rw [if_neg hup, if_neg hup, BitVec.toNat_add, BitVec.toNat_add, hfield, hfraction]
    omega

lemma cutBits_value (hlow : 2 ^ exp ≤ n) (hhigh : n < 2 ^ (exp + 1)) (hexp : exp ≤ 30) :
    let p := (exp + 127) * 2 ^ 23 + cutBits n exp / 256
    (n : ℚ) = (single.significand p + (cutBits n exp % 256 : ℕ) / 256) * 2 ^ single.exponent p := by
  intro p
  obtain ⟨hshift, hcut⟩ := cutBits_spec hlow hhigh hexp
  have hfraction : cutBits n exp / 256 < 2 ^ single.fracBits := by
    rw [Nat.div_lt_iff_lt_mul (by norm_num)]
    exact hcut
  have hsig : single.significand p = 2 ^ 23 + cutBits n exp / 256 :=
    FloatFormat.significand_normal (by omega) hfraction
  have hexponent : single.exponent p = exp - 23 := by
    refine (FloatFormat.exponent_normal (by omega) hfraction).trans ?_
    rw [show single.bias = 127 from rfl, show single.fracBits = 23 from rfl]
    push_cast
    ring
  have hscale : (2 : ℚ) ^ (exp - 23 : ℤ) * 2 ^ (31 - exp) = 256 := by
    rw [← zpow_natCast, ← zpow_add₀ two_ne_zero, Nat.cast_sub (by omega)]
    norm_num
  have hcast : (n : ℚ) * 2 ^ (31 - exp) = 2 ^ 31 + cutBits n exp := by exact_mod_cast hshift
  have hsplit : (256 * (cutBits n exp / 256 : ℕ) + (cutBits n exp % 256 : ℕ) : ℚ) =
      cutBits n exp := by
    exact_mod_cast Nat.div_add_mod (cutBits n exp) 256
  apply mul_right_cancel₀ (pow_ne_zero (31 - exp) (two_ne_zero (α := ℚ)))
  rw [hexponent, mul_assoc, hscale, hcast, hsig, ← hsplit]
  push_cast
  ring

theorem roundsBits_roundedBits (hlow : 2 ^ exp ≤ n) (hhigh : n < 2 ^ (exp + 1)) (hexp : exp ≤ 30) :
    single.RoundsBits n (roundedBits n exp) := by
  have hrem : ((cutBits n exp % 256 : ℕ) : ℚ) < 256 := by
    exact_mod_cast Nat.mod_lt (cutBits n exp) (by norm_num)
  have hround := FloatFormat.roundsBits_of_fraction (cutBits_value hlow hhigh hexp)
    (by positivity) ((div_le_one (by norm_num)).mpr hrem.le)
  have habove : (1 / 2 : ℚ) < (cutBits n exp % 256 : ℕ) / 256 ↔ 128 < cutBits n exp % 256 := by
    rw [div_lt_div_iff₀ (by norm_num) (by norm_num)]
    norm_cast
    omega
  have hhalf : ((cutBits n exp % 256 : ℕ) / 256 : ℚ) = 1 / 2 ↔ cutBits n exp % 256 = 128 := by
    rw [div_eq_div_iff (by norm_num) (by norm_num)]
    norm_cast
    omega
  have hodd : ¬Even ((exp + 127) * 2 ^ 23 + cutBits n exp / 256) ↔ cutBits n exp / 256 % 2 = 1 := by
    rw [Nat.not_even_iff]
    omega
  have hcond : ((1 / 2 : ℚ) < (cutBits n exp % 256 : ℕ) / 256 ∨
      ((cutBits n exp % 256 : ℕ) / 256 : ℚ) = 1 / 2 ∧
        ¬Even ((exp + 127) * 2 ^ 23 + cutBits n exp / 256)) ↔ roundsUp (cutBits n exp) := by
    rw [habove, hhalf, hodd, roundsUp]
  rw [if_congr hcond rfl rfl] at hround
  rw [roundedBits]
  split_ifs at hround ⊢
  · exact hround
  · rw [add_zero]
    exact hround

lemma roundedBits_lt (hlow : 2 ^ exp ≤ n) (hhigh : n < 2 ^ (exp + 1)) (hexp : exp ≤ 30) :
    roundedBits n exp < single.infinity := by
  obtain ⟨-, hcut⟩ := cutBits_spec hlow hhigh hexp
  rw [roundedBits, single_infinity]
  split <;> omega

lemma floatI2f_fields (hzero : x ≠ 0) (hmin : x ≠ 0x80000000) :
    findExp (positive x) = some (Nat.log 2 x.toInt.natAbs) ∧
      ∃ r, floatI2f x = some r ∧ (u2f r).negative = decide (x.toInt < 0) ∧
        (u2f r).bits = roundedBits x.toInt.natAbs (Nat.log 2 x.toInt.natAbs) ∧
        (u2f r).bits < single.infinity ∧ single.RoundsBits x.toInt.natAbs (u2f r).bits := by
  obtain ⟨habs, hlt⟩ := positive_toNat hmin
  have hne : x.toInt ≠ 0 := fun h => hzero (BitVec.toInt_inj.mp (h.trans BitVec.toInt_zero.symm))
  have hpos : 0 < (positive x).toNat := by omega
  have hfind := findExp_eq hlt hpos
  have hlow := Nat.pow_log_le_self 2 hpos.ne'
  have hhigh := Nat.lt_pow_succ_log_self one_lt_two (positive x).toNat
  have hexp : Nat.log 2 (positive x).toNat ≤ 30 :=
    Nat.lt_succ_iff.mp (Nat.log_lt_of_lt_pow hpos.ne' hlt)
  have hsign := sign_mask x
  have hx := x.isLt
  have hpack := packI2f_toNat hlow hhigh hexp (show (x &&& 0x80000000).toNat ≤ 2 ^ 31 by omega)
  have hbits := roundedBits_lt hlow hhigh hexp
  have hrounds := roundsBits_roundedBits hlow hhigh hexp
  rw [habs] at hfind hpack hbits hrounds
  refine ⟨hfind, packI2f (x &&& 0x80000000) (positive x) (Nat.log 2 x.toInt.natAbs), ?_, ?_⟩
  · simp only [floatI2f, if_neg hzero, if_neg hmin, hfind, Option.map_some]
  · have hbits' := hbits
    rw [single_infinity] at hbits'
    have hresult : (u2f (packI2f (x &&& 0x80000000) (positive x)
        (Nat.log 2 x.toInt.natAbs))).bits = roundedBits x.toInt.natAbs (Nat.log 2 x.toInt.natAbs) := by
      rw [u2f_bits, hpack]
      omega
    have hnegative : x.toInt < 0 ↔ 2 ^ 31 ≤ x.toNat := by
      rw [BitVec.toInt_eq_toNat_cond]
      split <;> omega
    rw [hresult, u2f_negative, hpack, decide_eq_decide, hnegative]
    exact ⟨by omega, rfl, hbits, hrounds⟩

/-- `float_i2f` returns the conversion of its argument, which is finite. -/
theorem floatI2f_rounds (x : Word) : ∃ r, floatI2f x = some r ∧ (u2f r).IsFinite ∧
    single.Rounds (decide (x.toInt < 0)) x.toInt (u2f r) := by
  by_cases hzero : x = 0
  · subst hzero
    refine ⟨0, rfl, by decide, ?_⟩
    rw [FloatFormat.rounds_iff_of_magnitude (p := 0) (by simp)]
    decide
  by_cases hmin : x = 0x80000000
  · subst hmin
    have hvalue : |((0x80000000 : Word).toInt : ℚ)| = single.magnitude (158 * 2 ^ 23 + 0) := by
      refine Eq.trans ?_ (FloatFormat.magnitude_normal (F := single) (e := 158) (s := 0)
        (by norm_num) (Nat.zero_le _)).symm
      rw [show single.bias = 127 from rfl, show single.fracBits = 23 from rfl,
        show (0x80000000 : Word).toInt = -2 ^ 31 from rfl]
      norm_num
    refine ⟨0xcf000000, rfl, by decide, ?_⟩
    rw [FloatFormat.rounds_iff_of_magnitude hvalue]
    decide
  obtain ⟨-, r, heq, hnegative, -, hfinite, hrounds⟩ := floatI2f_fields hzero hmin
  refine ⟨r, heq, hfinite, hnegative, (u2f r).bits, ?_, (min_eq_left hfinite.le).symm⟩
  rw [← Int.cast_abs, ← Nat.cast_natAbs]
  exact hrounds

/-- `float_i2f` returns the word that its test computes, and no other. -/
theorem floatI2f_test (x r : Word) : floatI2f x = some r ↔ TestFloatI2f x r := by
  obtain ⟨r', heq, -, hrounds⟩ := floatI2f_rounds x
  rw [heq, Option.some.injEq, TestFloatI2f]
  constructor
  · rintro rfl
    exact ⟨u2f r', hrounds, (f2u_u2f r').symm⟩
  · rintro ⟨f, hf, rfl⟩
    rw [← hrounds.unique hf, f2u_u2f]

/-- `float_i2f` returns the word of a nearest number, with an even significand in a tie, and its loop
finds the exponent. -/
theorem floatI2f_nearest (x : Word) :
    (∃ r, floatI2f x = some r ∧ single.Nearest x.toInt (u2f r)) ∧
      (x ≠ 0 → x ≠ 0x80000000 → findExp (positive x) = some (Nat.log 2 x.toInt.natAbs)) := by
  obtain ⟨r, heq, hfinite, hrounds⟩ := floatI2f_rounds x
  refine ⟨⟨r, heq, hrounds.nearest ?_ hfinite⟩, fun hzero hmin => (floatI2f_fields hzero hmin).1⟩
  by_cases hneg : x.toInt < 0
  · have : (x.toInt : ℚ) < 0 := by exact_mod_cast hneg
    simpa [hneg] using this.le
  · have : (0 : ℚ) ≤ x.toInt := by exact_mod_cast not_lt.mp hneg
    simpa [hneg] using this

/-- One more than `2 ^ 24` is halfway between two numbers. -/
theorem floatI2f_nearest_tie : (∃ r, floatI2f 16777217 = some r ∧ single.Nearest 16777217 (u2f r)) ∧
    findExp (positive 16777217) = some 24 := by
  obtain ⟨hnearest, hexp⟩ := floatI2f_nearest 16777217
  exact ⟨hnearest, hexp (by decide) (by decide)⟩

end SystemsLabs.Bits
