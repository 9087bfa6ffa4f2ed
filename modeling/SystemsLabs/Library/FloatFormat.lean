import Mathlib.Tactic

/-!
# Binary floating-point formats

A binary interchange format has a sign, an exponent field and a fraction field. The pattern of a
magnitude is the number that the two fields form, and the magnitude grows strictly with it. This
still holds when the exponent field is not bounded, so that rounding is to the nearest among all
natural numbers, and a result from the pattern of infinity on overflows to infinity.
-/

namespace SystemsLabs.Library

/-- The widths of the two fields of a magnitude. -/
structure FloatFormat where
  expBits : ℕ
  fracBits : ℕ
  expBits_pos : 0 < expBits
  fracBits_pos : 0 < fracBits

namespace FloatFormat

variable (F : FloatFormat)

def bias : ℕ := 2 ^ (F.expBits - 1) - 1

/-- The pattern of infinity: only the exponent field is set. -/
def infinity : ℕ := (2 ^ F.expBits - 1) * 2 ^ F.fracBits

/-- The significand of a pattern as an integer. A pattern without an exponent is subnormal. -/
def significand (p : ℕ) : ℕ :=
  if p < 2 ^ F.fracBits then p else 2 ^ F.fracBits + p % 2 ^ F.fracBits

/-- The exponent of the last bit of the significand. -/
def exponent (p : ℕ) : ℤ := (max (p / 2 ^ F.fracBits) 1 : ℕ) - F.bias - F.fracBits

def magnitude (p : ℕ) : ℚ := F.significand p * 2 ^ F.exponent p

/-- A pattern with its sign. -/
@[ext] structure Pattern where
  negative : Bool
  bits : ℕ
  bits_lt : bits < 2 ^ (F.expBits + F.fracBits)

variable {F}

def Pattern.IsNaN (d : F.Pattern) : Prop := F.infinity < d.bits

def Pattern.IsInfinite (d : F.Pattern) : Prop := d.bits = F.infinity

def Pattern.IsFinite (d : F.Pattern) : Prop := d.bits < F.infinity

instance (d : F.Pattern) : Decidable d.IsNaN := inferInstanceAs (Decidable (_ < _))

instance (d : F.Pattern) : Decidable d.IsInfinite := inferInstanceAs (Decidable (_ = _))

instance (d : F.Pattern) : Decidable d.IsFinite := inferInstanceAs (Decidable (_ < _))

/-- The number that a finite pattern encodes. -/
def Pattern.value (d : F.Pattern) : ℚ :=
  if d.negative then -F.magnitude d.bits else F.magnitude d.bits

/-- The word of a pattern: the sign is its first bit. -/
def Pattern.pack (d : F.Pattern) : ℕ :=
  (if d.negative then 2 ^ (F.expBits + F.fracBits) else 0) + d.bits

variable (F)

def unpack (n : ℕ) : F.Pattern :=
  ⟨decide (2 ^ (F.expBits + F.fracBits) ≤ n), n % 2 ^ (F.expBits + F.fracBits),
    Nat.mod_lt _ (by positivity)⟩

/-- The largest finite magnitude. -/
def maxFinite : ℚ := F.magnitude (F.infinity - 1)

/-- The pattern of twice a magnitude, the exponent not bounded. -/
def twice (p : ℕ) : ℕ := if p < 2 ^ F.fracBits then 2 * p else p + 2 ^ F.fracBits

/-- The pattern nearest to half of a magnitude. Below the second exponent the last bit is lost. -/
def half (p : ℕ) : ℕ :=
  if p < 2 * 2 ^ F.fracBits then p / 2 + (if p % 4 = 3 then 1 else 0) else p - 2 ^ F.fracBits

/-- The pattern `p`, its exponent not bounded, is nearest to `x`, and even in a tie. -/
structure RoundsBits (x : ℚ) (p : ℕ) : Prop where
  le : ∀ q, |x - F.magnitude p| ≤ |x - F.magnitude q|
  even : ∀ q, q ≠ p → |x - F.magnitude q| = |x - F.magnitude p| → Even p

/-- The result of an operation that is exact in the rationals: `x` is rounded as if the exponent
were not bounded, and what has no finite pattern then is an infinity. -/
structure Rounds (negative : Bool) (x : ℚ) (d : F.Pattern) : Prop where
  negative_eq : d.negative = negative
  bits_eq : ∃ p, F.RoundsBits |x| p ∧ d.bits = min p F.infinity

/-- The finite pattern `d` encodes a number nearest to `x` and has an even significand in a tie. -/
structure Nearest (x : ℚ) (d : F.Pattern) : Prop where
  finite : d.IsFinite
  le : ∀ c : F.Pattern, c.IsFinite → |x - d.value| ≤ |x - c.value|
  even : ∀ c : F.Pattern, c.IsFinite → c.value ≠ d.value → |x - c.value| = |x - d.value| →
    Even (F.significand d.bits)

section Magnitudes

variable {F} {p q s e : ℕ}

@[simp] lemma unpack_pack (d : F.Pattern) : F.unpack d.pack = d := by
  have hlt := d.bits_lt
  ext
  · cases hneg : d.negative <;> simp [unpack, Pattern.pack, hneg, hlt]
  · cases hneg : d.negative <;> simp [unpack, Pattern.pack, hneg, Nat.mod_eq_of_lt hlt]

lemma pack_unpack {n : ℕ} (hn : n < 2 * 2 ^ (F.expBits + F.fracBits)) : (F.unpack n).pack = n := by
  by_cases h : 2 ^ (F.expBits + F.fracBits) ≤ n
  · have hmod : n % 2 ^ (F.expBits + F.fracBits) = n - 2 ^ (F.expBits + F.fracBits) := by
      rw [Nat.mod_eq_sub_mod h, Nat.mod_eq_of_lt (by omega)]
    simp only [Pattern.pack, unpack, h, decide_true, if_true, hmod]
    omega
  · simp [Pattern.pack, unpack, h, Nat.mod_eq_of_lt (not_le.mp h)]

/-- The subnormal patterns and those of the first exponent are evenly spaced. -/
lemma magnitude_of_le (hp : p ≤ 2 * 2 ^ F.fracBits) :
    F.magnitude p = p * 2 ^ (1 - F.bias - F.fracBits : ℤ) := by
  have hpos : 0 < 2 ^ F.fracBits := by positivity
  rcases lt_or_ge p (2 ^ F.fracBits) with hlt | hge
  · have hexp : max (p / 2 ^ F.fracBits) 1 = 1 := by simp [Nat.div_eq_of_lt hlt]
    simp [magnitude, significand, exponent, hlt, hexp]
  rcases hp.lt_or_eq with hlt | rfl
  · have hdiv : p / 2 ^ F.fracBits = 1 := Nat.div_eq_of_lt_le (by omega) (by omega)
    have hsig : F.significand p = p := by
      rw [significand, if_neg (by omega)]
      have := Nat.div_add_mod p (2 ^ F.fracBits)
      rw [hdiv] at this
      omega
    simp [magnitude, hsig, exponent, hdiv]
  · have hsig : F.significand (2 * 2 ^ F.fracBits) = 2 ^ F.fracBits := by
      rw [significand, if_neg (by omega), Nat.mul_mod_left, add_zero]
    have hexp : F.exponent (2 * 2 ^ F.fracBits) = 1 + (1 - F.bias - F.fracBits : ℤ) := by
      rw [exponent, Nat.mul_div_cancel _ hpos, max_eq_left (by omega)]
      push_cast
      ring
    rw [magnitude, hsig, hexp, zpow_add₀ two_ne_zero]
    push_cast
    ring

lemma significand_normal (he : 1 ≤ e) (hs : s < 2 ^ F.fracBits) :
    F.significand (e * 2 ^ F.fracBits + s) = 2 ^ F.fracBits + s := by
  have hge : 2 ^ F.fracBits ≤ e * 2 ^ F.fracBits := Nat.le_mul_of_pos_left _ he
  rw [significand, if_neg (by omega), mul_comm e, Nat.mul_add_mod, Nat.mod_eq_of_lt hs]

lemma exponent_normal (he : 1 ≤ e) (hs : s < 2 ^ F.fracBits) :
    F.exponent (e * 2 ^ F.fracBits + s) = e - F.bias - F.fracBits := by
  have hpos : 0 < 2 ^ F.fracBits := by positivity
  rw [exponent, mul_comm e, Nat.mul_add_div hpos, Nat.div_eq_of_lt hs, add_zero, max_eq_left he]

/-- The patterns with the exponent field `e` are evenly spaced, up to the first of the next exponent:
a carry out of the fraction gives the right exponent. -/
lemma magnitude_normal (he : 1 ≤ e) (hs : s ≤ 2 ^ F.fracBits) :
    F.magnitude (e * 2 ^ F.fracBits + s) =
      (2 ^ F.fracBits + s : ℕ) * 2 ^ (e - F.bias - F.fracBits : ℤ) := by
  have hpos : 0 < 2 ^ F.fracBits := by positivity
  rcases hs.lt_or_eq with hlt | rfl
  · rw [magnitude, significand_normal he hlt, exponent_normal he hlt]
  · have heq : e * 2 ^ F.fracBits + 2 ^ F.fracBits = (e + 1) * 2 ^ F.fracBits + 0 := by ring
    have hexp : ((e + 1 : ℕ) : ℤ) - F.bias - F.fracBits = 1 + (e - F.bias - F.fracBits) := by
      push_cast
      ring
    rw [heq, magnitude, significand_normal (by omega) hpos, exponent_normal (by omega) hpos, hexp,
      zpow_add₀ two_ne_zero]
    push_cast
    ring

/-- Neighbouring patterns differ in one unit of the last place. -/
theorem magnitude_succ (p : ℕ) : F.magnitude (p + 1) = (F.significand p + 1) * 2 ^ F.exponent p := by
  have hpos : 0 < 2 ^ F.fracBits := by positivity
  rcases lt_or_ge p (2 ^ F.fracBits) with hlt | hge
  · have hexp : max (p / 2 ^ F.fracBits) 1 = 1 := by simp [Nat.div_eq_of_lt hlt]
    rw [magnitude_of_le (by omega), significand, if_pos hlt, exponent, hexp]
    push_cast
    rfl
  · have he : 1 ≤ p / 2 ^ F.fracBits := (Nat.one_le_div_iff hpos).mpr hge
    have hs := Nat.mod_lt p hpos
    have hsplit : p + 1 = p / 2 ^ F.fracBits * 2 ^ F.fracBits + (p % 2 ^ F.fracBits + 1) := by
      rw [← add_assoc, mul_comm, Nat.div_add_mod]
    rw [hsplit, magnitude_normal he (by omega), significand, if_neg (by omega), exponent,
      max_eq_left he]
    push_cast
    ring

theorem magnitude_strictMono : StrictMono F.magnitude := by
  refine strictMono_nat_of_lt_succ fun p => ?_
  have hpos : (0 : ℚ) < 2 ^ F.exponent p := by positivity
  rw [magnitude_succ, magnitude]
  linarith

@[simp] lemma magnitude_zero : F.magnitude 0 = 0 := by simp [magnitude, significand]

lemma magnitude_nonneg (p : ℕ) : 0 ≤ F.magnitude p := by
  rw [← F.magnitude_zero]
  exact magnitude_strictMono.monotone (Nat.zero_le p)

lemma Pattern.abs_value (d : F.Pattern) : |d.value| = F.magnitude d.bits := by
  have hnonneg := magnitude_nonneg (F := F) d.bits
  rw [Pattern.value]
  split
  · rw [abs_neg, abs_of_nonneg hnonneg]
  · exact abs_of_nonneg hnonneg

lemma magnitude_le_maxFinite : F.magnitude p ≤ F.maxFinite ↔ p < F.infinity := by
  have hexp : 1 < 2 ^ F.expBits := Nat.one_lt_two_pow F.expBits_pos.ne'
  have hpos : 0 < F.infinity := Nat.mul_pos (by omega) (by positivity)
  rw [maxFinite, magnitude_strictMono.le_iff_le]
  omega

theorem magnitude_twice (p : ℕ) : F.magnitude (F.twice p) = 2 * F.magnitude p := by
  have hpos : 0 < 2 ^ F.fracBits := by positivity
  rw [twice]
  split_ifs with hlt
  · rw [magnitude_of_le (by omega), magnitude_of_le (by omega)]
    push_cast
    ring
  · have he : 1 ≤ p / 2 ^ F.fracBits := (Nat.one_le_div_iff hpos).mpr (not_lt.mp hlt)
    have hs := (Nat.mod_lt p hpos).le
    have hsplit : p = p / 2 ^ F.fracBits * 2 ^ F.fracBits + p % 2 ^ F.fracBits := by
      rw [mul_comm, Nat.div_add_mod]
    have hnext : p + 2 ^ F.fracBits =
        (p / 2 ^ F.fracBits + 1) * 2 ^ F.fracBits + p % 2 ^ F.fracBits := by
      rw [add_mul, one_mul, add_right_comm, ← hsplit]
    have hexp : ((p / 2 ^ F.fracBits + 1 : ℕ) : ℤ) - F.bias - F.fracBits =
        1 + ((p / 2 ^ F.fracBits : ℕ) - F.bias - F.fracBits) := by
      push_cast
      ring
    rw [hnext, magnitude_normal (by omega) hs, hexp, zpow_add₀ two_ne_zero]
    conv_rhs => rw [hsplit, magnitude_normal he hs]
    ring

/-- A double has an exact half. -/
lemma half_twice (p : ℕ) : F.half (F.twice p) = p := by
  rw [half, twice]
  split_ifs <;> omega

lemma twice_sub (hp : 2 * 2 ^ F.fracBits ≤ p) : F.twice (p - 2 ^ F.fracBits) = p := by
  rw [twice, if_neg (by omega), Nat.sub_add_cancel (by omega)]

lemma even_significand (p : ℕ) : Even (F.significand p) ↔ Even p := by
  have heven : Even (2 ^ F.fracBits) := (Nat.even_pow' F.fracBits_pos.ne').mpr even_two
  rw [significand]
  split_ifs with hlt
  · rfl
  · conv_rhs => rw [← Nat.div_add_mod p (2 ^ F.fracBits)]
    rw [Nat.even_add, Nat.even_add, iff_true_left heven, iff_true_left (heven.mul_right _)]

end Magnitudes

section Rounding

variable {F} {p q : ℕ} {x t : ℚ} {d d' : F.Pattern} {negative : Bool}

/-- No two patterns are both nearest: the one between two even patterns would be nearer. -/
theorem RoundsBits.unique (hp : F.RoundsBits x p) (hq : F.RoundsBits x q) : p = q := by
  wlog hlt : p < q generalizing p q
  · rcases (not_lt.mp hlt).eq_or_lt with heq | hgt
    · exact heq.symm
    · exact (this hq hp hgt).symm
  have htie : |x - F.magnitude p| = |x - F.magnitude q| := le_antisymm (hp.le q) (hq.le p)
  obtain ⟨i, hi⟩ := hp.even q hlt.ne' htie.symm
  obtain ⟨j, hj⟩ := hq.even p hlt.ne htie
  have hleft : F.magnitude p < F.magnitude (p + 1) := magnitude_strictMono (by omega)
  have hright : F.magnitude (p + 1) < F.magnitude q := magnitude_strictMono (by omega)
  have hmiddle := hp.le (p + 1)
  rcases abs_eq_abs.mp htie with heq | heq
  · linarith
  · rw [abs_of_pos (show 0 < x - F.magnitude p by linarith)] at hmiddle
    exact absurd hmiddle (not_le.mpr (abs_lt.mpr ⟨by linarith, by linarith⟩))

/-- Every other pattern is farther away, or no nearer than an even one. -/
lemma roundsBits_of_forall (h : ∀ q, q ≠ p → |x - F.magnitude p| < |x - F.magnitude q| ∨
    |x - F.magnitude p| ≤ |x - F.magnitude q| ∧ Even p) : F.RoundsBits x p := by
  constructor
  · intro q
    by_cases hq : q = p
    · rw [hq]
    · exact (h q hq).elim le_of_lt And.left
  · intro q hq htie
    exact ((h q hq).resolve_left fun hlt => hlt.ne htie.symm).2

lemma roundsBits_lower (hx : F.magnitude p ≤ x)
    (h : x - F.magnitude p < F.magnitude (p + 1) - x ∨
      x - F.magnitude p = F.magnitude (p + 1) - x ∧ Even p) : F.RoundsBits x p := by
  refine roundsBits_of_forall fun q hne => ?_
  rw [abs_of_nonneg (sub_nonneg.mpr hx)]
  rcases Nat.lt_or_gt_of_ne hne with hlt | hgt
  · have hq : F.magnitude q < F.magnitude p := magnitude_strictMono hlt
    have := le_abs_self (x - F.magnitude q)
    exact Or.inl (by linarith)
  · have hq : F.magnitude (p + 1) ≤ F.magnitude q := magnitude_strictMono.monotone hgt
    have := neg_le_abs (x - F.magnitude q)
    exact h.imp (fun hlt => by linarith) fun htie => ⟨by linarith, htie.2⟩

lemma roundsBits_upper (hx : x ≤ F.magnitude (p + 1))
    (h : F.magnitude (p + 1) - x < x - F.magnitude p ∨
      F.magnitude (p + 1) - x = x - F.magnitude p ∧ Even (p + 1)) : F.RoundsBits x (p + 1) := by
  refine roundsBits_of_forall fun q hne => ?_
  rw [abs_sub_comm, abs_of_nonneg (sub_nonneg.mpr hx)]
  rcases Nat.lt_or_gt_of_ne hne with hlt | hgt
  · have hq : F.magnitude q ≤ F.magnitude p := magnitude_strictMono.monotone (Nat.le_of_lt_succ hlt)
    have := le_abs_self (x - F.magnitude q)
    exact h.imp (fun hlt => by linarith) fun htie => ⟨by linarith, htie.2⟩
  · have hq : F.magnitude (p + 1) < F.magnitude q := magnitude_strictMono hgt
    have := neg_le_abs (x - F.magnitude q)
    exact Or.inl (by linarith)

/-- The rule of rounding to the nearest: the fraction of the last place is compared with one half. -/
theorem roundsBits_of_fraction (hx : x = (F.significand p + t) * 2 ^ F.exponent p) (h0 : 0 ≤ t)
    (h1 : t ≤ 1) : F.RoundsBits x (if 1 / 2 < t ∨ t = 1 / 2 ∧ ¬Even p then p + 1 else p) := by
  have hunit : (0 : ℚ) < 2 ^ F.exponent p := by positivity
  have hlower : x - F.magnitude p = t * 2 ^ F.exponent p := by
    rw [hx, magnitude]
    ring
  have hupper : F.magnitude (p + 1) - x = (1 - t) * 2 ^ F.exponent p := by
    rw [hx, magnitude_succ]
    ring
  have hle : F.magnitude p ≤ x := by
    rw [← sub_nonneg, hlower]
    positivity
  have hge : x ≤ F.magnitude (p + 1) := by
    rw [← sub_nonneg, hupper]
    exact mul_nonneg (by linarith) hunit.le
  split_ifs with h
  · apply roundsBits_upper hge
    rw [hlower, hupper]
    rcases h with h | ⟨rfl, hodd⟩
    · exact Or.inl (mul_lt_mul_of_pos_right (by linarith) hunit)
    · exact Or.inr ⟨by ring, Nat.even_add_one.mpr hodd⟩
  · apply roundsBits_lower hle
    rw [hlower, hupper]
    rw [not_or, not_and, not_not, not_lt] at h
    obtain ⟨hhalf, htie⟩ := h
    rcases hhalf.lt_or_eq with hlt | rfl
    · exact Or.inl (mul_lt_mul_of_pos_right (by linarith) hunit)
    · exact Or.inr ⟨by ring, htie rfl⟩

/-- A number with a pattern is not rounded. -/
lemma roundsBits_magnitude (p : ℕ) : F.RoundsBits (F.magnitude p) p :=
  roundsBits_lower le_rfl (Or.inl (by simpa using magnitude_strictMono (Nat.lt_succ_self p)))

/-- A subnormal half ends in one half of the last place, or is exact. -/
theorem roundsBits_half (p : ℕ) : F.RoundsBits (F.magnitude p / 2) (F.half p) := by
  rcases lt_or_ge p (2 * 2 ^ F.fracBits) with hp | hp
  · have hsig : F.significand (p / 2) = p / 2 := by rw [significand, if_pos (by omega)]
    have hexp : F.exponent (p / 2) = 1 - F.bias - F.fracBits := by
      rw [exponent, Nat.div_eq_of_lt (by omega)]
      rfl
    have hsplit : (p : ℚ) = 2 * (p / 2 : ℕ) + (p % 2 : ℕ) := by
      exact_mod_cast (Nat.div_add_mod p 2).symm
    have hx : F.magnitude p / 2 =
        (F.significand (p / 2) + (p % 2 : ℕ) / 2) * 2 ^ F.exponent (p / 2) := by
      rw [magnitude_of_le hp.le, hsig, hexp, hsplit]
      ring
    have hbit : ((p % 2 : ℕ) : ℚ) ≤ 1 := by exact_mod_cast Nat.le_of_lt_succ (Nat.mod_lt p two_pos)
    have hround := roundsBits_of_fraction hx (by positivity) (by linarith)
    have hup : (1 / 2 : ℚ) < (p % 2 : ℕ) / 2 ∨ ((p % 2 : ℕ) : ℚ) / 2 = 1 / 2 ∧ ¬Even (p / 2) ↔
        p % 4 = 3 := by
      rw [or_iff_right (by linarith), div_left_inj' two_ne_zero, Nat.cast_eq_one, Nat.even_iff]
      omega
    simp only [hup] at hround
    rw [half, if_pos hp]
    split_ifs at hround ⊢ <;> exact hround
  · have hexact : F.magnitude p / 2 = F.magnitude (p - 2 ^ F.fracBits) := by
      rw [div_eq_iff two_ne_zero, mul_comm, ← magnitude_twice, twice_sub hp]
    rw [hexact, half, if_neg (not_lt.mpr hp)]
    exact roundsBits_magnitude _

theorem Rounds.unique (h : F.Rounds negative x d) (h' : F.Rounds negative x d') : d = d' := by
  obtain ⟨p, hp, hd⟩ := h.bits_eq
  obtain ⟨q, hq, hd'⟩ := h'.bits_eq
  obtain rfl := hp.unique hq
  exact Pattern.ext (h.negative_eq.trans h'.negative_eq.symm) (hd.trans hd'.symm)

lemma rounds_iff_of_magnitude (hx : |x| = F.magnitude p) :
    F.Rounds negative x d ↔ d.negative = negative ∧ d.bits = min p F.infinity := by
  constructor
  · rintro ⟨hneg, q, hq, hbits⟩
    rw [hx] at hq
    obtain rfl := hq.unique (roundsBits_magnitude p)
    exact ⟨hneg, hbits⟩
  · rintro ⟨hneg, hbits⟩
    exact ⟨hneg, p, hx ▸ roundsBits_magnitude p, hbits⟩

/-- The distance to a number of the other sign is no smaller than the distance to zero. -/
lemma abs_sub_value (hx : 0 ≤ if negative then -x else x) (c : F.Pattern) :
    |x - c.value| = if c.negative = negative then |(|x| - F.magnitude c.bits)|
      else |x| + F.magnitude c.bits := by
  have hc := magnitude_nonneg (F := F) c.bits
  cases negative <;> cases hneg : c.negative <;>
    simp only [Bool.false_eq_true, if_true, if_false, reduceCtorEq, Pattern.value, hneg] at hx ⊢
  · rw [abs_of_nonneg hx]
  · rw [abs_of_nonneg hx, sub_neg_eq_add, abs_of_nonneg (by linarith)]
  · rw [abs_of_nonpos (by linarith), abs_of_nonpos (by linarith)]
    ring
  · rw [abs_of_nonpos (show x ≤ 0 by linarith), sub_neg_eq_add, ← abs_neg]
    ring_nf

/-- Rounding gives a nearest finite number when it does not overflow. -/
theorem Rounds.nearest (h : F.Rounds negative x d) (hx : 0 ≤ if negative then -x else x)
    (hfin : d.IsFinite) : F.Nearest x d := by
  obtain ⟨p, hp, hd⟩ := h.bits_eq
  have hbits : d.bits = p := by
    have : min p F.infinity < F.infinity := hd ▸ hfin
    omega
  subst hbits
  have hdist := abs_sub_value hx d
  rw [if_pos h.negative_eq] at hdist
  have hzero := hp.le 0
  rw [magnitude_zero, sub_zero, abs_abs] at hzero
  refine ⟨hfin, fun c _ => ?_, fun c _ hne htie => ?_⟩
  · rw [hdist, abs_sub_value hx c]
    split_ifs
    · exact hp.le c.bits
    · have := magnitude_nonneg (F := F) c.bits
      linarith
  · rw [hdist, abs_sub_value hx c] at htie
    rw [even_significand]
    split_ifs at htie with hsign
    · refine hp.even c.bits (fun heq => hne ?_) htie
      rw [Pattern.value, Pattern.value, heq, hsign, h.negative_eq]
    · -- a tie with a number of the other sign is a tie with zero
      have hc := magnitude_nonneg (F := F) c.bits
      have hc0 : F.magnitude c.bits = F.magnitude 0 := by
        rw [magnitude_zero]
        linarith
      have hbits0 : d.bits ≠ 0 := by
        intro heq
        refine hne ?_
        rw [Pattern.value, Pattern.value, magnitude_strictMono.injective hc0, heq]
        simp
      refine hp.even 0 hbits0.symm ?_
      rw [magnitude_zero, sub_zero, abs_abs]
      rw [hc0, magnitude_zero, add_zero] at htie
      exact htie

end Rounding

end FloatFormat

end SystemsLabs.Library
