import SystemsLabs.Bits.Conversion
import SystemsLabs.Bits.Integers
import SystemsLabs.Bits.Twice

/-!
# The test program

`btest` compares every puzzle with its reference on values that `gen_vals` generates. For the
floating-point puzzles these are the words next to a few chosen ones. No word is among them on which
`float_twice` is wrong, so the program finds no error.
-/

namespace SystemsLabs.Bits

open Library

/-! ### float_neg and the references -/

def floatNeg (uf : Word) : Word :=
  if 0x7F800000 &&& uf = 0x7F800000 ∧ 0x7FFFFF &&& uf ≠ 0 then uf else uf ^^^ 0x80000000

/-- Negation changes the sign of a number, of whatever kind. -/
def negatePattern (f : single.Pattern) : single.Pattern := ⟨!f.negative, f.bits, f.bits_lt⟩

/-- What the machine computes with numbers of the type `float`. -/
structure FloatUnit where
  double : single.Pattern → single.Pattern
  ofInt : Word → single.Pattern
  double_spec : ∀ f, ¬f.IsNaN → IsDouble f (double f)
  ofInt_spec : ∀ x, single.Rounds (decide (x.toInt < 0)) x.toInt (ofInt x)

def testFloatNeg (uf : Word) : Word :=
  let f := u2f uf
  let nf := negatePattern f
  if f.IsNaN then uf else f2u nf

def testFloatI2f (fpu : FloatUnit) (x : Word) : Word :=
  let f := fpu.ofInt x
  f2u f

def testFloatTwice (fpu : FloatUnit) (uf : Word) : Word :=
  let f := u2f uf
  let tf := fpu.double f
  if f.IsNaN then uf else f2u tf

/-! ### The table of tests -/

/-- `test_rec`. The functions take the list of their arguments. They are undefined on some. -/
structure TestRec where
  name : String
  solutionFunct : List Word → Option Word
  testFunct : List Word → Option Word
  args : ℕ
  rating : ℕ
  argRanges : List (ℤ × ℤ)

def tMin : ℤ := -2 ^ 31

def tMax : ℤ := 2 ^ 31 - 1

/-- A function of one argument. -/
def funct1 (f : Word → Option Word) : List Word → Option Word
  | x :: _ => f x
  | _ => none

/-- A function of two arguments. -/
def funct2 (f : Word → Word → Option Word) : List Word → Option Word
  | x :: y :: _ => f x y
  | _ => none

def testSet (fpu : FloatUnit) : List TestRec :=
  [⟨"bitOr", funct2 (fun x y => bitOr x y), funct2 (fun x y => testBitOr x y), 2, 1,
    [(tMin, tMax), (tMin, tMax), (tMin, tMax)]⟩,
  ⟨"addOK", funct2 (fun x y => addOK x y), funct2 (fun x y => testAddOK x y), 2, 3,
    [(tMin, tMax), (tMin, tMax), (tMin, tMax)]⟩,
  ⟨"negate", funct1 (fun x => negate x), funct1 (fun x => testNegate x), 1, 2,
    [(tMin, tMax), (tMin, tMax), (tMin, tMax)]⟩,
  ⟨"logicalShift", funct2 logicalShift, funct2 testLogicalShift, 2, 3,
    [(tMin, tMax), (0, 31), (tMin, tMax)]⟩,
  ⟨"bitCount", funct1 (fun x => bitCount x), funct1 (fun x => testBitCount x), 1, 4,
    [(tMin, tMax), (tMin, tMax), (tMin, tMax)]⟩,
  ⟨"float_neg", funct1 (fun x => floatNeg x), funct1 (fun x => testFloatNeg x), 1, 2,
    [(1, 1), (1, 1), (1, 1)]⟩,
  ⟨"float_i2f", funct1 floatI2f, funct1 (fun x => testFloatI2f fpu x), 1, 4,
    [(1, 1), (1, 1), (1, 1)]⟩,
  ⟨"float_twice", funct1 (fun x => floatTwice x), funct1 (fun x => testFloatTwice fpu x), 1, 4,
    [(1, 1), (1, 1), (1, 1)]⟩]

/-! ### `gen_vals` -/

/-- `TEST_RANGE` -/
def testRange : ℕ := 500000

/-- `MAX_TEST_VALS` -/
def maxTestVals : ℕ := 13 * testRange

/-- The values from one round of the loop for the floating-point puzzles. -/
def floatRound (i : ℕ) : List Word :=
  let i := BitVec.ofNat 32 i
  let smallestNorm : Word := 0x00800000
  let one : Word := 0x3f800000
  let largestNorm : Word := 0x7f000000
  let sign : Word := 0x80000000
  [i, sign ||| i, smallestNorm + i, smallestNorm - i, sign ||| (smallestNorm + i),
    sign ||| (smallestNorm - i), one + i, one - i, sign ||| (one + i), sign ||| (one - i),
    largestNorm - i, sign ||| (largestNorm - i)]

/-- The infinities and two words that are no number. -/
def specialVals : List Word := [0x7f800000, 0xff800000, 0x7fc00000, 0xffc00000]

/-- The values from one round of the loop for the other puzzles. The last one is random. -/
def sampleRound (random : ℕ → Word) (min max : ℤ) (i : ℕ) : List Word :=
  [BitVec.ofInt 32 (min + i), BitVec.ofInt 32 (max - i)] ++
    (if min ≤ i ∧ i ≤ max then [BitVec.ofInt 32 i] else []) ++
    (if min ≤ -i ∧ -i ≤ max then [BitVec.ofInt 32 (-i)] else []) ++ [random i]

/-- The values are stored in an array, behind which no store is defined. -/
def testVals (vals : List Word) : Option (List Word) :=
  if vals.length ≤ maxTestVals then some vals else none

/-- The values for an argument, which the user may have given. It is undefined where a signed
computation overflows, as the counter of the loop over all values does at `INT_MAX`. -/
def genVals (given : Option Word) (random : ℕ → Word) (min max : ℤ) (range : ℕ) :
    Option (List Word) :=
  match given with
  | some v => testVals [v]
  | none =>
    if min = 1 ∧ max = 1 then
      testVals ((List.range (Min.min range (2 ^ 23))).flatMap floatRound ++ specialVals)
    else if max - maxTestVals < tMin then none
    else if max - maxTestVals ≤ min then
      if max = tMax then none
      else testVals
        ((List.range (max + 1 - min).toNat).map (fun (i : ℕ) => BitVec.ofInt 32 (min + i)))
    else testVals ((List.range range).flatMap (sampleRound random min max))

/-! ### `test_function` and `run_tests` -/

/-- What the user asks for on the command line. -/
structure Options where
  testFname : Option String
  argval : ℕ → Option Word
  globalRating : ℕ
  timeoutLimit : ℤ

/-- When the alarm of a test rings. The next test sets it again. -/
inductive Alarm
  | silent
  | inLoops
  | afterwards
deriving DecidableEq

/-- What the library functions return: `pow` the roots of `TEST_RANGE`, by the number of arguments,
and `random_val` a value for a test, an argument and a round. The clock is known by the alarms. -/
structure Environment where
  pow : ℕ → ℕ
  pow_le : ∀ args, pow args ≤ testRange
  random : String → ℕ → ℕ → Word
  alarm : String → Alarm

/-- One call of the function and of its reference. -/
def testArgs (t : TestRec) (args : List Word) : Option ℕ := do
  let r ← t.solutionFunct args
  let rt ← t.testFunct args
  some (if r ≠ rt then 1 else 0)

/-- The loop over the values for one argument. It stops when there is an error. -/
def testEach (test : Word → Option ℕ) : List Word → Option ℕ
  | [] => some 0
  | v :: vals => do
    let errors ← test v
    if errors ≠ 0 then some errors else testEach test vals

/-- The nested loops. -/
def testLoops (test : List Word → Option ℕ) : List (List Word) → List Word → Option ℕ
  | [], args => test args
  | vals :: rest, args => testEach (fun v => testLoops test rest (args ++ [v])) vals

def argTestRange (env : Environment) (args : ℕ) : ℕ :=
  max (if args = 1 then testRange else env.pow args) 1

/-- The values for an argument of a function. -/
def argTestVals (o : Options) (env : Environment) (t : TestRec) (i : ℕ) : Option (List Word) :=
  let argRange := t.argRanges.getD i (0, 0)
  genVals (o.argval i) (env.random t.name i) argRange.1 argRange.2 (argTestRange env t.args)

/-- The alarm leaves the loops by a jump into `test_function`, which is undefined once that has
returned. -/
def timeout (o : Options) (alarm : Alarm) (errors : ℕ) : Option ℕ :=
  if 0 < o.timeoutLimit then
    match alarm with
    | .silent => some errors
    | .inLoops => some 1
    | .afterwards => none
  else some errors

def testFunction (o : Options) (env : Environment) (t : TestRec) : Option ℕ := do
  let vals ← (List.range t.args).mapM (argTestVals o env t)
  let errors ← testLoops (testArgs t) vals []
  timeout o (env.alarm t.name) errors

structure Score where
  errors : ℕ
  points : ℕ
  maxPoints : ℕ
deriving DecidableEq

def Options.selects (o : Options) (t : TestRec) : Bool := o.testFname.all (fun name => t.name = name)

def Options.rating (o : Options) (t : TestRec) : ℕ :=
  if o.globalRating ≠ 0 then o.globalRating else t.rating

def runTests (o : Options) (env : Environment) : List TestRec → Score → Option Score
  | [], score => some score
  | t :: ts, score =>
    if o.selects t then do
      let terrors ← testFunction o env t
      runTests o env ts ⟨score.errors + terrors,
        score.points + (if terrors = 0 then o.rating t else 0), score.maxPoints + o.rating t⟩
    else runTests o env ts score

/-! ### The floating-point puzzles against their references -/

/-- The largest finite exponent, with a fraction. -/
def AboveLargestNorm (uf : Word) : Prop := uf &&& 0x7f800000 = 0x7f000000 ∧ uf &&& 0x007fffff ≠ 0

instance (uf : Word) : Decidable (AboveLargestNorm uf) := inferInstanceAs (Decidable (_ ∧ _))

variable {fpu : FloatUnit} {uf x v : Word} {o : Options} {env : Environment} {t : TestRec}
  {vals : List Word}

lemma above_iff : AboveLargestNorm uf ↔
    254 * 2 ^ 23 < uf.toNat % 2 ^ 31 ∧ uf.toNat % 2 ^ 31 < 255 * 2 ^ 23 := by
  have hexp : uf &&& 0x7f800000 = 0x7f000000 ↔ (u2f uf).bits / 2 ^ 23 = 254 :=
    exponent_mask (e := 254) (by norm_num)
  rw [AboveLargestNorm, hexp, Ne, fraction_mask, u2f_bits]
  omega

lemma u2f_xor_sign (uf : Word) : u2f (uf ^^^ 0x80000000) = negatePattern (u2f uf) := by
  have hlt := uf.isLt
  have hnat : (uf ^^^ 0x80000000).toNat = uf.toNat ^^^ 2 ^ 31 := by rw [BitVec.toNat_xor]; rfl
  have hlow : (uf.toNat ^^^ 2 ^ 31) % 2 ^ 31 = uf.toNat % 2 ^ 31 := by
    rw [Nat.xor_mod_two_pow, Nat.mod_self, Nat.xor_zero]
  have hhigh : (uf.toNat ^^^ 2 ^ 31) / 2 ^ 31 = uf.toNat / 2 ^ 31 ^^^ 1 := by
    rw [Nat.xor_div_two_pow, Nat.div_self (by norm_num)]
  ext
  · rw [u2f_negative, hnat, negatePattern, u2f_negative]
    simp only [← decide_not, decide_eq_decide]
    have hbit : uf.toNat / 2 ^ 31 = 0 ∨ uf.toNat / 2 ^ 31 = 1 := by omega
    rcases hbit with hbit | hbit
    · rw [hbit, Nat.zero_xor] at hhigh
      omega
    · rw [hbit, Nat.xor_self] at hhigh
      omega
  · rw [u2f_bits, hnat, hlow]
    rfl

lemma floatNeg_eq (uf : Word) : floatNeg uf = testFloatNeg uf := by
  have hexp : uf &&& 0x7f800000 = 0x7f800000 ↔ (u2f uf).bits / 2 ^ 23 = 255 :=
    exponent_mask (e := 255) (by norm_num)
  have hbits : (u2f uf).bits < 2 ^ 31 := (u2f uf).bits_lt
  have hnan : (0x7F800000 &&& uf = 0x7F800000 ∧ 0x7FFFFF &&& uf ≠ 0) ↔ (u2f uf).IsNaN := by
    rw [BitVec.and_comm, hexp, BitVec.and_comm 0x7FFFFF, Ne, fraction_mask,
      FloatFormat.Pattern.IsNaN, single_infinity]
    omega
  rw [floatNeg, testFloatNeg]
  simp only [hnan]
  split
  · rfl
  · rw [← u2f_xor_sign, f2u_u2f]

lemma floatI2f_eq (fpu : FloatUnit) (x : Word) : floatI2f x = some (testFloatI2f fpu x) :=
  (floatI2f_test x _).mpr ⟨fpu.ofInt x, fpu.ofInt_spec x, rfl⟩

lemma abs_double (f : single.Pattern) : |2 * f.value| = single.magnitude (single.twice f.bits) := by
  rw [abs_mul, abs_two, FloatFormat.Pattern.abs_value, FloatFormat.magnitude_twice]

/-- What the reference returns for a finite number. -/
lemma testFloatTwice_finite (h : (u2f uf).IsFinite) :
    (u2f (testFloatTwice fpu uf)).negative = (u2f uf).negative ∧
      (u2f (testFloatTwice fpu uf)).bits = min (single.twice (u2f uf).bits) single.infinity := by
  have hnan : ¬(u2f uf).IsNaN := h.not_gt
  have hspec := fpu.double_spec (u2f uf) hnan
  rw [IsDouble, if_neg (show ¬(u2f uf).IsInfinite from h.ne)] at hspec
  rw [FloatFormat.rounds_iff_of_magnitude (abs_double (u2f uf))] at hspec
  simpa only [testFloatTwice, if_neg hnan, u2f_f2u] using hspec

lemma testFloatTwice_special (h : ¬(u2f uf).IsFinite) : testFloatTwice fpu uf = uf := by
  rw [testFloatTwice]
  by_cases hnan : (u2f uf).IsNaN
  · simp only [if_pos hnan]
  · have hinf : (u2f uf).IsInfinite := le_antisymm (not_lt.mp hnan) (not_lt.mp h)
    have hspec := fpu.double_spec (u2f uf) hnan
    rw [IsDouble, if_pos hinf] at hspec
    simp only [if_neg hnan, hspec, f2u_u2f]

/-- `float_twice` differs from its reference above the largest number that `gen_vals` knows of. -/
lemma floatTwice_eq_iff (fpu : FloatUnit) (uf : Word) :
    floatTwice uf = testFloatTwice fpu uf ↔ ¬AboveLargestNorm uf := by
  by_cases hfin : (u2f uf).IsFinite
  · obtain ⟨hneg, hbits⟩ := u2f_floatTwice hfin
    obtain ⟨hneg', hbits'⟩ := @testFloatTwice_finite fpu uf hfin
    rw [AboveLargestNorm, ← twice_le_infinity_iff hfin, ← left_eq_inf, ← hbits', ← hbits]
    constructor
    · exact fun heq => congrArg (fun u => (u2f u).bits) heq
    · intro heq
      rw [← f2u_u2f (floatTwice uf), ← f2u_u2f (testFloatTwice fpu uf)]
      congr 1
      exact FloatFormat.Pattern.ext (hneg.trans hneg'.symm) heq
  · rw [floatTwice_special hfin, testFloatTwice_special hfin, above_iff]
    rw [isFinite_iff, u2f_bits] at hfin
    exact iff_of_true rfl (by omega)

/-! ### The values -/

variable {random : ℕ → Word} {min max : ℤ} {range : ℕ}

lemma testVals_isSome : (testVals vals).isSome ↔ vals.length ≤ maxTestVals := by
  rw [testVals]
  split <;> simp [*]

lemma testVals_eq (h : vals.length ≤ maxTestVals) : testVals vals = some vals := if_pos h

lemma genVals_given (random : ℕ → Word) (min max : ℤ) (range : ℕ) :
    genVals (some v) random min max range = some [v] :=
  testVals_eq (show 1 ≤ maxTestVals by decide)

lemma length_floatRound (i : ℕ) : (floatRound i).length = 12 := rfl

lemma length_sampleRound (random : ℕ → Word) (min max : ℤ) (i : ℕ) :
    (sampleRound random min max i).length ≤ 5 := by
  unfold sampleRound
  split <;> split <;> simp

lemma length_floatVals (hrange : range ≤ testRange) :
    ((List.range (Min.min range (2 ^ 23))).flatMap floatRound ++ specialVals).length ≤
      maxTestVals := by
  have hrounds : ((List.range (Min.min range (2 ^ 23))).flatMap floatRound).length ≤ range * 12 := by
    rw [List.length_flatMap]
    simp only [length_floatRound, List.map_const', List.length_range, List.sum_replicate,
      smul_eq_mul]
    exact Nat.mul_le_mul_right 12 (min_le_left _ _)
  have hspecial : specialVals.length = 4 := rfl
  rw [List.length_append, maxTestVals]
  rw [testRange] at hrange ⊢
  omega

lemma length_sampleVals (random : ℕ → Word) (min max : ℤ) (hrange : range ≤ testRange) :
    ((List.range range).flatMap (sampleRound random min max)).length ≤ maxTestVals := by
  have hrounds : ((List.range range).flatMap (sampleRound random min max)).length ≤ range * 5 := by
    rw [List.length_flatMap]
    refine (List.sum_le_card_nsmul _ 5 ?_).trans (by simp)
    intro n hn
    obtain ⟨i, -, rfl⟩ := List.mem_map.mp hn
    exact length_sampleRound random min max i
  rw [maxTestVals]
  omega

/-- Where the test for a small range does not overflow, a small range must fit into the array, and
the loop over its values must end, which it does not at `INT_MAX`. -/
theorem genVals_fits_iff (random : ℕ → Word) (min max : ℤ) (hrange : range ≤ testRange) :
    (genVals none random min max range).isSome ↔ (min = 1 ∧ max = 1) ∨
      (tMin + maxTestVals ≤ max ∧ max - min ≠ maxTestVals ∧
        (max = tMax → maxTestVals < max - min)) := by
  rw [genVals]
  split_ifs with hfloat hover hall hlast
  · exact iff_of_true (testVals_isSome.mpr (length_floatVals hrange)) (Or.inl hfloat)
  · -- `max - MAX_TEST_VALS` overflows
    refine iff_of_false Bool.false_ne_true ?_
    rintro (h | ⟨h, -⟩)
    · exact hfloat h
    · omega
  · -- the counter overflows
    refine iff_of_false Bool.false_ne_true ?_
    rintro (h | ⟨-, -, h⟩)
    · exact hfloat h
    · have := h hlast
      omega
  · -- every value
    rw [testVals_isSome, List.length_map, List.length_range]
    constructor
    · exact fun h => Or.inr ⟨by omega, by omega, fun htop => absurd htop hlast⟩
    · rintro (h | ⟨-, h, -⟩)
      · exact absurd h hfloat
      · omega
  · -- a sample
    refine iff_of_true (testVals_isSome.mpr (length_sampleVals random min max hrange)) ?_
    exact Or.inr ⟨by omega, by omega, fun _ => by omega⟩

/-- One value too many, a loop that does not end, and an overflow. The last range is a sample. -/
theorem genVals_overruns :
    (genVals none (fun _ => 0) 0 6500000 testRange).isSome = false ∧
      (genVals none (fun _ => 0) (tMax - 31) tMax testRange).isSome = false ∧
      (genVals none (fun _ => 0) tMin 0 testRange).isSome = true ∧
      (genVals none (fun _ => 0) tMin (tMin + 31) testRange).isSome = false := by
  simp only [← Bool.not_eq_true, genVals_fits_iff _ _ _ (le_refl testRange)]
  decide

/-- No value for a floating-point puzzle is above the largest number that `gen_vals` knows of. -/
lemma floatRound_below {i : ℕ} (hi : i < 2 ^ 23) : ∀ v ∈ floatRound i, ¬AboveLargestNorm v := by
  have hnat : (BitVec.ofNat 32 i).toNat = i := by
    rw [BitVec.toNat_ofNat]
    omega
  have hsign : ∀ w : Word, ((0x80000000 : Word) ||| w).toNat % 2 ^ 31 = w.toNat % 2 ^ 31 := by
    intro w
    rw [BitVec.toNat_or, Nat.or_mod_two_pow, show (0x80000000 : Word).toNat % 2 ^ 31 = 0 from rfl,
      Nat.zero_or]
  have hadd : ∀ c : Word, c.toNat + 2 ^ 23 < 2 ^ 32 → (c + BitVec.ofNat 32 i).toNat = c.toNat + i := by
    intro c hc
    rw [BitVec.toNat_add, hnat]
    omega
  have hsub : ∀ c : Word, 2 ^ 23 ≤ c.toNat → (c - BitVec.ofNat 32 i).toNat = c.toNat - i := by
    intro c hc
    rw [BitVec.toNat_sub, hnat]
    omega
  have hsmall : (0x00800000 : Word).toNat = 2 ^ 23 := rfl
  have hone : (0x3f800000 : Word).toNat = 127 * 2 ^ 23 := rfl
  have hlargest : (0x7f000000 : Word).toNat = 254 * 2 ^ 23 := rfl
  intro v hv
  rw [above_iff]
  simp only [floatRound, List.mem_cons, List.not_mem_nil, or_false] at hv
  rcases hv with rfl | rfl | rfl | rfl | rfl | rfl | rfl | rfl | rfl | rfl | rfl | rfl <;>
  · try rw [hsign]
    first
    | rw [hnat]
    | rw [hadd _ (by omega)]
    | rw [hsub _ (by omega)]
    omega

lemma genVals_float (random : ℕ → Word) (hrange : range ≤ testRange) :
    ∃ vals, genVals none random 1 1 range = some vals ∧ ∀ v ∈ vals, ¬AboveLargestNorm v := by
  have hvals : genVals none random 1 1 range =
      some ((List.range (Min.min range (2 ^ 23))).flatMap floatRound ++ specialVals) := by
    rw [genVals, if_pos (And.intro rfl rfl), testVals_eq (length_floatVals hrange)]
  refine ⟨_, hvals, fun v hv => ?_⟩
  rcases List.mem_append.mp hv with hv | hv
  · obtain ⟨i, hi, hv⟩ := List.mem_flatMap.mp hv
    have hlt := List.mem_range.mp hi
    exact floatRound_below (lt_of_lt_of_le hlt (min_le_right _ _)) v hv
  · simp only [specialVals, List.mem_cons, List.not_mem_nil, or_false] at hv
    rcases hv with rfl | rfl | rfl | rfl <;> decide

lemma genVals_int (given : Option Word) (random : ℕ → Word) (hrange : range ≤ testRange) :
    ∃ vals, genVals given random tMin tMax range = some vals := by
  cases given with
  | some v => exact ⟨_, genVals_given ..⟩
  | none =>
    have hvals : genVals none random tMin tMax range =
        testVals ((List.range range).flatMap (sampleRound random tMin tMax)) := by
      simp [genVals, tMin, tMax, maxTestVals, testRange]
    exact ⟨_, hvals.trans (testVals_eq (length_sampleVals random tMin tMax hrange))⟩

/-- The shift amounts are tested exhaustively. -/
lemma genVals_shift {given : Option Word} (h : ∀ n ∈ given, n.toNat < 32) (random : ℕ → Word)
    (range : ℕ) :
    ∃ vals, genVals given random 0 31 range = some vals ∧ ∀ n ∈ vals, n.toNat < 32 := by
  cases given with
  | some v => exact ⟨_, genVals_given .., by simpa using h v rfl⟩
  | none =>
    have hvals : genVals none random 0 31 range =
        testVals ((List.range 32).map fun (i : ℕ) => BitVec.ofInt 32 (0 + i)) := rfl
    refine ⟨_, hvals.trans (testVals_eq (show 32 ≤ maxTestVals by decide)), fun n hn => ?_⟩
    obtain ⟨i, hi, rfl⟩ := List.mem_map.mp hn
    have hlt := List.mem_range.mp hi
    rw [BitVec.toNat_ofInt]
    omega

/-! ### The loops -/

lemma testEach_zero {test : Word → Option ℕ} (h : ∀ v ∈ vals, test v = some 0) :
    testEach test vals = some 0 := by
  induction vals with
  | nil => rfl
  | cons v vals ih =>
    rw [testEach, h v (by simp)]
    exact ih fun w hw => h w (List.mem_cons_of_mem v hw)

lemma testArgs_zero {args : List Word} {r : Word} (h : t.solutionFunct args = some r)
    (h' : t.testFunct args = some r) : testArgs t args = some 0 := by
  simp [testArgs, h, h']

lemma argTestRange_le (env : Environment) (args : ℕ) : argTestRange env args ≤ testRange := by
  rw [argTestRange]
  refine Nat.max_le.mpr ⟨?_, by decide⟩
  split
  · exact le_rfl
  · exact env.pow_le args

lemma testFunction_one (hargs : t.args = 1) (hvals : argTestVals o env t 0 = some vals) :
    testFunction o env t =
      (testEach (fun v => testArgs t [v]) vals).bind (timeout o (env.alarm t.name)) := by
  simp [testFunction, hargs, List.range_succ, hvals, testLoops]

lemma testFunction_two {vals' : List Word} (hargs : t.args = 2)
    (hvals : argTestVals o env t 0 = some vals) (hvals' : argTestVals o env t 1 = some vals') :
    testFunction o env t = (testEach (fun v => testEach (fun v' => testArgs t [v, v']) vals') vals).bind
      (timeout o (env.alarm t.name)) := by
  simp [testFunction, hargs, List.range_succ, hvals, hvals', testLoops]

lemma testFunction_one_zero {f g : Word → Option Word} (hargs : t.args = 1)
    (hf : t.solutionFunct = funct1 f) (hg : t.testFunct = funct1 g)
    (hvals : argTestVals o env t 0 = some vals)
    (h : ∀ v ∈ vals, ∃ r, f v = some r ∧ g v = some r) :
    testFunction o env t = timeout o (env.alarm t.name) 0 := by
  rw [testFunction_one hargs hvals, testEach_zero, Option.bind_some]
  intro v hv
  obtain ⟨r, hr, hr'⟩ := h v hv
  exact testArgs_zero (by rw [hf]; exact hr) (by rw [hg]; exact hr')

lemma testFunction_two_zero {f g : Word → Word → Option Word} {vals' : List Word}
    (hargs : t.args = 2) (hf : t.solutionFunct = funct2 f) (hg : t.testFunct = funct2 g)
    (hvals : argTestVals o env t 0 = some vals) (hvals' : argTestVals o env t 1 = some vals')
    (h : ∀ v, ∀ v' ∈ vals', ∃ r, f v v' = some r ∧ g v v' = some r) :
    testFunction o env t = timeout o (env.alarm t.name) 0 := by
  rw [testFunction_two hargs hvals hvals', testEach_zero, Option.bind_some]
  intro v _
  apply testEach_zero
  intro v' hv'
  obtain ⟨r, hr, hr'⟩ := h v v' hv'
  exact testArgs_zero (by rw [hf]; exact hr) (by rw [hg]; exact hr')

/-- The loop over the tests counts those that fail, and adds the ratings of the others. -/
lemma runTests_eq {ts : List TestRec} {fails : TestRec → Bool}
    (h : ∀ t ∈ ts, o.selects t → testFunction o env t = some (if fails t then 1 else 0))
    (score : Score) :
    runTests o env ts score = some ⟨score.errors + (ts.filter o.selects).countP fails,
      score.points + (((ts.filter o.selects).filter (fun t => !fails t)).map o.rating).sum,
      score.maxPoints + ((ts.filter o.selects).map o.rating).sum⟩ := by
  induction ts generalizing score with
  | nil => rfl
  | cons t ts ih =>
    have hts := ih fun t' ht' => h t' (List.mem_cons_of_mem t ht')
    rw [runTests]
    cases hsel : o.selects t with
    | false =>
      rw [List.filter_cons_of_neg (by simp [hsel]), if_neg Bool.false_ne_true]
      exact hts score
    | true =>
      rw [List.filter_cons_of_pos hsel, if_pos rfl, h t (by simp) hsel]
      simp only [Option.bind_eq_bind, Option.bind_some, hts, List.map_cons, List.sum_cons]
      cases hfail : fails t with
      | false =>
        rw [List.countP_cons_of_neg (by simp [hfail]), List.filter_cons_of_pos (by simp [hfail])]
        simp [add_assoc]
      | true =>
        rw [List.countP_cons_of_pos hfail, List.filter_cons_of_neg (by simp [hfail])]
        simp [add_assoc, add_comm 1]

/-- The first argument that the user gives is a word on which `float_twice` is wrong. -/
def Options.Catches (o : Options) : Prop := ∃ v ∈ o.argval 0, AboveLargestNorm v

instance (o : Options) : Decidable o.Catches :=
  decidable_of_iff ((o.argval 0).any fun v => AboveLargestNorm v) (by
    simp [Options.Catches, Option.any_eq_true])

/-- What the loops over the values find. -/
def Options.finds (o : Options) (t : TestRec) : ℕ :=
  if t.name = "float_twice" ∧ o.Catches then 1 else 0

def Options.timesOut (o : Options) (env : Environment) (t : TestRec) : Prop :=
  0 < o.timeoutLimit ∧ env.alarm t.name = .inLoops

instance (o : Options) (env : Environment) (t : TestRec) : Decidable (o.timesOut env t) :=
  inferInstanceAs (Decidable (_ ∧ _))

def Options.fails (o : Options) (env : Environment) (t : TestRec) : Bool :=
  (t.name = "float_twice" ∧ o.Catches) ∨ o.timesOut env t

lemma timeout_finds (h : 0 < o.timeoutLimit → env.alarm t.name ≠ .afterwards) :
    timeout o (env.alarm t.name) (o.finds t) = some (if o.fails env t then 1 else 0) := by
  unfold timeout
  by_cases hlimit : 0 < o.timeoutLimit
  · cases halarm : env.alarm t.name with
    | silent => simp [Options.fails, Options.timesOut, Options.finds, hlimit, halarm]
    | inLoops => simp [Options.fails, Options.timesOut, hlimit, halarm]
    | afterwards => exact absurd halarm (h hlimit)
  · simp [Options.fails, Options.timesOut, Options.finds, hlimit]

/-- The test of a function of two integers. -/
lemma testFunction_int2 {f g : Word → Word → Option Word} (hargs : t.args = 2)
    (hf : t.solutionFunct = funct2 f) (hg : t.testFunct = funct2 g)
    (hranges : t.argRanges = [(tMin, tMax), (tMin, tMax), (tMin, tMax)])
    (h : ∀ x y, ∃ r, f x y = some r ∧ g x y = some r) : testFunction o env t = timeout o (env.alarm t.name) 0 := by
  obtain ⟨vals, hvals⟩ := genVals_int (o.argval 0) (env.random t.name 0) (argTestRange_le env t.args)
  obtain ⟨vals', hvals'⟩ := genVals_int (o.argval 1) (env.random t.name 1) (argTestRange_le env t.args)
  have hx : argTestVals o env t 0 = some vals := by simpa [argTestVals, hranges] using hvals
  have hy : argTestVals o env t 1 = some vals' := by simpa [argTestVals, hranges] using hvals'
  exact testFunction_two_zero hargs hf hg hx hy fun x y _ => h x y

/-- The test of a function of one integer. -/
lemma testFunction_int1 {f g : Word → Option Word} (hargs : t.args = 1)
    (hf : t.solutionFunct = funct1 f) (hg : t.testFunct = funct1 g)
    (hranges : t.argRanges = [(tMin, tMax), (tMin, tMax), (tMin, tMax)])
    (h : ∀ x, ∃ r, f x = some r ∧ g x = some r) : testFunction o env t = timeout o (env.alarm t.name) 0 := by
  obtain ⟨vals, hvals⟩ := genVals_int (o.argval 0) (env.random t.name 0) (argTestRange_le env t.args)
  have hx : argTestVals o env t 0 = some vals := by simpa [argTestVals, hranges] using hvals
  exact testFunction_one_zero hargs hf hg hx fun x _ => h x

/-- The test of a function of one number, on the word that is given or on those that `gen_vals`
chooses. -/
lemma testFunction_float {f g : Word → Option Word} (hargs : t.args = 1)
    (hf : t.solutionFunct = funct1 f) (hg : t.testFunct = funct1 g)
    (hranges : t.argRanges = [(1, 1), (1, 1), (1, 1)])
    (h : ∀ uf, o.argval 0 = some uf ∨ ¬AboveLargestNorm uf → ∃ r, f uf = some r ∧ g uf = some r) :
    testFunction o env t = timeout o (env.alarm t.name) 0 := by
  cases hgiven : o.argval 0 with
  | some v =>
    have hvals : argTestVals o env t 0 = some [v] := by rw [argTestVals, hgiven, genVals_given]
    refine testFunction_one_zero hargs hf hg hvals fun uf huf => h uf (Or.inl ?_)
    rw [hgiven, List.mem_singleton.mp huf]
  | none =>
    obtain ⟨vals, hvals, hbelow⟩ := genVals_float (env.random t.name 0) (argTestRange_le env t.args)
    have hx : argTestVals o env t 0 = some vals := by
      simpa [argTestVals, hranges, hgiven] using hvals
    exact testFunction_one_zero hargs hf hg hx fun uf huf => h uf (Or.inr (hbelow uf huf))

/-- Whatever is random, the loops of no test but that of `float_twice` find an error. -/
lemma testFunction_testSet (fpu : FloatUnit) (env : Environment)
    (hshift : ∀ n ∈ o.argval 1, n.toNat < 32) : ∀ t ∈ testSet fpu,
      testFunction o env t = timeout o (env.alarm t.name) (o.finds t) := by
  intro t ht
  rw [Options.finds]
  simp only [testSet, List.mem_cons, List.not_mem_nil, or_false] at ht
  rcases ht with rfl | rfl | rfl | rfl | rfl | rfl | rfl | rfl
  · rw [if_neg (by simp)]
    exact testFunction_int2 rfl rfl rfl rfl fun x y => ⟨_, rfl, by rw [bitOr_eq]⟩
  · rw [if_neg (by simp)]
    exact testFunction_int2 rfl rfl rfl rfl fun x y => ⟨_, rfl, by rw [addOK_eq]⟩
  · rw [if_neg (by simp)]
    exact testFunction_int1 rfl rfl rfl rfl fun x => ⟨_, rfl, by rw [negate_eq]⟩
  · rw [if_neg (by simp)]
    obtain ⟨vals, hvals⟩ := genVals_int (o.argval 0) (env.random "logicalShift" 0)
      (argTestRange_le env 2)
    obtain ⟨vals', hvals', hsmall⟩ := genVals_shift hshift (env.random "logicalShift" 1)
      (argTestRange env 2)
    refine testFunction_two_zero rfl rfl rfl hvals hvals' fun x n hn => ?_
    refine ⟨x >>> n.toNat, ?_, if_pos (hsmall n hn)⟩
    rw [logicalShift_eq]
    exact if_pos (hsmall n hn)
  · rw [if_neg (by simp)]
    exact testFunction_int1 rfl rfl rfl rfl fun x => ⟨_, rfl, by rw [bitCount_eq]⟩
  · rw [if_neg (by simp)]
    exact testFunction_float rfl rfl rfl rfl fun uf _ => ⟨_, rfl, by rw [floatNeg_eq]⟩
  · rw [if_neg (by simp)]
    exact testFunction_float rfl rfl rfl rfl fun x _ => ⟨_, floatI2f_eq fpu x, rfl⟩
  · by_cases hcatches : o.Catches
    · obtain ⟨v, hv, habove⟩ := id hcatches
      have hdiffer : floatTwice v ≠ testFloatTwice fpu v := fun heq =>
        (floatTwice_eq_iff fpu v).mp heq habove
      have hgiven : o.argval 0 = some v := hv
      have hvals : ∀ t, argTestVals o env t 0 = some [v] := by
        intro t
        rw [argTestVals, hgiven, genVals_given]
      rw [if_pos ⟨rfl, hcatches⟩, testFunction_one rfl (hvals _)]
      simp [testEach, testArgs, funct1, hdiffer]
    · rw [if_neg (fun h => hcatches h.2)]
      refine testFunction_float rfl rfl rfl rfl fun uf huf => ⟨_, rfl, ?_⟩
      have hbelow : ¬AboveLargestNorm uf := huf.elim (fun h habove => hcatches ⟨uf, h, habove⟩) id
      rw [(floatTwice_eq_iff fpu uf).mpr hbelow]

/-- The tests that are run. -/
def Options.selected (o : Options) (fpu : FloatUnit) : List TestRec := (testSet fpu).filter o.selects

/-- Whatever is random, a test of `btest` that does not time out fails only for `float_twice`, and
only if the user asks for its test at a word above the largest number that `gen_vals` knows of. -/
theorem runTests_testSet (fpu : FloatUnit) (o : Options) (env : Environment)
    (hshift : ∀ n ∈ o.argval 1, n.toNat < 32)
    (halarm : 0 < o.timeoutLimit → ∀ t ∈ o.selected fpu, env.alarm t.name ≠ .afterwards) :
    runTests o env (testSet fpu) ⟨0, 0, 0⟩ = some ⟨(o.selected fpu).countP (o.fails env),
      (((o.selected fpu).filter (fun t => !o.fails env t)).map o.rating).sum,
      ((o.selected fpu).map o.rating).sum⟩ := by
  have htests : ∀ t ∈ testSet fpu, o.selects t →
      testFunction o env t = some (if o.fails env t then 1 else 0) := by
    intro t ht hsel
    rw [testFunction_testSet fpu env hshift t ht]
    exact timeout_finds fun hlimit => halarm hlimit t (List.mem_filter.mpr ⟨ht, hsel⟩)
  rw [runTests_eq htests, Options.selected]
  simp only [Nat.zero_add]

/-- A unit that computes what the two functions are to return. -/
def exactUnit : FloatUnit where
  double f :=
    if h : f.IsFinite then
      ⟨f.negative, Min.min (single.twice f.bits) single.infinity,
        (min_le_right _ _).trans_lt (by decide)⟩
    else f
  ofInt x := u2f ((floatI2f x).getD 0)
  double_spec := by
    intro f hnan
    rw [IsDouble]
    by_cases hinf : f.IsInfinite
    · rw [if_pos hinf]
      exact dif_neg (show ¬f.IsFinite from hinf.not_lt)
    · have hfin : f.IsFinite := lt_of_le_of_ne (not_lt.mp hnan) hinf
      rw [if_neg hinf, dif_pos hfin, FloatFormat.rounds_iff_of_magnitude (abs_double f)]
      exact ⟨rfl, rfl⟩
  ofInt_spec := by
    intro x
    obtain ⟨r, heq, -, hrounds⟩ := floatI2f_rounds x
    rw [heq]
    exact hrounds

/-- The user asks for the test of one word. -/
def atWord (v : Word) : Options :=
  ⟨some "float_twice", fun i => if i = 0 then some v else none, 0, 10⟩

/-- The clock stops the test of one function. -/
def stopping (name : String) : Environment where
  pow _ := 707
  pow_le _ := by decide
  random _ _ _ := 0
  alarm name' := if name' = name then .inLoops else .silent

lemma stopping_alarm (name name' : String) : (stopping name).alarm name' ≠ .afterwards := by
  simp only [stopping]
  split <;> decide

/-- A run of all tests, one of the test that finds the error, and one in which a test times out. -/
theorem runTests_twice :
    runTests ⟨none, fun _ => none, 0, 10⟩ (stopping "") (testSet exactUnit) ⟨0, 0, 0⟩ =
        some ⟨0, 23, 23⟩ ∧
      runTests (atWord 0x7f000001) (stopping "") (testSet exactUnit) ⟨0, 0, 0⟩ = some ⟨1, 0, 4⟩ ∧
      runTests ⟨none, fun _ => none, 0, 10⟩ (stopping "bitCount") (testSet exactUnit) ⟨0, 0, 0⟩ =
        some ⟨1, 19, 23⟩ :=
  ⟨runTests_testSet exactUnit ⟨none, fun _ => none, 0, 10⟩ (stopping "") (by simp)
      fun _ t _ => stopping_alarm "" t.name,
    runTests_testSet exactUnit (atWord 0x7f000001) (stopping "") (by simp [atWord])
      fun _ t _ => stopping_alarm "" t.name,
    runTests_testSet exactUnit ⟨none, fun _ => none, 0, 10⟩ (stopping "bitCount") (by simp)
      fun _ t _ => stopping_alarm "bitCount" t.name⟩

end SystemsLabs.Bits
