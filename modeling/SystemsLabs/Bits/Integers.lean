import SystemsLabs.Bits.Puzzles
import SystemsLabs.Library.FieldSums

/-!
# The integer puzzles

Each function of `bits.c` on integers has a reference in `tests.c` that may use any operator. The two
agree on all arguments for which C defines them. Sums wrap.
-/

namespace SystemsLabs.Bits

open Library

/-! ### The functions and their references -/

def bitOr (x y : Word) : Word := ~~~(~~~x &&& ~~~y)

def testBitOr (x y : Word) : Word := x ||| y

def addOK (x y : Word) : Word :=
  let isXYDiffer := x ^^^ y
  let isSumAndXSame := ~~~((x + y) ^^^ x)
  (isXYDiffer ||| isSumAndXSame).sshiftRight 31 &&& 1

def testAddOK (x y : Word) : Word :=
  let lsum := x.signExtend 64 + y.signExtend 64
  if lsum = (lsum.setWidth 32).signExtend 64 then 1 else 0

def negate (x : Word) : Word := ~~~x + 1

def testNegate (x : Word) : Word := -x

/-- A shift by the word size or more is undefined. -/
def logicalShift (x n : Word) : Option Word :=
  if n.toNat < 32 then
    let mask := ((1 : Word) <<< 31).sshiftRight n.toNat <<< 1
    some (~~~mask &&& x.sshiftRight n.toNat)
  else none

def testLogicalShift (x n : Word) : Option Word :=
  if n.toNat < 32 then some (x >>> n.toNat) else none

/-- A field of the result is the sum of two fields of the argument. -/
def addFields (mask : Word) (k : ℕ) (x : Word) : Word := (x &&& mask) + (x.sshiftRight k &&& mask)

def bitCount (x : Word) : Word :=
  let mask16 : Word := (0xff <<< 8) ^^^ 0xff
  let mask08 := (mask16 <<< 8) ^^^ mask16
  let mask04 := (mask08 <<< 4) ^^^ mask08
  let mask02 := (mask04 <<< 2) ^^^ mask04
  let mask01 := (mask02 <<< 1) ^^^ mask02
  let x := addFields mask01 1 x
  let x := addFields mask02 2 x
  let x := addFields mask04 4 x
  let x := addFields mask08 8 x
  addFields mask16 16 x

def testBitCount (x : Word) : Word :=
  (List.range 32).foldl (fun result i => result + (x.sshiftRight i &&& 1)) 0

/-! ### They agree -/

variable {x y mask : Word} {k n : ℕ}

lemma bitOr_eq (x y : Word) : bitOr x y = testBitOr x y := by
  rw [bitOr, testBitOr, BitVec.not_and, BitVec.not_not, BitVec.not_not]

lemma negate_eq (x : Word) : negate x = testNegate x := (BitVec.neg_eq_not_add x).symm

/-- The sign as a number. -/
lemma sshiftRight_sign (x : Word) : x.sshiftRight 31 &&& 1 = if x.msb then 1 else 0 := by
  have hx := x.isLt
  rw [← BitVec.toNat_inj, sshiftRight_and x 1 (by decide), show (1 : Word).toNat = 1 from rfl, land_one,
    BitVec.msb_eq_decide]
  by_cases hsign : 2 ^ 31 ≤ x.toNat
  · rw [if_pos (by simpa using hsign), show (1 : Word).toNat = 1 from rfl]
    omega
  · rw [if_neg (by simpa using hsign), show (0 : Word).toNat = 0 from rfl]
    omega

lemma addOK_overflow (x y : Word) : addOK x y = if x.saddOverflow y then 0 else 1 := by
  rw [addOK, sshiftRight_sign, BitVec.saddOverflow_eq]
  simp only [BitVec.msb_or, BitVec.msb_xor, BitVec.msb_not]
  cases x.msb <;> cases y.msb <;> cases (x + y).msb <;> rfl

/-- The sum of two integers of 32 bits is exact in 64 bits. -/
lemma testAddOK_overflow (x y : Word) : testAddOK x y = if x.saddOverflow y then 0 else 1 := by
  have hx := BitVec.toInt_lt (x := x)
  have hx' := BitVec.le_toInt x
  have hy := BitVec.toInt_lt (x := y)
  have hy' := BitVec.le_toInt y
  have hsum : (x.signExtend 64 + y.signExtend 64).toInt = x.toInt + y.toInt := by
    rw [BitVec.toInt_add, BitVec.toInt_signExtend_of_le (by norm_num),
      BitVec.toInt_signExtend_of_le (by norm_num), Int.bmod_eq_of_le (by omega) (by omega)]
  have hfits : x.signExtend 64 + y.signExtend 64 =
      ((x.signExtend 64 + y.signExtend 64).setWidth 32).signExtend 64 ↔ ¬x.saddOverflow y := by
    rw [← BitVec.toInt_inj, BitVec.toInt_signExtend_of_le (by norm_num), BitVec.toInt_setWidth,
      BitVec.saddOverflow, hsum]
    have hcases := BitVec.toInt_eq_toNat_cond (x.signExtend 64 + y.signExtend 64)
    rw [hsum] at hcases
    simp only [Bool.or_eq_true, decide_eq_true_eq, Int.bmod_def]
    omega
  simp only [testAddOK, hfits]
  cases x.saddOverflow y <;> rfl

lemma addOK_eq (x y : Word) : addOK x y = testAddOK x y := by
  rw [addOK_overflow, testAddOK_overflow]

/-- The mask clears the bits that the signed shift has copied from the sign. -/
lemma logicalShift_eq (x n : Word) : logicalShift x n = testLogicalShift x n := by
  rw [logicalShift, testLogicalShift]
  split
  · rw [Option.some.injEq]
    ext i hi
    simp only [BitVec.getElem_and, BitVec.getElem_not, BitVec.getElem_shiftLeft,
      BitVec.getElem_sshiftRight, BitVec.getElem_ushiftRight]
    by_cases hbit : n.toNat + i < 32
    · rw [dif_pos hbit, BitVec.getLsbD_eq_getElem hbit]
      by_cases hi0 : i < 1
      · simp [hi0]
      · rw [dif_pos (show n.toNat + (i - 1) < 32 by omega)]
        simp [show n.toNat + (i - 1) < 31 by omega]
    · rw [BitVec.getLsbD_of_ge x _ (not_lt.mp hbit)]
      have hi0 : ¬i < 1 := by omega
      by_cases hlast : n.toNat + (i - 1) < 32
      · have hzero : n.toNat + (i - 1) - 31 = 0 := by omega
        simp [hi0, hlast, hzero, show ¬n.toNat + (i - 1) < 31 by omega]
      · have hmsb : ((1 : Word) <<< 31).msb = true := by decide
        rw [dif_neg hlast, hmsb]
        simp [hi0]
  · rfl

/-- The fields of twice the width have the same sum. -/
lemma addFields_sum (hk : 0 < k) (hmask : mask.toNat = evenMask k n)
    (hroom : 2 * mask.toNat < 2 ^ 32) (hshift : mask.toNat < 2 ^ (32 - k)) :
    fieldSum (2 * k) n (addFields mask k x).toNat = fieldSum k (2 * n) x.toNat := by
  have h1 := @Nat.and_le_right x.toNat mask.toNat
  have h2 := @Nat.and_le_right (x.toNat / 2 ^ k) mask.toNat
  rw [addFields, BitVec.toNat_add, BitVec.toNat_and, sshiftRight_and x mask hshift,
    Nat.mod_eq_of_lt (by omega), hmask, land_evenMask, land_evenMask, fieldSum_fold hk]

/-- The loop adds one bit in each round. -/
lemma testBitCount_loop (hn : n ≤ 32) :
    ((List.range n).foldl (fun result i => result + (x.sshiftRight i &&& 1)) 0).toNat =
      fieldSum 1 n x.toNat ∧ fieldSum 1 n x.toNat ≤ n := by
  induction n with
  | zero => exact ⟨rfl, le_rfl⟩
  | succ n ih =>
    obtain ⟨hloop, hle⟩ := ih (by omega)
    have hbit : (x.sshiftRight n &&& 1).toNat = x.toNat / 2 ^ (1 * n) % 2 ^ 1 := by
      rw [sshiftRight_and x 1, one_mul]
      · exact land_one _
      · exact Nat.one_lt_two_pow (by omega)
    rw [List.range_succ, List.foldl_concat, fieldSum_succ, BitVec.toNat_add, hloop, hbit]
    omega

/-- Folding leaves one field, which is the sum of the bits. -/
lemma bitCount_toNat (x : Word) : (bitCount x).toNat = fieldSum 1 32 x.toNat := by
  have hlast : (bitCount x).toNat = fieldSum (2 * 16) 1 (bitCount x).toNat := by
    rw [fieldSum_one, Nat.mod_eq_of_lt (bitCount x).isLt]
  rw [hlast, bitCount, addFields_sum (k := 16) (by norm_num) (by decide) (by decide) (by decide),
    addFields_sum (k := 8) (by norm_num) (by decide) (by decide) (by decide),
    addFields_sum (k := 4) (by norm_num) (by decide) (by decide) (by decide),
    addFields_sum (k := 2) (by norm_num) (by decide) (by decide) (by decide)]
  exact addFields_sum (k := 1) (by norm_num) (by decide) (by decide) (by decide)

lemma bitCount_eq (x : Word) : bitCount x = testBitCount x := by
  rw [← BitVec.toNat_inj, bitCount_toNat]
  exact (testBitCount_loop le_rfl).1.symm

/-- The integer puzzles agree with their references, and `bitCount` counts the bits that are set. -/
theorem integers_agree (x y : Word) :
    bitOr x y = testBitOr x y ∧ addOK x y = testAddOK x y ∧ negate x = testNegate x ∧
      logicalShift x y = testLogicalShift x y ∧ bitCount x = testBitCount x ∧
      (bitCount x).toNat = (List.range 32).countP x.getLsbD :=
  ⟨bitOr_eq x y, addOK_eq x y, negate_eq x, logicalShift_eq x y, bitCount_eq x,
    (bitCount_toNat x).trans fieldSum_bits⟩

end SystemsLabs.Bits
