import SystemsLabs.Library.FloatFormat
import SystemsLabs.Library.WordBits

/-!
# The floating-point puzzles

The functions of `bits.c` that compute with single-precision numbers take and return 32-bit words,
and their references in `tests.c` compute with numbers of the type `float`. An operation on such
numbers gives its exact result, rounded.
-/

namespace SystemsLabs.Bits

open Library

abbrev Word := BitVec 32

/-- The format of `float`. -/
def single : FloatFormat := ⟨8, 23, by decide, by decide⟩

/-- The word of the union, read as a number. -/
def u2f (u : Word) : single.Pattern := single.unpack u.toNat

def f2u (f : single.Pattern) : Word := BitVec.ofNat 32 f.pack

/-! ### float_twice -/

def floatTwice (uf : Word) : Word :=
  let exp := uf &&& 0x7f800000
  if exp = 0x7f800000 then uf
  else if exp = 0 then (uf &&& (0x80000000 : Word)) ||| (uf <<< 1)
  else uf + 0x800000

/-- `tf` is `2*f` for a number `f` that is no NaN. -/
def IsDouble (f tf : single.Pattern) : Prop :=
  if f.IsInfinite then tf = f else single.Rounds f.negative (2 * f.value) tf

/-- The result of `test_float_twice`. -/
def TestFloatTwice (uf r : Word) : Prop :=
  if (u2f uf).IsNaN then r = uf else ∃ tf, IsDouble (u2f uf) tf ∧ r = f2u tf

/-! ### float_i2f -/

/-- The loop that counts `exp` up until `x >> exp` is zero, where `n` shift amounts below the word
size are left. A shift by the word size or more is undefined. -/
def expLoop (x : Word) : ℕ → ℕ → Option ℕ
  | 0, _ => none
  | n + 1, exp =>
    if x.sshiftRight exp = 0 then some exp
    else if exp = 0 then some (exp + 1)
    else expLoop x n (exp + 1)

/-- The value of `exp` after the loop and its decrement. -/
def findExp (x : Word) : Option ℕ := (expLoop x 31 1).map (fun exp => exp - 1)

/-- The argument without its sign. -/
def positive (x : Word) : Word := if x &&& 0x80000000 ≠ 0 then -x else x

/-- The last statements of `float_i2f`: the mantissa is cut, rounded and put together with the sign
and the exponent. -/
def packI2f (sign x : Word) (exp : ℕ) : Word :=
  let mantissa := (x <<< (31 - exp)) &&& 0x7fffffff
  let round := mantissa &&& 0xff
  let mantissa := mantissa.sshiftRight 8
  let mantissa :=
    if 23 < exp ∧ (BitVec.slt 0x80 round ∨ round = 0x80 ∧ mantissa &&& 1 ≠ 0) then mantissa + 1
    else mantissa
  sign + (BitVec.ofNat 32 (exp + 127) <<< 23) + mantissa

def floatI2f (x : Word) : Option Word :=
  let sign := x &&& 0x80000000
  if x = 0 then some 0
  else if x = 0x80000000 then some 0xcf000000
  else (findExp (positive x)).map (packI2f sign (positive x))

/-- The result of `test_float_i2f`: the conversion `(float) x` rounds, and zero has no sign. -/
def TestFloatI2f (x r : Word) : Prop :=
  ∃ f, single.Rounds (decide (x.toInt < 0)) x.toInt f ∧ r = f2u f

/-! ### Words and fields -/

lemma single_infinity : single.infinity = 255 * 2 ^ 23 := rfl

lemma single_twice (p : ℕ) : single.twice p = if p < 2 ^ 23 then 2 * p else p + 2 ^ 23 := rfl

lemma u2f_negative (u : Word) : (u2f u).negative = decide (2 ^ 31 ≤ u.toNat) := rfl

lemma u2f_bits (u : Word) : (u2f u).bits = u.toNat % 2 ^ 31 := rfl

lemma f2u_toNat (f : single.Pattern) : (f2u f).toNat = f.pack := by
  have hlt : f.bits < 2 ^ 31 := f.bits_lt
  have hpack : f.pack = (if f.negative then 2 ^ 31 else 0) + f.bits := rfl
  rw [f2u, BitVec.toNat_ofNat, Nat.mod_eq_of_lt]
  rw [hpack]
  split <;> omega

@[simp] lemma u2f_f2u (f : single.Pattern) : u2f (f2u f) = f := by
  rw [u2f, f2u_toNat, FloatFormat.unpack_pack]

@[simp] lemma f2u_u2f (u : Word) : f2u (u2f u) = u := by
  rw [← BitVec.toNat_inj, f2u_toNat, u2f]
  exact FloatFormat.pack_unpack u.isLt

lemma sign_mask (u : Word) : (u &&& 0x80000000).toNat = u.toNat / 2 ^ 31 * 2 ^ 31 := by
  rw [BitVec.toNat_and, show (0x80000000 : Word).toNat = 2 ^ 32 - 2 ^ 31 from rfl]
  exact land_high_mask u.isLt (by norm_num)

end SystemsLabs.Bits
