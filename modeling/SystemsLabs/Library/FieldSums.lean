import SystemsLabs.Library.WordBits

/-!
# Sums of fields

A word is cut into fields of equal width. When every other field is added to the one below it, the
fields of twice the width have the same sum. So the bits of a word are counted by folding it until
one field is left.
-/

namespace SystemsLabs.Library

/-- The sum of the first `n` fields of `k` bits. -/
def fieldSum (k : ℕ) : ℕ → ℕ → ℕ
  | 0, _ => 0
  | n + 1, x => x % 2 ^ k + fieldSum k n (x / 2 ^ k)

/-- The lower fields of `n` pairs of fields of `k` bits, where they are. -/
def evenFields (k : ℕ) : ℕ → ℕ → ℕ
  | 0, _ => 0
  | n + 1, x => x % 2 ^ k + 2 ^ (2 * k) * evenFields k n (x / 2 ^ (2 * k))

def evenMask (k : ℕ) : ℕ → ℕ
  | 0 => 0
  | n + 1 => 2 ^ k - 1 + 2 ^ (2 * k) * evenMask k n

variable {k n x : ℕ}

lemma land_evenMask : x &&& evenMask k n = evenFields k n x := by
  induction n generalizing x with
  | zero => simp [evenMask, evenFields]
  | succ n ih =>
    have hpow : 2 ^ k ≤ 2 ^ (2 * k) := Nat.pow_le_pow_right two_pos (by omega)
    have hpos : 0 < 2 ^ k := by positivity
    have hlow : evenMask k (n + 1) % 2 ^ (2 * k) = 2 ^ k - 1 := by
      rw [evenMask, Nat.add_mul_mod_self_left, Nat.mod_eq_of_lt (by omega)]
    have hhigh : evenMask k (n + 1) / 2 ^ (2 * k) = evenMask k n := by
      rw [evenMask, Nat.add_mul_div_left _ _ (by positivity), Nat.div_eq_of_lt (by omega), zero_add]
    rw [land_split (2 * k), hlow, hhigh, ih, Nat.and_two_pow_sub_one_eq_mod,
      Nat.mod_mod_of_dvd x (pow_dvd_pow 2 (by omega)), evenFields, add_comm]

/-- A pair of fields does not carry into the next one, since it has room for one more bit than each
of the two. -/
theorem fieldSum_fold (hk : 0 < k) :
    fieldSum (2 * k) n (evenFields k n x + evenFields k n (x / 2 ^ k)) = fieldSum k (2 * n) x := by
  induction n generalizing x with
  | zero => rfl
  | succ n ih =>
    have hpos : 0 < 2 ^ k := by positivity
    have hroom : 2 * 2 ^ k ≤ 2 ^ (2 * k) := by
      rw [← pow_succ']
      exact Nat.pow_le_pow_right two_pos (by omega)
    have hsquare : 2 ^ k * 2 ^ k = 2 ^ (2 * k) := by rw [← pow_add, two_mul]
    have hlow := Nat.mod_lt x hpos
    have hhigh := Nat.mod_lt (x / 2 ^ k) hpos
    have hcomm : x / 2 ^ k / 2 ^ (2 * k) = x / 2 ^ (2 * k) / 2 ^ k := Nat.div_right_comm ..
    have hpair : evenFields k (n + 1) x + evenFields k (n + 1) (x / 2 ^ k) =
        x % 2 ^ k + x / 2 ^ k % 2 ^ k + 2 ^ (2 * k) * (evenFields k n (x / 2 ^ (2 * k)) +
          evenFields k n (x / 2 ^ (2 * k) / 2 ^ k)) := by
      rw [evenFields, evenFields, hcomm]
      ring
    have hsum : x % 2 ^ k + x / 2 ^ k % 2 ^ k < 2 ^ (2 * k) := by omega
    rw [hpair, fieldSum, Nat.add_mul_mod_self_left, Nat.mod_eq_of_lt hsum,
      Nat.add_mul_div_left _ _ (by positivity), Nat.div_eq_of_lt hsum, zero_add, ih,
      show 2 * (n + 1) = 2 * n + 1 + 1 by ring, fieldSum, fieldSum, Nat.div_div_eq_div_mul, hsquare,
      add_assoc]

@[simp] lemma fieldSum_one : fieldSum k 1 x = x % 2 ^ k := by simp [fieldSum]

lemma fieldSum_succ : fieldSum k (n + 1) x = fieldSum k n x + x / 2 ^ (k * n) % 2 ^ k := by
  induction n generalizing x with
  | zero => simp [fieldSum]
  | succ n ih =>
    rw [fieldSum, ih, fieldSum, Nat.div_div_eq_div_mul, ← pow_add, add_assoc, mul_add, mul_one,
      add_comm k]

/-- The sum of the fields of one bit is the number of bits that are set. -/
lemma fieldSum_bits : fieldSum 1 n x = (List.range n).countP x.testBit := by
  induction n with
  | zero => rfl
  | succ n ih =>
    rw [fieldSum_succ, ih, List.range_succ, List.countP_append, one_mul, pow_one,
      ← Nat.shiftRight_eq_div_pow, List.countP_singleton]
    congr 1
    rw [Nat.testBit, Nat.one_and_eq_mod_two]
    rcases Nat.mod_two_eq_zero_or_one (x >>> n) with h | h <;> simp [h]

/-- Under a mask without its highest bits, a signed shift is an unsigned one. -/
lemma sshiftRight_and {w : ℕ} (v mask : BitVec w) (hmask : mask.toNat < 2 ^ (w - k)) :
    (v.sshiftRight k &&& mask).toNat = v.toNat / 2 ^ k &&& mask.toNat := by
  have hshift : v.sshiftRight k &&& mask = v >>> k &&& mask := by
    ext i hi
    rw [BitVec.getElem_and, BitVec.getElem_and, BitVec.getElem_sshiftRight,
      BitVec.getElem_ushiftRight]
    by_cases hbit : k + i < w
    · rw [dif_pos hbit, BitVec.getLsbD_eq_getElem hbit]
    · have hzero : mask[i] = false := by
        rw [BitVec.getElem_eq_testBit_toNat]
        exact Nat.testBit_lt_two_pow (hmask.trans_le (Nat.pow_le_pow_right two_pos (by omega)))
      rw [hzero, Bool.and_false, Bool.and_false]
  rw [hshift, BitVec.toNat_and, BitVec.toNat_ushiftRight, Nat.shiftRight_eq_div_pow]

end SystemsLabs.Library
