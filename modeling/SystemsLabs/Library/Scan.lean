import Mathlib.Tactic

/-!
# Formatted input

The conversions of `fscanf` on the characters that are left in a file. Each gives the value it
converts, if the input matches, and what it leaves. A number that was written in a base is read
back in that base.
-/

namespace SystemsLabs.Library

/-! ### Characters -/

/-- White space of the C locale. -/
def isSpace (c : Char) : Bool := c = ' ' || (9 ≤ c.toNat && c.toNat ≤ 13)

/-- The value of a digit in some base up to 16. -/
def digitValue (c : Char) : Option ℕ :=
  if 48 ≤ c.toNat ∧ c.toNat ≤ 57 then some (c.toNat - 48)
  else if 97 ≤ c.toNat ∧ c.toNat ≤ 102 then some (c.toNat - 87)
  else if 65 ≤ c.toNat ∧ c.toNat ≤ 70 then some (c.toNat - 55)
  else none

def isDigitOf (base : ℕ) (c : Char) : Bool := (digitValue c).any (· < base)

/-- The number that a list of digits denotes, behind digits that denote `n`. -/
def numeral (base n : ℕ) (s : List Char) : ℕ :=
  s.foldl (fun n c => base * n + (digitValue c).getD 0) n

/-! ### Conversions -/

/-- An optional sign. -/
def scanSign : List Char → Bool × List Char
  | '-' :: s => (true, s)
  | '+' :: s => (false, s)
  | s => (false, s)

/-- The optional prefix of a hexadecimal number. -/
def scanPrefix (base : ℕ) : List Char → List Char
  | '0' :: 'x' :: s => if base = 16 then s else '0' :: 'x' :: s
  | '0' :: 'X' :: s => if base = 16 then s else '0' :: 'X' :: s
  | s => s

/-- The sign and the absolute value of an integer behind white space. Without a digit the input does
not match. -/
def scanInteger (base : ℕ) (s : List Char) : Option (Bool × ℕ) × List Char :=
  let (negative, s) := scanSign (s.dropWhile isSpace)
  let s := scanPrefix base s
  let digits := s.takeWhile (isDigitOf base)
  (if digits = [] then none else some (negative, numeral base 0 digits), s.dropWhile (isDigitOf base))

/-- `%u`, `%x` and the like for `w` bits: a large value saturates, a sign negates modulo `2 ^ w`. -/
def scanUnsigned (base w : ℕ) (s : List Char) : Option ℕ × List Char :=
  let (r, s) := scanInteger base s
  (r.map fun (negative, n) =>
    if 2 ^ w ≤ n then 2 ^ w - 1 else if negative then (2 ^ w - n) % 2 ^ w else n, s)

/-- `%d` for `w + 1` bits. -/
def scanSigned (base w : ℕ) (s : List Char) : Option ℤ × List Char :=
  let (r, s) := scanInteger base s
  (r.map fun (negative, n) => if negative then max (-(n : ℤ)) (-2 ^ w) else min (n : ℤ) (2 ^ w - 1), s)

/-- `%s` -/
def scanWord (s : List Char) : Option (List Char) × List Char :=
  let s := s.dropWhile isSpace
  let word := s.takeWhile (fun c => !isSpace c)
  (if word = [] then none else some word, s.dropWhile (fun c => !isSpace c))

/-! ### Written numbers -/

section Written

variable {base w n : ℕ} {c : Char} {s t blanks : List Char}

lemma isSpace_singleton (hc : isSpace c = true) : ∀ d ∈ [c], isSpace d = true := by
  simpa using hc

lemma digitValue_digitChar (h : n < 16) : digitValue n.digitChar = some n := by
  interval_cases n <;> rfl

lemma isDigitOf_of_mem_toDigits (h1 : 1 < base) (h16 : base ≤ 16) (hc : c ∈ Nat.toDigits base n) :
    isDigitOf base c = true := by
  induction n using Nat.strong_induction_on with
  | _ n ih =>
    rcases Nat.lt_or_ge n base with hn | hn
    · rw [Nat.toDigits_of_lt_base hn, List.mem_singleton] at hc
      rw [hc, isDigitOf, digitValue_digitChar (by omega)]
      simpa using hn
    · rw [Nat.toDigits_of_base_le h1 hn, List.mem_append, List.mem_singleton] at hc
      rcases hc with hc | hc
      · exact ih (n / base) (Nat.div_lt_self (by omega) h1) hc
      · have hmod := Nat.mod_lt n (show 0 < base by omega)
        rw [hc, isDigitOf, digitValue_digitChar (by omega)]
        simpa using hmod

lemma numeral_append : numeral base n (s ++ t) = numeral base (numeral base n s) t := by
  simp [numeral]

lemma numeral_toDigits (h1 : 1 < base) (h16 : base ≤ 16) : numeral base 0 (Nat.toDigits base n) = n := by
  induction n using Nat.strong_induction_on with
  | _ n ih =>
    rcases Nat.lt_or_ge n base with hn | hn
    · rw [Nat.toDigits_of_lt_base hn, numeral, List.foldl_cons, digitValue_digitChar (by omega)]
      simp
    · have hmod := Nat.mod_lt n (show 0 < base by omega)
      rw [Nat.toDigits_of_base_le h1 hn, numeral_append, ih (n / base) (Nat.div_lt_self (by omega) h1),
        numeral, List.foldl_cons, digitValue_digitChar (by omega)]
      exact Nat.div_add_mod n base

lemma numeral_zeros (k : ℕ) (s : List Char) :
    numeral base 0 (List.replicate k '0' ++ s) = numeral base 0 s := by
  induction k with
  | zero => rfl
  | succ k ih => simpa [numeral, List.replicate_succ, digitValue] using ih

/-- Digits are not white space, no signs and not the letter of a prefix. -/
lemma isDigitOf_ne (h : isDigitOf base c = true) :
    isSpace c = false ∧ c ≠ '-' ∧ c ≠ '+' ∧ c ≠ 'x' ∧ c ≠ 'X' := by
  have hvalue : (digitValue c).isSome := by
    cases hc : digitValue c with
    | none => simp [isDigitOf, hc] at h
    | some d => rfl
  have hrange : 48 ≤ c.toNat ∧ c.toNat ≤ 57 ∨ 97 ≤ c.toNat ∧ c.toNat ≤ 102 ∨
      65 ≤ c.toNat ∧ c.toNat ≤ 70 := by
    unfold digitValue at hvalue
    split_ifs at hvalue <;> simp_all
  refine ⟨?_, ?_, ?_, ?_, ?_⟩
  · simp only [isSpace, Bool.or_eq_false_iff, decide_eq_false_iff_not, Bool.and_eq_false_iff, not_le]
    constructor
    · rintro rfl
      revert hrange
      decide
    · omega
  all_goals
    rintro rfl
    revert hrange
    decide

/-- What may stand behind a number. -/
def Ends (base : ℕ) (t : List Char) : Prop :=
  ∀ c ∈ t.head?, isDigitOf base c = false ∧ c ≠ 'x' ∧ c ≠ 'X'

lemma takeWhile_written {p : Char → Bool} (hs : ∀ c ∈ s, p c = true) (ht : ∀ c ∈ t.head?, p c = false) :
    (s ++ t).takeWhile p = s ∧ (s ++ t).dropWhile p = t := by
  rw [List.takeWhile_append_of_pos hs, List.dropWhile_append_of_pos hs]
  cases t with
  | nil => simp
  | cons c t => simp [ht c (by simp)]

/-- Digits behind white space match up to what is no digit. -/
theorem scanInteger_written (hblanks : ∀ c ∈ blanks, isSpace c = true) (hs : s ≠ [])
    (hdigits : ∀ c ∈ s, isDigitOf base c = true) (ht : Ends base t) :
    scanInteger base (blanks ++ (s ++ t)) = (some (false, numeral base 0 s), t) := by
  obtain ⟨c, s, rfl⟩ := List.exists_cons_of_ne_nil hs
  obtain ⟨hspace, hminus, hplus, -, -⟩ := isDigitOf_ne (hdigits c (by simp))
  have hskip : (blanks ++ (c :: s ++ t)).dropWhile isSpace = c :: s ++ t := by
    refine (takeWhile_written hblanks ?_).2
    simpa using hspace
  have hsign : scanSign (c :: s ++ t) = (false, c :: s ++ t) := by
    simp only [List.cons_append, scanSign]
    split <;> simp_all
  have hprefix : scanPrefix base (c :: s ++ t) = c :: s ++ t := by
    have hsecond : ∀ d ∈ (s ++ t).head?, d ≠ 'x' ∧ d ≠ 'X' := by
      intro d hd
      cases s with
      | nil => exact (ht d hd).2
      | cons e s =>
        obtain rfl : e = d := by simpa using hd
        exact (isDigitOf_ne (hdigits e (by simp))).2.2.2
    simp only [List.cons_append]
    unfold scanPrefix
    split
    · rename_i heq
      exact absurd rfl (hsecond 'x' (by rw [(List.cons.inj heq).2]; rfl)).1
    · rename_i heq
      exact absurd rfl (hsecond 'X' (by rw [(List.cons.inj heq).2]; rfl)).2
    · rfl
  obtain ⟨htake, hdrop⟩ := takeWhile_written hdigits fun d hd => (ht d hd).1
  simp only [scanInteger, hskip, hsign, hprefix, htake, hdrop]
  simp

/-- `%u` reads back a number that was written with leading zeros. -/
theorem scanUnsigned_written (h1 : 1 < base) (h16 : base ≤ 16) (hn : n < 2 ^ w)
    (hblanks : ∀ c ∈ blanks, isSpace c = true) (k : ℕ) (ht : Ends base t) :
    scanUnsigned base w (blanks ++ (List.replicate k '0' ++ Nat.toDigits base n ++ t)) =
      (some n, t) := by
  have hzero : isDigitOf base '0' = true := by
    simp only [isDigitOf, digitValue]
    simpa using (show 0 < base by omega)
  have hdigits : ∀ c ∈ List.replicate k '0' ++ Nat.toDigits base n, isDigitOf base c = true := by
    intro c hc
    rcases List.mem_append.mp hc with hc | hc
    · rw [List.eq_of_mem_replicate hc]
      exact hzero
    · exact isDigitOf_of_mem_toDigits h1 h16 hc
  have hne : List.replicate k '0' ++ Nat.toDigits base n ≠ [] := by simp [Nat.toDigits_ne_nil]
  rw [scanUnsigned, scanInteger_written hblanks hne hdigits ht, numeral_zeros, numeral_toDigits h1 h16]
  simp [not_le.mpr hn]

/-- `%d` reads back a natural number. -/
theorem scanSigned_written (h1 : 1 < base) (h16 : base ≤ 16) (hblanks : ∀ c ∈ blanks, isSpace c = true)
    (ht : Ends base t) : scanSigned base w (blanks ++ (Nat.toDigits base n ++ t)) =
      (some (min (n : ℤ) (2 ^ w - 1)), t) := by
  rw [scanSigned, scanInteger_written hblanks Nat.toDigits_ne_nil
    (fun c hc => isDigitOf_of_mem_toDigits h1 h16 hc) ht, numeral_toDigits h1 h16]
  simp

end Written

end SystemsLabs.Library
