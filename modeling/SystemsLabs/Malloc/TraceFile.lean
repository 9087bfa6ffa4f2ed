import SystemsLabs.Library.Scan
import SystemsLabs.Malloc.Driver

/-!
# Trace files of the driver

`read_trace` stores the requests of a file and compares the two counts of the header with them only
at the end. What was written is read back if and only if the counts fit.
-/

namespace SystemsLabs.Malloc
open Library

/-! ### `read_trace` -/

/-- The record that `read_trace` fills, without its two tables. -/
structure Trace where
  suggHeapsize : ℤ
  numIds : ℤ
  numOps : ℤ
  weight : ℤ
  ops : List TraceOp
deriving DecidableEq

/-- Why `read_trace` returns no trace: the type character is bogus, an assertion fails, or the
behaviour is undefined. -/
inductive ReadEnd
  | bogus (c : Char)
  | assertion
  | undefined
deriving DecidableEq

/-- `fscanf(tracefile, "%u %u", &index, &size)`. A variable keeps its value if its number does not
match, and `size` has none at first. -/
def scanTwo (index : ℕ) (size : Option ℕ) (file : List Char) : ℕ × Option ℕ × List Char :=
  match scanUnsigned 10 32 file with
  | (none, file) => (index, size, file)
  | (some index, file) =>
    let r := scanUnsigned 10 32 file
    (index, r.1.or size, r.2)

/-- `fscanf(tracefile, "%ud", &index)`. The letter of the format matches itself. -/
def scanOne (index : ℕ) (file : List Char) : ℕ × List Char :=
  match scanUnsigned 10 32 file with
  | (none, file) => (index, file)
  | (some index, 'd' :: file) => (index, file)
  | (some index, file) => (index, file)

/-- The requests that fit into `malloc(trace->num_ops * sizeof(traceop_t))`, a product modulo
`2 ^ 32`. -/
def opsRoom (numOps : ℤ) : ℕ := toUnsigned (12 * numOps) / 12

/-- The loop of `read_trace` with an array for `room` requests. It gives the largest index of a block
that is allocated or reallocated and the requests. -/
def readOps (room : ℕ) : ℕ → List Char → ℕ → Option ℕ → ℕ → List TraceOp →
    Except ReadEnd (ℕ × List TraceOp)
  | 0, _, _, _, maxIndex, ops => .ok (maxIndex, ops)
  | fuel + 1, file, index, size, maxIndex, ops =>
    match scanWord file with
    | (none, _) => .ok (maxIndex, ops)
    | (some word, file) =>
      -- the buffer of the word and the array of requests are not checked
      if 1024 ≤ word.length then .error .undefined
      else
        let c := word.headD '\x00'
        if c = 'a' ∨ c = 'r' then
          match scanTwo index size file with
          | (_, none, _) => .error .undefined
          | (index, some size, file) =>
            if room ≤ ops.length then .error .undefined
            else
              let op := if c = 'a' then TraceOp.alloc index size else TraceOp.realloc index size
              readOps room fuel file index (some size) (max index maxIndex) (ops ++ [op])
        else if c = 'f' then
          let (index, file) := scanOne index file
          if room ≤ ops.length then .error .undefined
          else readOps room fuel file index size maxIndex (ops ++ [TraceOp.free index])
        else .error (.bogus c)

/-- Four numbers, if they match; else a variable stays without a value. -/
def scanHeader (file : List Char) : Option (ℤ × ℤ × ℤ × ℤ) × List Char :=
  let a := scanSigned 10 31 file
  let b := scanSigned 10 31 a.2
  let c := scanSigned 10 31 b.2
  let d := scanSigned 10 31 c.2
  (a.1.bind fun a => b.1.bind fun b => c.1.bind fun c => d.1.map fun d => (a, b, c, d), d.2)

def readTrace (file : List Char) : Except ReadEnd Trace :=
  match scanHeader file with
  | (none, _) => .error .undefined
  | (some (suggHeapsize, numIds, numOps, weight), file) =>
    match readOps (opsRoom numOps) (file.length + 1) file 0 none 0 [] with
    | .error e => .error e
    | .ok (maxIndex, ops) =>
      if toUnsigned (numIds - 1) ≠ maxIndex then .error .assertion
      else if toUnsigned numOps ≠ ops.length then .error .assertion
      else .ok ⟨suggHeapsize, numIds, numOps, weight, ops⟩

/-! ### Written traces -/

/-- A number on a line or in front of another one -/
def numberText (n : ℕ) (c : Char) : List Char := Nat.toDigits 10 n ++ [c]

def TraceOp.text : TraceOp → List Char
  | .alloc i n => 'a' :: ' ' :: (numberText i ' ' ++ numberText n '\n')
  | .realloc i n => 'r' :: ' ' :: (numberText i ' ' ++ numberText n '\n')
  | .free i => 'f' :: ' ' :: numberText i '\n'

def TraceOp.Small : TraceOp → Prop
  | .alloc i n => i < 2 ^ 31 ∧ n < 2 ^ 31
  | .realloc i n => i < 2 ^ 31 ∧ n < 2 ^ 31
  | .free i => i < 2 ^ 31

/-- The largest index that is allocated or reallocated, or `m`. -/
def maxIndex (m : ℕ) : List TraceOp → ℕ
  | [] => m
  | .alloc i _ :: ops => maxIndex (max i m) ops
  | .realloc i _ :: ops => maxIndex (max i m) ops
  | .free _ :: ops => maxIndex m ops

def traceText (suggHeapsize numIds numOps weight : ℕ) (ops : List TraceOp) : List Char :=
  numberText suggHeapsize '\n' ++ numberText numIds '\n' ++ numberText numOps '\n' ++
    numberText weight '\n' ++ ops.flatMap TraceOp.text

section Read

variable {room fuel index m i n : ℕ} {size : Option ℕ} {blanks t : List Char}
  {acc ops : List TraceOp} {c : Char}

lemma ends_space (hc : isSpace c = true) (t : List Char) : Ends 10 (c :: t) := by
  intro d hd
  obtain rfl : c = d := by simpa using hd
  refine ⟨?_, ?_, ?_⟩
  · by_contra hdigit
    have hspace := (isDigitOf_ne (by simpa using hdigit)).1
    rw [hc] at hspace
    cases hspace
  all_goals
    rintro rfl
    revert hc
    decide

/-- A written number is read back, and the character behind it stays. -/
lemma scanUnsigned_number (hblanks : ∀ c ∈ blanks, isSpace c = true) (hn : n < 2 ^ 31)
    (hc : isSpace c = true) (t : List Char) :
    scanUnsigned 10 32 (blanks ++ (numberText n c ++ t)) = (some n, c :: t) := by
  have hread := scanUnsigned_written (w := 32) (show 1 < 10 by decide) (by decide)
    (show n < 2 ^ 32 by omega) hblanks 0 (ends_space hc t)
  simpa [numberText] using hread

lemma scanSigned_number (hblanks : ∀ c ∈ blanks, isSpace c = true) (hn : n < 2 ^ 31)
    (hc : isSpace c = true) (t : List Char) :
    scanSigned 10 31 (blanks ++ (numberText n c ++ t)) = (some (n : ℤ), c :: t) := by
  have hread := scanSigned_written (w := 31) (n := n) (show 1 < 10 by decide) (by decide) hblanks
    (ends_space hc t)
  rw [min_eq_left (by omega)] at hread
  simpa [numberText] using hread

lemma scanTwo_number (hi : i < 2 ^ 31) (hn : n < 2 ^ 31) (t : List Char) :
    scanTwo index size (' ' :: (numberText i ' ' ++ (numberText n '\n' ++ t))) =
      (i, some n, '\n' :: t) := by
  have hspace : ∀ c ∈ [' '], isSpace c = true := isSpace_singleton rfl
  have h1 := scanUnsigned_number hspace hi (show isSpace ' ' = true by decide)
    (numberText n '\n' ++ t)
  have h2 := scanUnsigned_number hspace hn (show isSpace '\n' = true by decide) t
  simp only [List.singleton_append] at h1 h2
  simp [scanTwo, h1, h2]

lemma scanOne_number (hi : i < 2 ^ 31) (t : List Char) :
    scanOne index (' ' :: (numberText i '\n' ++ t)) = (i, '\n' :: t) := by
  have hspace : ∀ c ∈ [' '], isSpace c = true := isSpace_singleton rfl
  have h1 := scanUnsigned_number hspace hi (show isSpace '\n' = true by decide) t
  simp only [List.singleton_append] at h1
  simp [scanOne, h1]

/-- The type character of a request behind the end of the line before. -/
lemma scanWord_type (hblanks : ∀ c ∈ blanks, isSpace c = true) (hc : isSpace c = false)
    (t : List Char) : scanWord (blanks ++ c :: ' ' :: t) = (some [c], ' ' :: t) := by
  have hskip := (takeWhile_written (t := c :: ' ' :: t) hblanks (by simpa using hc)).2
  have hspace : isSpace ' ' = true := by decide
  simp [scanWord, hskip, hc, hspace]

lemma readOps_round (room fuel index m : ℕ) (size : Option ℕ) (acc : List TraceOp)
    (hblanks : ∀ c ∈ blanks, isSpace c = true) {op : TraceOp} (hop : op.Small) (t : List Char) :
    ∃ index' size', readOps room (fuel + 1) (blanks ++ (op.text ++ t)) index size m acc =
      if room ≤ acc.length then .error .undefined
      else readOps room fuel ('\n' :: t) index' size' (maxIndex m [op]) (acc ++ [op]) := by
  cases op with
  | alloc i n =>
    have hword := scanWord_type hblanks (show isSpace 'a' = false by decide)
      (numberText i ' ' ++ (numberText n '\n' ++ t))
    have htext : blanks ++ ((TraceOp.alloc i n).text ++ t) =
        blanks ++ 'a' :: ' ' :: (numberText i ' ' ++ (numberText n '\n' ++ t)) := by
      simp [TraceOp.text]
    refine ⟨i, some n, ?_⟩
    rw [htext, readOps, hword]
    simp [scanTwo_number hop.1 hop.2, maxIndex]
  | realloc i n =>
    have hword := scanWord_type hblanks (show isSpace 'r' = false by decide)
      (numberText i ' ' ++ (numberText n '\n' ++ t))
    have htext : blanks ++ ((TraceOp.realloc i n).text ++ t) =
        blanks ++ 'r' :: ' ' :: (numberText i ' ' ++ (numberText n '\n' ++ t)) := by
      simp [TraceOp.text]
    refine ⟨i, some n, ?_⟩
    rw [htext, readOps, hword]
    simp [scanTwo_number hop.1 hop.2, maxIndex]
  | free i =>
    have hword := scanWord_type hblanks (show isSpace 'f' = false by decide) (numberText i '\n' ++ t)
    have htext : blanks ++ ((TraceOp.free i).text ++ t) =
        blanks ++ 'f' :: ' ' :: (numberText i '\n' ++ t) := by
      simp [TraceOp.text]
    refine ⟨i, size, ?_⟩
    rw [htext, readOps, hword]
    simp [scanOne_number (show i < 2 ^ 31 from hop), maxIndex]

lemma maxIndex_cons (op : TraceOp) (ops : List TraceOp) : maxIndex m (op :: ops) = maxIndex (maxIndex m [op]) ops := by
  cases op <;> rfl

/-- The loop on written requests, with `acc` stored already. -/
lemma readOps_text (room index m : ℕ) (size : Option ℕ) (acc : List TraceOp)
    (hsmall : ∀ op ∈ ops, op.Small) (hblanks : ∀ c ∈ blanks, isSpace c = true)
    (hfuel : ops.length < fuel) :
    readOps room fuel (blanks ++ ops.flatMap TraceOp.text) index size m acc =
      if ops = [] ∨ acc.length + ops.length ≤ room then .ok (maxIndex m ops, acc ++ ops)
      else .error .undefined := by
  induction ops generalizing fuel index size m acc blanks with
  | nil =>
    obtain ⟨fuel, rfl⟩ : ∃ k, fuel = k + 1 := ⟨fuel - 1, by simp at hfuel; omega⟩
    have hskip : blanks.dropWhile isSpace = [] := by
      simpa using (takeWhile_written (t := []) hblanks (by simp)).2
    simp [readOps, scanWord, hskip, maxIndex]
  | cons op ops ih =>
    obtain ⟨fuel, rfl⟩ : ∃ k, fuel = k + 1 := ⟨fuel - 1, by simp at hfuel; omega⟩
    have hnewline : ∀ c ∈ ['\n'], isSpace c = true := isSpace_singleton rfl
    obtain ⟨index', size', hround⟩ := readOps_round room fuel index m size acc hblanks
      (hsmall op (by simp)) (ops.flatMap TraceOp.text)
    rw [List.flatMap_cons, hround, maxIndex_cons op ops]
    by_cases hfull : room ≤ acc.length
    · rw [if_pos hfull, if_neg]
      simp only [List.length_cons, reduceCtorEq, false_or]
      omega
    rw [if_neg hfull, ← List.singleton_append, ih index' (maxIndex m [op]) size' (acc ++ [op])
      (fun op hop => hsmall op (List.mem_cons_of_mem _ hop)) hnewline (by simpa using hfuel)]
    have hlength : (acc ++ [op]).length + ops.length = acc.length + (op :: ops).length := by
      simp only [List.length_append, List.length_cons, List.length_nil]
      omega
    rw [hlength]
    by_cases hroom : acc.length + (op :: ops).length ≤ room
    · rw [if_pos (Or.inr hroom), if_pos (Or.inr hroom)]
      simp
    · have hops : ops ≠ [] := by
        rintro rfl
        simp only [List.length_singleton] at hroom
        omega
      rw [if_neg (not_or.mpr ⟨hops, hroom⟩), if_neg (not_or.mpr ⟨by simp, hroom⟩)]

lemma maxIndex_lt (hsmall : ∀ op ∈ ops, op.Small) (hm : m < 2 ^ 31) : maxIndex m ops < 2 ^ 31 := by
  induction ops generalizing m with
  | nil => exact hm
  | cons op ops ih =>
    have hop := hsmall op (by simp)
    rw [maxIndex_cons]
    refine ih (fun op hop => hsmall op (List.mem_cons_of_mem _ hop)) ?_
    cases op with
    | alloc i n => exact max_lt hop.1 hm
    | realloc i n => exact max_lt hop.1 hm
    | free i => exact hm

lemma length_le_opsText (ops : List TraceOp) : ops.length ≤ (ops.flatMap TraceOp.text).length := by
  induction ops with
  | nil => simp
  | cons op ops ih =>
    have hpos : 1 ≤ op.text.length := by cases op <;> simp [TraceOp.text]
    rw [List.flatMap_cons, List.length_append, List.length_cons]
    omega

/-- The header is read up to the end of its last line. -/
lemma scanHeader_text {h ids w : ℕ} (hh : h < 2 ^ 31) (hids : ids < 2 ^ 31) (hn : n < 2 ^ 31)
    (hw : w < 2 ^ 31) : scanHeader (traceText h ids n w ops) =
      (some ((h : ℤ), (ids : ℤ), (n : ℤ), (w : ℤ)), '\n' :: ops.flatMap TraceOp.text) := by
  have hnone : ∀ c ∈ ([] : List Char), isSpace c = true := by simp
  have hnewline : ∀ c ∈ ['\n'], isSpace c = true := isSpace_singleton rfl
  have hc : isSpace '\n' = true := by decide
  have h1 := scanSigned_number hnone hh hc (numberText ids '\n' ++ (numberText n '\n' ++
    (numberText w '\n' ++ ops.flatMap TraceOp.text)))
  have h2 := scanSigned_number hnewline hids hc (numberText n '\n' ++
    (numberText w '\n' ++ ops.flatMap TraceOp.text))
  have h3 := scanSigned_number hnewline hn hc (numberText w '\n' ++ ops.flatMap TraceOp.text)
  have h4 := scanSigned_number hnewline hw hc (ops.flatMap TraceOp.text)
  simp only [List.nil_append, List.singleton_append] at h1 h2 h3 h4
  simp [scanHeader, traceText, h1, h2, h3, h4]

/-- The assertion about the ids, which wraps around for a header without ids. -/
lemma toUnsigned_ids {ids k : ℕ} (hids : ids < 2 ^ 31) (hk : k < 2 ^ 31) :
    toUnsigned ((ids : ℤ) - 1) = k ↔ ids = k + 1 := by
  rcases Nat.eq_zero_or_pos ids with rfl | hpos
  · have hwrap : toUnsigned (((0 : ℕ) : ℤ) - 1) = 2 ^ 32 - 1 := by decide
    rw [hwrap]
    omega
  · have hcast : (ids : ℤ) - 1 = (ids - 1 : ℕ) := by omega
    have hwrap : toUnsigned ((ids : ℤ) - 1) = ids - 1 := by
      rw [hcast]
      exact wrapUnsigned_natCast (by omega)
    rw [hwrap]
    omega

end Read

/-- What `read_trace` makes of a written trace. Requests that do not fit into the array are stored
behind it, and a header whose counts differ from the requests fails an assertion: the blocks that are
allocated or reallocated must be numbered up to the number of ids. -/
theorem readTrace_text {h ids n w : ℕ} {ops : List TraceOp} (hh : h < 2 ^ 31) (hids : ids < 2 ^ 31)
    (hn : n < 2 ^ 31) (hw : w < 2 ^ 31) (hsmall : ∀ op ∈ ops, op.Small) :
    readTrace (traceText h ids n w ops) =
      if opsRoom n < ops.length then .error .undefined
      else if ids = maxIndex 0 ops + 1 ∧ n = ops.length then .ok ⟨h, ids, n, w, ops⟩
      else .error .assertion := by
  have hnewline : ∀ c ∈ ['\n'], isSpace c = true := isSpace_singleton rfl
  have hlength := length_le_opsText ops
  have hloop : readOps (opsRoom n) ((ops.flatMap TraceOp.text).length + 1 + 1)
      ('\n' :: ops.flatMap TraceOp.text) 0 none 0 [] = _ :=
    readOps_text (opsRoom n) 0 0 none [] hsmall hnewline (by omega)
  have hmax : maxIndex 0 ops < 2 ^ 31 := maxIndex_lt hsmall (by norm_num)
  have hcount : toUnsigned (n : ℤ) = n := wrapUnsigned_natCast (by omega)
  rw [readTrace, scanHeader_text hh hids hn hw]
  simp only [List.length_cons, hloop, List.length_nil, List.nil_append, Nat.zero_add]
  by_cases hroom : opsRoom n < ops.length
  · have hops : ops ≠ [] := by
      rintro rfl
      simp at hroom
    rw [if_pos hroom, if_neg (not_or.mpr ⟨hops, not_le.mpr hroom⟩)]
  rw [if_neg hroom, if_pos (Or.inr (not_lt.mp hroom))]
  simp only [ne_eq, hcount, toUnsigned_ids hids hmax]
  by_cases hmatch : ids = maxIndex 0 ops + 1
  · by_cases hall : n = ops.length
    · rw [if_neg (not_not.mpr hmatch), if_neg (not_not.mpr hall), if_pos ⟨hmatch, hall⟩]
    · rw [if_neg (not_not.mpr hmatch), if_pos hall, if_neg (mt And.right hall)]
  · rw [if_pos hmatch, if_neg (mt And.left hmatch)]

/-- One id is enough for a block that is allocated, resized and freed. -/
theorem readTrace_resized :
    readTrace (traceText 100 1 3 1 [.alloc 0 12, .realloc 0 20, .free 0]) =
      .ok ⟨100, 1, 3, 1, [.alloc 0 12, .realloc 0 20, .free 0]⟩ := by
  rw [readTrace_text (by decide) (by decide) (by decide) (by decide) (by simp [TraceOp.Small])]
  decide

end SystemsLabs.Malloc
