import SystemsLabs.Csim.Simulator
import SystemsLabs.Library.Scan

/-!
# Trace files

`simulate` reads its records with `fscanf`, and the test program for the transpose functions cuts
the records between two marker accesses out of a longer trace with `fgets` and `sscanf`. What was
written as a trace is simulated record by record, in both programs.
-/

namespace SystemsLabs.Csim
open Library

/-! ### The loop of `simulate` -/

/-- `fscanf(file, " %c %llx%*c%*d", &opt, &addr)`: the two values, the second one only if it
matches, and the rest of the file. The result `none` is `EOF`. -/
def scanRecord (file : List Char) : Option ((Char × Option ℕ) × List Char) :=
  match file.dropWhile isSpace with
  | [] => none
  | opt :: file =>
    match scanUnsigned 16 64 file with
    | (none, file) => some ((opt, none), file)
    | (some addr, file) => some ((opt, some addr), (scanSigned 10 31 (file.drop 1)).2)

/-- The loop on what is left of the file. An address that does not match is the one before. -/
def simulateLoop (s b : ℕ) : ℕ → Cache → BitVec 64 → List Char → Cache
  | 0, c, _, _ => c
  | fuel + 1, c, addr, file =>
    match scanRecord file with
    | none => c
    | some ((opt, value), file) =>
      let addr := (value.map (BitVec.ofNat 64)).getD addr
      if opt = 'I' then simulateLoop s b fuel c addr file
      else
        let c := cacheAccess s b c addr
        let c := if opt = 'M' then cacheAccess s b c addr else c
        simulateLoop s b fuel c addr file

/-- `simulate` on a file. Before the first address the variable `addr` holds anything. -/
def simulateFile (s b : ℕ) (c : Cache) (addr : BitVec 64) (file : List Char) : Cache :=
  simulateLoop s b (file.length + 1) c addr file

/-! ### Written traces -/

def Op.char : Op → Char
  | Op.I => 'I'
  | Op.L => 'L'
  | Op.S => 'S'
  | Op.M => 'M'

/-- A line of a trace with its layout: white space before the operation and before the address,
zeros in front of the address, and the size of the access. -/
structure Line where
  op : Op
  addr : BitVec 64
  size : ℕ
  lead : List Char
  gap : List Char
  zeros : ℕ
  lead_space : ∀ c ∈ lead, isSpace c = true
  gap_space : ∀ c ∈ gap, isSpace c = true

namespace Line

variable (l : Line)

def record : Op × BitVec 64 := (l.op, l.addr)

/-- The address and the size. -/
def operand : List Char :=
  List.replicate l.zeros '0' ++ Nat.toDigits 16 l.addr.toNat ++ ',' :: (Nat.toDigits 10 l.size ++ ['\n'])

def text : List Char := l.lead ++ l.op.char :: (l.gap ++ l.operand)

end Line

section Loop

variable {s b fuel : ℕ} {c : Cache} {addr : BitVec 64} {file blanks : List Char} {l : Line}
  {ls : List Line}

lemma ends_comma (t : List Char) : Ends 16 (',' :: t) := by
  intro d hd
  obtain rfl : ',' = d := by simpa using hd
  exact ⟨by decide, by decide, by decide⟩

lemma ends_newline (base : ℕ) (t : List Char) : Ends base ('\n' :: t) := by
  intro d hd
  obtain rfl : '\n' = d := by simpa using hd
  exact ⟨rfl, by decide, by decide⟩

lemma Op.char_not_space (op : Op) : isSpace op.char = false := by
  cases op <;> rfl

/-- The address of a line, behind its white space. -/
lemma Line.scanUnsigned_operand (l : Line) (hblanks : ∀ c ∈ blanks, isSpace c = true) (t : List Char) :
    scanUnsigned 16 64 (blanks ++ (l.operand ++ t)) =
      (some l.addr.toNat, ',' :: (Nat.toDigits 10 l.size ++ '\n' :: t)) := by
  have hread := scanUnsigned_written (show 1 < 16 by decide) (by decide) l.addr.isLt hblanks l.zeros
    (ends_comma (Nat.toDigits 10 l.size ++ '\n' :: t))
  simpa [Line.operand] using hread

lemma scanRecord_text (hblanks : ∀ c ∈ blanks, isSpace c = true) (l : Line) (t : List Char) :
    scanRecord (blanks ++ (l.text ++ t)) = some ((l.op.char, some l.addr.toNat), '\n' :: t) := by
  have hskip : (blanks ++ (l.text ++ t)).dropWhile isSpace =
      l.op.char :: (l.gap ++ (l.operand ++ t)) := by
    have hlead : ∀ c ∈ blanks ++ l.lead, isSpace c = true := by
      intro c hc
      exact (List.mem_append.mp hc).elim (hblanks c) (l.lead_space c)
    have hdrop := (takeWhile_written (t := l.op.char :: (l.gap ++ (l.operand ++ t))) hlead
      (by simpa using l.op.char_not_space)).2
    simpa [Line.text] using hdrop
  have hnone : ∀ c ∈ ([] : List Char), isSpace c = true := by simp
  have hsize : scanSigned 10 31 (Nat.toDigits 10 l.size ++ '\n' :: t) = (_, '\n' :: t) :=
    scanSigned_written (show 1 < 10 by decide) (by decide) hnone (ends_newline 10 t)
  simp only [scanRecord, hskip, l.scanUnsigned_operand l.gap_space, List.drop_one, List.tail_cons, hsize]

lemma scanRecord_end (hblanks : ∀ c ∈ blanks, isSpace c = true) : scanRecord blanks = none := by
  have hskip : blanks.dropWhile isSpace = [] := by
    simpa using (takeWhile_written (t := []) hblanks (by simp)).2
  rw [scanRecord, hskip]

/-- The loop on a written trace takes the records one after the other. -/
lemma simulateLoop_text (hblanks : ∀ c ∈ blanks, isSpace c = true) (hfuel : ls.length < fuel) :
    simulateLoop s b fuel c addr (blanks ++ ls.flatMap Line.text) =
      simulate s b c (ls.map Line.record) := by
  induction ls generalizing fuel c addr blanks with
  | nil =>
    obtain ⟨fuel, rfl⟩ := Nat.exists_eq_add_of_lt hfuel
    simp [simulateLoop, scanRecord_end hblanks, simulate]
  | cons l ls ih =>
    obtain ⟨fuel, rfl⟩ : ∃ k, fuel = k + 1 := ⟨fuel - 1, by simp at hfuel; omega⟩
    have hnewline : ∀ c ∈ ['\n'], isSpace c = true := isSpace_singleton rfl
    have hrest := fun c addr => @ih fuel c addr ['\n'] hnewline (by simpa using hfuel)
    simp only [List.singleton_append] at hrest
    rw [List.flatMap_cons, simulateLoop, scanRecord_text hblanks l]
    simp only [Option.map_some, Option.getD_some, BitVec.ofNat_toNat, BitVec.setWidth_eq, hrest,
      List.map_cons, Line.record, simulate]
    cases l.op <;> simp [Op.char]

/-! ### Every file ends -/

lemma scanInteger_length (base : ℕ) (t : List Char) : (scanInteger base t).2.length ≤ t.length := by
  have hspace := (List.dropWhile_suffix isSpace (l := t)).length_le
  have hsign : ∀ t : List Char, (scanSign t).2.length ≤ t.length := by
    intro t
    unfold scanSign
    split <;> simp
  have hbase : ∀ t : List Char, (scanPrefix base t).length ≤ t.length := by
    intro t
    unfold scanPrefix
    split <;> (try split) <;> simp <;> omega
  exact ((List.dropWhile_suffix _).length_le.trans (hbase _)).trans ((hsign _).trans hspace)

lemma scanRecord_length {r : Char × Option ℕ} {rest : List Char} (h : scanRecord file = some (r, rest)) :
    rest.length < file.length := by
  unfold scanRecord at h
  have hskip := (List.dropWhile_suffix isSpace (l := file)).length_le
  split at h
  · cases h
  rename_i opt t heq
  rw [heq, List.length_cons] at hskip
  have hvalue : (scanUnsigned 16 64 t).2.length ≤ t.length := scanInteger_length 16 t
  split at h
  · rename_i hscan
    obtain ⟨-, rfl⟩ := Prod.mk.inj (Option.some.inj h)
    rw [hscan] at hvalue
    simp only at hvalue
    omega
  · rename_i u hscan
    obtain ⟨-, rfl⟩ := Prod.mk.inj (Option.some.inj h)
    have hsize : (scanSigned 10 31 (u.drop 1)).2.length ≤ (u.drop 1).length := scanInteger_length 10 _
    rw [hscan] at hvalue
    simp only [List.length_drop] at hvalue hsize
    omega

/-- The loop ends on every file: every round takes at least one character. -/
lemma simulateLoop_fuel {fuel' : ℕ} (h : file.length < fuel) (h' : file.length < fuel') :
    simulateLoop s b fuel c addr file = simulateLoop s b fuel' c addr file := by
  induction fuel generalizing fuel' c addr file with
  | zero => omega
  | succ fuel ih =>
    obtain ⟨fuel', rfl⟩ : ∃ k, fuel' = k + 1 := ⟨fuel' - 1, by omega⟩
    rw [simulateLoop, simulateLoop]
    cases hscan : scanRecord file with
    | none => rfl
    | some r =>
      obtain ⟨⟨opt, value⟩, rest⟩ := r
      have hlength := scanRecord_length hscan
      simp only
      split
      · exact ih (by omega) (by omega)
      · exact ih (by omega) (by omega)

lemma length_le_text (ls : List Line) : ls.length ≤ (ls.flatMap Line.text).length := by
  induction ls with
  | nil => simp
  | cons l ls ih =>
    rw [List.flatMap_cons, List.length_append, List.length_cons]
    have hpos : 1 ≤ l.text.length := by simp [Line.text]; omega
    omega

end Loop

/-- On a trace in any layout, with anything in the variable `addr`, the program simulates the
records of the trace. -/
theorem simulateFile_text {s b : ℕ} {c : Cache} (addr : BitVec 64) (ls : List Line) :
    simulateFile s b c addr (ls.flatMap Line.text) = simulate s b c (ls.map Line.record) := by
  have hlength := length_le_text ls
  have hnone : ∀ c ∈ ([] : List Char), isSpace c = true := by simp
  exact simulateLoop_text hnone (by omega)

end SystemsLabs.Csim
