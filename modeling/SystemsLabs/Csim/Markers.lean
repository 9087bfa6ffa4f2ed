import SystemsLabs.Csim.TraceFile

/-!
# The trace between two markers

`eval_perf` of the test program runs every transpose function under a tracer. It copies the data
accesses between two marker addresses to a file, without those above 4 GB, for the reference
simulator. Here the file is given to the simulator that is to agree with it. The copy stops at the
first access of the end marker, also in front of the start marker.
-/

namespace SystemsLabs.Csim
open Library

/-! ### The loop of `eval_perf` -/

/-- At most `n` characters, up to the end of the line. -/
def takeLine : ℕ → List Char → List Char × List Char
  | 0, s => ([], s)
  | _, [] => ([], [])
  | n + 1, c :: s =>
    if c = '\n' then (['\n'], s)
    else
      let r := takeLine n s
      (c :: r.1, r.2)

/-- `fgets(buf, n, file)` -/
def fgets (n : ℕ) (file : List Char) : Option (List Char × List Char) :=
  if file = [] then none else some (takeLine (n - 1) file)

/-- The test for a line with a data access. -/
def isDataLine (buf : List Char) : Bool :=
  buf.getD 0 '\x00' = ' ' && buf.getD 2 '\x00' = ' ' &&
    (buf.getD 1 '\x00' = 'S' || buf.getD 1 '\x00' = 'M' || buf.getD 1 '\x00' = 'L')

/-- The loop on what is left of the full trace. It gives the text that is written to the other
file. -/
def filterLoop (start stop : BitVec 64) : ℕ → Bool → BitVec 64 → List Char → List Char
  | 0, _, _, _ => []
  | fuel + 1, flag, addr, file =>
    match fgets 1000 file with
    | none => []
    | some (buf, file) =>
      if isDataLine buf then
        let addr := ((scanUnsigned 16 64 (buf.drop 3)).1.map (BitVec.ofNat 64)).getD addr
        let flag := flag || addr = start
        let part := if flag && addr < 0xffffffff#64 then buf else []
        if addr = stop then part else part ++ filterLoop start stop fuel flag addr file
      else filterLoop start stop fuel flag addr file

/-- The filtered trace of one transpose function. -/
def filterTrace (start stop addr : BitVec 64) (file : List Char) : List Char :=
  filterLoop start stop (file.length + 1) false addr file

/-! ### What it keeps -/

/-- A line of the full trace: a data access as the tracer prints it, or any line that is not one. -/
inductive TracedLine
  | data (l : Line)
  | other (text : List Char)

namespace TracedLine

def text : TracedLine → List Char
  | data l => l.text
  | other text => text

/-- Data accesses are printed with single blanks around the operation, other lines do not look like
one, and all lines fit the buffer. -/
def Printed : TracedLine → Prop
  | data l => l.op ≠ Op.I ∧ l.lead = [' '] ∧ l.gap = [' '] ∧ l.text.length < 1000
  | other text => ∃ t, text = t ++ ['\n'] ∧ '\n' ∉ t ∧ text.length < 1000 ∧ isDataLine text = false

def line? : TracedLine → Option Line
  | data l => some l
  | other _ => none

@[simp] lemma lines_data (l : Line) (ts : List TracedLine) :
    (data l :: ts).filterMap line? = l :: ts.filterMap line? := rfl

@[simp] lemma lines_other (text : List Char) (ts : List TracedLine) :
    (other text :: ts).filterMap line? = ts.filterMap line? := rfl

end TracedLine

/-- The lines up to the first access of `stop`. -/
def upTo (stop : BitVec 64) : List Line → List Line
  | [] => []
  | l :: ls => l :: if l.addr = stop then [] else upTo stop ls

/-- Of these, the lines from the first access of `start` on, below 4 GB. -/
def between (start stop : BitVec 64) (ls : List Line) : List Line :=
  ((upTo stop ls).dropWhile (fun l => l.addr ≠ start)).filter (fun l => l.addr < 0xffffffff#64)

section Filter

variable {start stop addr : BitVec 64} {n fuel : ℕ} {s t file : List Char} {l : Line} {ls : List Line}
  {ts : List TracedLine} {flag : Bool}

lemma takeLine_append (hs : '\n' ∉ s) (hn : s.length < n) :
    takeLine n (s ++ '\n' :: t) = (s ++ ['\n'], t) := by
  induction s generalizing n with
  | nil =>
    obtain ⟨n, rfl⟩ : ∃ k, n = k + 1 := ⟨n - 1, by simp at hn; omega⟩
    simp [takeLine]
  | cons c s ih =>
    obtain ⟨n, rfl⟩ : ∃ k, n = k + 1 := ⟨n - 1, by simp at hn; omega⟩
    simp only [List.mem_cons, not_or, List.length_cons, Nat.add_lt_add_iff_right] at hs hn
    simp [takeLine, Ne.symm hs.1, ih hs.2 hn]

lemma fgets_line (hs : '\n' ∉ s) (hn : (s ++ ['\n']).length < n) :
    fgets n ((s ++ ['\n']) ++ t) = some (s ++ ['\n'], t) := by
  have hlength : s.length < n - 1 := by
    rw [List.length_append, List.length_singleton] at hn
    omega
  have htake := takeLine_append (t := t) hs hlength
  rw [fgets, if_neg (by simp), List.append_assoc, List.singleton_append, htake]

lemma toDigits_not_newline {base k : ℕ} (h1 : 1 < base) (h16 : base ≤ 16) :
    '\n' ∉ Nat.toDigits base k := fun hmem => by
  have hdigit := isDigitOf_of_mem_toDigits h1 h16 hmem
  have hspace := (isDigitOf_ne hdigit).1
  revert hspace
  decide

/-- Every printed line is read by one `fgets`. -/
lemma TracedLine.Printed.line {x : TracedLine} (hx : x.Printed) :
    ∃ s, x.text = s ++ ['\n'] ∧ '\n' ∉ s ∧ x.text.length < 1000 := by
  cases x with
  | other text =>
    obtain ⟨s, hs, hnewline, hlength, -⟩ := hx
    exact ⟨s, hs, hnewline, hlength⟩
  | data l =>
    obtain ⟨hop, hlead, hgap, hlength⟩ := hx
    refine ⟨l.lead ++ l.op.char :: (l.gap ++ (List.replicate l.zeros '0' ++
      Nat.toDigits 16 l.addr.toNat ++ ',' :: Nat.toDigits 10 l.size)), ?_, ?_, hlength⟩
    · simp [TracedLine.text, Line.text, Line.operand]
    · have haddr := toDigits_not_newline (k := l.addr.toNat) (show 1 < 16 by decide) (by decide)
      have hsize := toDigits_not_newline (k := l.size) (show 1 < 10 by decide) (by decide)
      have hchar : '\n' ≠ l.op.char := by cases l.op <;> decide
      simp [hlead, hgap, haddr, hsize, hchar]

/-- What the loop makes of a data line. -/
lemma Line.isDataLine_text (hop : l.op ≠ Op.I) (hlead : l.lead = [' ']) (hgap : l.gap = [' ']) :
    isDataLine l.text = true ∧ (scanUnsigned 16 64 (l.text.drop 3)).1 = some l.addr.toNat := by
  have htext : l.text = ' ' :: l.op.char :: ' ' :: l.operand := by
    simp [Line.text, hlead, hgap]
  have hnone : ∀ c ∈ ([] : List Char), isSpace c = true := by simp
  have hscan := l.scanUnsigned_operand hnone []
  simp only [List.nil_append, List.append_nil] at hscan
  rw [htext]
  refine ⟨?_, by simp [hscan]⟩
  cases hopc : l.op with
  | I => exact absurd hopc hop
  | L => rfl
  | S => rfl
  | M => rfl

/-- The lines that the loop keeps, with its variable `flag`. -/
def keep (start stop : BitVec 64) : Bool → List Line → List Line
  | _, [] => []
  | flag, l :: ls =>
    let flag := flag || l.addr = start
    let part := if flag && l.addr < 0xffffffff#64 then [l] else []
    if l.addr = stop then part else part ++ keep start stop flag ls

lemma filterLoop_text (hts : ∀ x ∈ ts, x.Printed) (hfuel : ts.length < fuel) :
    filterLoop start stop fuel flag addr (ts.flatMap TracedLine.text) =
      (keep start stop flag (ts.filterMap TracedLine.line?)).flatMap Line.text := by
  induction ts generalizing fuel flag addr with
  | nil =>
    obtain ⟨fuel, rfl⟩ : ∃ k, fuel = k + 1 := ⟨fuel - 1, by simp at hfuel; omega⟩
    simp [filterLoop, fgets, keep]
  | cons x ts ih =>
    obtain ⟨fuel, rfl⟩ : ∃ k, fuel = k + 1 := ⟨fuel - 1, by simp at hfuel; omega⟩
    have hx := hts x (by simp)
    have hrest : ∀ flag addr, filterLoop start stop fuel flag addr (ts.flatMap TracedLine.text) =
        (keep start stop flag (ts.filterMap TracedLine.line?)).flatMap Line.text := fun flag addr =>
      ih (fun y hy => hts y (List.mem_cons_of_mem x hy)) (by simpa using hfuel)
    obtain ⟨s, hs, hnewline, hlength⟩ := hx.line
    have hget := fgets_line (t := ts.flatMap TracedLine.text) hnewline (hs ▸ hlength)
    rw [← hs] at hget
    rw [List.flatMap_cons, filterLoop, hget]
    simp only [hrest]
    cases x with
    | other text =>
      obtain ⟨-, -, -, -, hother⟩ := hx
      simp only [TracedLine.text, hother, TracedLine.lines_other]
      rfl
    | data l =>
      obtain ⟨hdata, hscan⟩ := Line.isDataLine_text hx.1 hx.2.1 hx.2.2.1
      rw [TracedLine.lines_data, keep]
      simp only [TracedLine.text, hdata, if_true, hscan, Option.map_some, Option.getD_some,
        BitVec.ofNat_toNat, BitVec.setWidth_eq]
      split_ifs <;> simp

lemma keep_true : keep start stop true ls =
    (upTo stop ls).filter (fun l => l.addr < 0xffffffff#64) := by
  induction ls with
  | nil => rfl
  | cons l ls ih =>
    simp only [keep, upTo, ih, List.filter_cons, Bool.true_or, Bool.true_and]
    by_cases hstop : l.addr = stop
    · simp only [hstop, if_true, List.filter_nil]
    · simp only [hstop, if_false]
      split <;> simp

lemma keep_false : keep start stop false ls = between start stop ls := by
  induction ls with
  | nil => rfl
  | cons l ls ih =>
    rw [between, upTo, List.dropWhile_cons]
    by_cases hstart : l.addr = start
    · -- the copy begins here
      have htrue : keep start stop true (l :: ls) =
          (upTo stop (l :: ls)).filter (fun l => l.addr < 0xffffffff#64) := keep_true
      have hflag : keep start stop false (l :: ls) = keep start stop true (l :: ls) := by
        simp [keep, hstart]
      have hkeep : ¬decide (l.addr ≠ start) = true := by simp [hstart]
      rw [hflag, htrue, upTo, if_neg hkeep]
    · have hdrop : decide (l.addr ≠ start) = true := decide_eq_true hstart
      rw [if_pos hdrop, keep]
      by_cases hstop : l.addr = stop
      · simp [hstop ▸ hstart, hstop]
      · simp [hstart, hstop, ih, between]

end Filter

/-- The file that is written for a transpose function makes the simulator run on the accesses from
the start marker to the end marker, whatever else the tracer prints. -/
theorem simulate_filterTrace {s b : ℕ} {c : Cache} (start stop addr addr' : BitVec 64)
    {ts : List TracedLine} (hts : ∀ x ∈ ts, x.Printed) :
    simulateFile s b c addr (filterTrace start stop addr' (ts.flatMap TracedLine.text)) =
      simulate s b c ((between start stop (ts.filterMap TracedLine.line?)).map Line.record) := by
  have hlength : ts.length ≤ (ts.flatMap TracedLine.text).length := by
    induction ts with
    | nil => simp
    | cons x ts ih =>
      obtain ⟨s, hs, -⟩ := (hts x (by simp)).line
      have := ih fun y hy => hts y (List.mem_cons_of_mem x hy)
      rw [List.flatMap_cons, List.length_append, List.length_cons, hs, List.length_append,
        List.length_singleton]
      omega
  have hkept := length_le_text (between start stop (ts.filterMap TracedLine.line?))
  have hnone : ∀ c ∈ ([] : List Char), isSpace c = true := by simp
  rw [filterTrace, filterLoop_text hts (by omega), keep_false]
  exact simulateLoop_text hnone (by omega)

/-- A data access as the tracer prints it. -/
def printedLine (op : Op) (addr : BitVec 64) (size : ℕ) : Line :=
  ⟨op, addr, size, [' '], [' '], 2, isSpace_singleton rfl, isSpace_singleton rfl⟩

/-- Accesses before, between and behind the markers, with other lines. -/
def tracedCall : List TracedLine :=
  [.other ("==7== lackey".toList ++ ['\n']), .data (printedLine Op.L 4 8),
    .data (printedLine Op.S 0x600 1), .other ("I  04000000,3".toList ++ ['\n']),
    .data (printedLine Op.M 0x10 4), .data (printedLine Op.L 0x1ffefff000 8),
    .data (printedLine Op.S 0x601 1), .data (printedLine Op.L 0x20 4)]

theorem simulate_tracedCall : simulateFile 1 1 (initCache 1 2) 0
      (filterTrace 0x600 0x601 0 (tracedCall.flatMap TracedLine.text)) =
    simulate 1 1 (initCache 1 2) [(Op.S, 0x600), (Op.M, 0x10), (Op.S, 0x601)] := by
  refine (simulate_filterTrace 0x600 0x601 0 0 ?_).trans rfl
  intro x hx
  simp only [tracedCall, List.mem_cons, List.not_mem_nil, or_false] at hx
  rcases hx with rfl | rfl | rfl | rfl | rfl | rfl | rfl | rfl
  all_goals first
    | exact ⟨by decide, rfl, rfl, by decide⟩
    | exact ⟨_, rfl, by decide, by decide, by decide⟩

end SystemsLabs.Csim
