import Mathlib.Data.List.TakeWhile
import SystemsLabs.Library.ByteMemory
import SystemsLabs.Tsh.JobIds
import SystemsLabs.Tsh.Routines

/-!
# The operands of `fg` and `bg`

`do_bgfg` checks that its operand is made of digits, but not how many there are. `strtol` saturates
at 64 bits, and the assignment to an `int` keeps 32 of them.
-/

namespace SystemsLabs.Tsh
open Library

/-! ### The functions of the C library -/

def isdigit (c : Byte) : Bool := 48 ≤ c.toNat && c.toNat ≤ 57

def isspace (c : Byte) : Bool := c.toNat = 32 || (9 ≤ c.toNat && c.toNat ≤ 13)

/-- The number that a list of digits denotes. -/
def decimal (s : List Byte) : ℕ := s.foldl (fun n c => 10 * n + (c.toNat - 48)) 0

/-- `LONG_MAX` of the 64-bit build -/
def longMax : ℤ := 2 ^ 63 - 1

/-- `strtol(s, NULL, 10)` -/
def strtol (s : List Byte) : ℤ :=
  match s.dropWhile isspace with
  | [] => 0
  | c :: s =>
    if c = 45 then max (-(decimal (s.takeWhile isdigit) : ℤ)) (-longMax - 1)
    else if c = 43 then min (decimal (s.takeWhile isdigit) : ℤ) longMax
    else min (decimal ((c :: s).takeWhile isdigit) : ℤ) longMax

/-! ### `do_bgfg` -/

def percent : Byte := 37

/-- The names of the commands -/
def fgName : List Byte := [102, 103]

def bgName : List Byte := [98, 103]

/-- The loop over the characters of the operand. -/
def checkDigits : List Byte → Bool
  | [] => true
  | c :: s => if !isdigit c then false else checkDigits s

/-- The job that the operand asks for, if it is not malformed. -/
def parseOperand (param : List Byte) : Option Target :=
  let isJobId := param.head? = some percent
  if !checkDigits (param.drop (if isJobId then 1 else 0)) then none
  else if isJobId then some (Target.jid (wrapSigned 32 (strtol (param.drop 1))))
  else some (Target.pid (wrapSigned 32 (strtol param)))

/-- What a call leaves behind: the table, the first arguments of `kill(-pid, SIGCONT)`, the output,
the process that `waitfg` waits for, and the exit code of the shell if the call ends it. -/
structure Effect where
  table : Table
  signals : List ℤ
  output : String
  waits : Option ℤ
  exitCode : Option ℤ

/-- A call that only prints. -/
def prints (t : Table) (text : String) : Effect := ⟨t, [], text, none, none⟩

/-- `kill` gives the text of the error with which `kill(-pid, SIGCONT)` fails, if it does. -/
def doBgfg (kill : ℤ → Option String) (t : Table) (argv : List (List Byte)) : Effect :=
  match argv with
  | [] => ⟨t, [], "do_bgfg: Internal error", none, some 0⟩
  | cmd :: args =>
    if ¬(cmd = fgName ∨ cmd = bgName) then ⟨t, [], "do_bgfg: Internal error", none, some 0⟩
    else
      let isFG := cmd = fgName
      let name := if isFG then "fg" else "bg"
      match args with
      | [] => prints t (name ++ " command requires PID or %jobid argument\n")
      | param :: _ =>
        match parseOperand param with
        | none => prints t (name ++ ": argument must be a PID or %jobid\n")
        | some target =>
          match target.lookup t with
          | none =>
            match target with
            | Target.jid jid => prints t ("%" ++ toString jid ++ ": No such job\n")
            | Target.pid pid => prints t ("(" ++ toString pid ++ "): No such process\n")
          | some i =>
            let job := t.jobs i
            match kill (-job.pid) with
            | some error =>
              ⟨t, [-job.pid], "kill (" ++ name ++ ") error: " ++ error ++ "\n", none, some 1⟩
            | none =>
              if isFG then
                ⟨t.modify i (fun job => { job with state := JobState.fg }), [-job.pid], "",
                  some job.pid, none⟩
              else
                ⟨t.modify i (fun job => { job with state := JobState.bg }), [-job.pid],
                  "[" ++ toString job.jid ++ "] (" ++ toString job.pid ++ ") " ++ job.cmdline, none,
                  none⟩

/-! ### Exact operands -/

/-- A slot is free or holds a job, whose IDs are positive. They are of type `int`. -/
structure JobList (t : Table) : Prop where
  free : ∀ i, (t.jobs i).pid = 0 → (t.jobs i).jid = 0
  used : ∀ i, (t.jobs i).pid ≠ 0 → 1 ≤ (t.jobs i).pid ∧ 1 ≤ (t.jobs i).jid
  ints : ∀ i, (t.jobs i).pid < 2 ^ 31 ∧ (t.jobs i).jid < 2 ^ 31

/-- The calls of the shell keep every slot free or in use. -/
theorem jobList_of_reaches {t : Table} (h : Reaches tableStep (fun _ _ => True) initjobs t)
    (hints : ∀ i, (t.jobs i).pid < 2 ^ 31 ∧ (t.jobs i).jid < 2 ^ 31) : JobList t := by
  have hslots := h.invariant (fun t => 1 ≤ t.nextjid ∧ ∀ i, t.jobs i = clearjob ∨
    1 ≤ (t.jobs i).pid ∧ 1 ≤ (t.jobs i).jid) ⟨le_rfl, fun _ => Or.inl rfl⟩ ?_
  · refine ⟨fun i hi => ?_, fun i hi => ?_, hints⟩
    · rcases hslots.2 i with hclear | hused
      · rw [hclear]
        rfl
      · omega
    · rcases hslots.2 i with hclear | hused
      · exact absurd (by rw [hclear]; rfl) hi
      · exact hused
  · rintro t call u ⟨hnext, hslots⟩ - hstep
    -- one slot gets a job or is cleared
    have hmodify : ∀ (i : Fin maxJobs) (job : Job), (job = clearjob ∨ 1 ≤ job.pid ∧ 1 ≤ job.jid) →
        ∀ j, (t.modify i fun _ => job).jobs j = clearjob ∨
          1 ≤ ((t.modify i fun _ => job).jobs j).pid ∧
            1 ≤ ((t.modify i fun _ => job).jobs j).jid := by
      intro i job hjob j
      by_cases hj : j = i
      · subst hj
        rwa [Table.modify_self]
      · rw [Table.modify_of_ne hj]
        exact hslots j
    cases call with
    | addjob pid state cmdline =>
      simp only [tableStep, Option.ite_none_right_eq_some] at hstep
      obtain ⟨-, hstep⟩ := hstep
      rcases addjob_cases t pid state cmdline with ⟨hpid, i, -, heq⟩ | ⟨-, heq⟩
      · rw [heq] at hstep
        obtain rfl := Option.some.inj hstep
        refine ⟨?_, hmodify i _ (Or.inr ⟨hpid, hnext⟩)⟩
        dsimp only
        split <;> omega
      · rw [heq] at hstep
        obtain rfl := Option.some.inj hstep
        exact ⟨hnext, hslots⟩
    | deletejob pid =>
      simp only [tableStep] at hstep
      rcases deletejob_cases t pid with ⟨-, i, -, heq⟩ | ⟨-, heq⟩
      · rw [heq] at hstep
        obtain rfl := Option.some.inj hstep
        refine ⟨?_, hmodify i _ (Or.inl rfl)⟩
        have hmax := (le_maxjid (t.modify i fun _ => clearjob)).1
        dsimp only
        omega
      · rw [heq] at hstep
        obtain rfl := Option.some.inj hstep
        exact ⟨hnext, hslots⟩

def isJobId (param : List Byte) : Bool := param.head? = some percent

/-- The operand without its percent sign. -/
def operandDigits (param : List Byte) : List Byte := if isJobId param then param.drop 1 else param

/-- The ID of a job that an operand can ask for. -/
def Job.number (byJid : Bool) (job : Job) : ℤ := if byJid then job.jid else job.pid

/-- The operand is a number, behind a percent sign for a job ID, and its exact value is the ID of
the job in the slot. -/
def Names (t : Table) (param : List Byte) (i : Fin maxJobs) : Prop :=
  (t.jobs i).pid ≠ 0 ∧ operandDigits param ≠ [] ∧ (∀ c ∈ operandDigits param, isdigit c = true) ∧
    (decimal (operandDigits param) : ℤ) = (t.jobs i).number (isJobId param)

/-- `SIGCONT` goes to the process group of the job, and if it gets there the state of the job is
assigned and nothing else changes. -/
def ActsOn (kill : ℤ → Option String) (t : Table) (state : JobState) (i : Fin maxJobs) (r : Effect) :
    Prop :=
  r.signals = [-(t.jobs i).pid] ∧
    match kill (-(t.jobs i).pid) with
    | none => r.table = t.modify i (fun job => { job with state := state }) ∧ r.exitCode = none
    | some _ => r.table = t ∧ r.exitCode = some 1

/-- A call acts on a job that its operand names, and on no job if there is none. -/
def ActsExactly (kill : ℤ → Option String) (t : Table) (fg : Bool) (param : List Byte)
    (r : Effect) : Prop :=
  (∃ i, Names t param i ∧ ActsOn kill t (if fg then JobState.fg else JobState.bg) i r) ∨
    (¬∃ i, Names t param i) ∧ r.signals = [] ∧ r.table = t

/-- The value of the operand does not fit into an `int`, and what is left of it is the ID of a job. -/
def Aliases (t : Table) (param : List Byte) : Prop :=
  (∀ c ∈ operandDigits param, isdigit c = true) ∧ 2 ^ 31 ≤ decimal (operandDigits param) ∧
    ∃ i, (t.jobs i).pid ≠ 0 ∧ (t.jobs i).number (isJobId param) =
      wrapSigned 32 (min (decimal (operandDigits param)) longMax)

section Operands

variable {t : Table} {param s : List Byte} {target : Target} {i : Fin maxJobs}
  {kill : ℤ → Option String} {fg : Bool} {args : List (List Byte)}

lemma checkDigits_iff : checkDigits s = true ↔ ∀ c ∈ s, isdigit c = true := by
  induction s with
  | nil => simp [checkDigits]
  | cons c s ih => cases hc : isdigit c <;> simp [checkDigits, hc, ih]

lemma isdigit_iff {c : Byte} : isdigit c = true ↔ 48 ≤ c.toNat ∧ c.toNat ≤ 57 := by
  simp [isdigit]

lemma strtol_digits (hs : ∀ c ∈ s, isdigit c = true) : strtol s = min (decimal s : ℤ) longMax := by
  cases s with
  | nil => rfl
  | cons c s =>
    have hc := isdigit_iff.mp (hs c (by simp))
    have hspace : isspace c = false := by
      simp only [isspace, Bool.or_eq_false_iff, Bool.and_eq_false_iff, decide_eq_false_iff_not]
      omega
    have hminus : c ≠ 45 := by
      rintro rfl
      revert hc
      decide
    have hplus : c ≠ 43 := by
      rintro rfl
      revert hc
      decide
    rw [strtol, List.dropWhile_cons_of_neg (by simp [hspace])]
    simp only [if_neg hminus, if_neg hplus, List.takeWhile_eq_self_iff.mpr hs]

lemma parseOperand_eq (param : List Byte) : parseOperand param =
    if checkDigits (operandDigits param) then
      some (if isJobId param then Target.jid (wrapSigned 32 (strtol (operandDigits param)))
        else Target.pid (wrapSigned 32 (strtol (operandDigits param))))
    else none := by
  unfold parseOperand operandDigits isJobId
  by_cases hhead : param.head? = some percent
  · cases hcheck : checkDigits param.tail <;> simp [hhead, hcheck]
  · cases hcheck : checkDigits param <;> simp [hhead, hcheck]

lemma Target.lookup_some (h : target.lookup t = some i) :
    1 ≤ target.value ∧ target.matches (t.jobs i) := by
  have hvalue : 1 ≤ target.value := by
    by_contra hlt
    rw [Target.lookup_of_lt (by omega)] at h
    cases h
  rw [Target.lookup_eq t target hvalue] at h
  exact ⟨hvalue, find_slot h⟩

lemma Target.lookup_none (h : target.lookup t = none) (hvalue : 1 ≤ target.value)
    (i : Fin maxJobs) : ¬target.matches (t.jobs i) := by
  rw [Target.lookup_eq t target hvalue] at h
  exact find_no_slot h i

lemma JobList.number (h : JobList t) (hi : (t.jobs i).pid ≠ 0) (b : Bool) :
    1 ≤ (t.jobs i).number b ∧ (t.jobs i).number b < 2 ^ 31 := by
  have hused := h.used i hi
  have hints := h.ints i
  cases b
  · exact ⟨hused.1, hints.1⟩
  · exact ⟨hused.2, hints.2⟩

lemma JobList.used_of_number (h : JobList t) {b : Bool} (hn : (t.jobs i).number b ≠ 0) :
    (t.jobs i).pid ≠ 0 := by
  intro hfree
  cases b
  · exact hn hfree
  · exact hn (h.free i hfree)

/-- What the operand asks for, if it is made of digits. -/
lemma parseOperand_digits (hs : ∀ c ∈ operandDigits param, isdigit c = true) :
    ∃ target, parseOperand param = some target ∧
      target.value = wrapSigned 32 (min (decimal (operandDigits param)) longMax) ∧
      ∀ job, target.matches job ↔ job.number (isJobId param) = target.value := by
  rw [parseOperand_eq, if_pos (checkDigits_iff.mpr hs), strtol_digits hs]
  refine ⟨_, rfl, ?_⟩
  cases isJobId param
  · exact ⟨rfl, fun job => Iff.rfl⟩
  · exact ⟨rfl, fun job => Iff.rfl⟩

lemma parseOperand_none (hs : ¬∀ c ∈ operandDigits param, isdigit c = true) :
    parseOperand param = none := by
  rw [parseOperand_eq, if_neg (mt checkDigits_iff.mp hs)]

/-! ### The calls -/

variable {cmd : List Byte} {rest : List (List Byte)}

lemma doBgfg_none (hcmd : cmd = fgName ∨ cmd = bgName)
    (h : parseOperand param = none ∨ ∃ target, parseOperand param = some target ∧
      target.lookup t = none) :
    ∃ text, doBgfg kill t (cmd :: param :: rest) = prints t text := by
  simp only [doBgfg, if_neg (not_not_intro hcmd)]
  rcases h with h | ⟨target, h, hlookup⟩
  · simp only [h]
    exact ⟨_, rfl⟩
  · simp only [h, hlookup]
    cases target <;> exact ⟨_, rfl⟩

lemma doBgfg_some (hcmd : cmd = fgName ∨ cmd = bgName) (h : parseOperand param = some target)
    (hlookup : target.lookup t = some i) :
    ∃ text, doBgfg kill t (cmd :: param :: rest) =
      if kill (-(t.jobs i).pid) = none then
        ⟨t.modify i (fun job =>
            { job with state := if cmd = fgName then JobState.fg else JobState.bg }),
          [-(t.jobs i).pid], text, if cmd = fgName then some (t.jobs i).pid else none, none⟩
      else ⟨t, [-(t.jobs i).pid], text, none, some 1⟩ := by
  simp only [doBgfg, if_neg (not_not_intro hcmd), h, hlookup]
  cases kill (-(t.jobs i).pid) with
  | some error =>
    simp only [reduceCtorEq, if_false]
    exact ⟨_, rfl⟩
  | none =>
    by_cases hfg : cmd = fgName
    · simp only [hfg, if_true]
      exact ⟨_, rfl⟩
    · simp only [if_neg hfg, if_true]
      exact ⟨_, rfl⟩

lemma doBgfg_actsOn (hcmd : cmd = fgName ∨ cmd = bgName) (h : parseOperand param = some target)
    (hlookup : target.lookup t = some i) :
    ActsOn kill t (if cmd = fgName then JobState.fg else JobState.bg) i
      (doBgfg kill t (cmd :: param :: rest)) := by
  obtain ⟨text, heq⟩ := doBgfg_some hcmd h hlookup
  rw [heq, ActsOn]
  cases kill (-(t.jobs i).pid) <;> simp

/-- `fg` and `bg` act on the job that an operand names exactly, and on no other one, exactly for the
operands that do not alias one. -/
theorem doBgfg_exact_iff (kill : ℤ → Option String) (ht : JobList t)
    (hcmd : cmd = fgName ∨ cmd = bgName) (param : List Byte) (rest : List (List Byte)) :
    ActsExactly kill t (cmd = fgName) param (doBgfg kill t (cmd :: param :: rest)) ↔
      ¬Aliases t param := by
  by_cases hdigits : ∀ c ∈ operandDigits param, isdigit c = true
  swap
  · -- a malformed operand
    obtain ⟨text, heq⟩ := doBgfg_none hcmd (Or.inl (parseOperand_none hdigits))
    have hno : ¬∃ i, Names t param i := by
      rintro ⟨i, -, -, hdigit, -⟩
      exact hdigits hdigit
    rw [heq]
    exact iff_of_true (Or.inr ⟨hno, rfl, rfl⟩) fun h => hdigits h.1
  obtain ⟨target, hparse, hvalue, hmatches⟩ := parseOperand_digits hdigits
  -- a value below `2 ^ 31` is not truncated
  have hsmall : decimal (operandDigits param) < 2 ^ 31 → target.value = decimal (operandDigits param) := by
    intro hlt
    rw [hvalue, min_eq_left (by simp only [longMax]; omega)]
    exact wrapSigned_of_bounds (w := 31) (by omega) (by exact_mod_cast hlt)
  have hnames : ∀ i, Names t param i → target.value = (t.jobs i).number (isJobId param) := by
    rintro i ⟨hi, -, -, hnum⟩
    have := (ht.number hi (isJobId param)).2
    rw [hsmall (by omega), hnum]
  cases hlookup : target.lookup t with
  | none =>
    obtain ⟨text, heq⟩ := doBgfg_none hcmd (Or.inr ⟨target, hparse, hlookup⟩)
    rw [heq]
    refine iff_of_true (Or.inr ⟨?_, rfl, rfl⟩) ?_
    · rintro ⟨i, hi⟩
      have hnum := hnames i hi
      have := (ht.number hi.1 (isJobId param)).1
      exact Target.lookup_none hlookup (by omega) i ((hmatches _).mpr hnum.symm)
    · rintro ⟨-, -, i, hi, hnum⟩
      rw [← hvalue] at hnum
      have := (ht.number hi (isJobId param)).1
      exact Target.lookup_none hlookup (by omega) i ((hmatches _).mpr hnum)
  | some i =>
    have hacts : ActsOn kill t _ i (doBgfg kill t (cmd :: param :: rest)) :=
      doBgfg_actsOn hcmd hparse hlookup
    obtain ⟨hpos, hmatch⟩ := Target.lookup_some hlookup
    have hnum := (hmatches _).mp hmatch
    have hi : (t.jobs i).pid ≠ 0 := ht.used_of_number (b := isJobId param) (by omega)
    by_cases hlt : decimal (operandDigits param) < 2 ^ 31
    · have hval := hsmall hlt
      have hne : operandDigits param ≠ [] := by
        rintro hnil
        rw [hval, hnil] at hpos
        simp [decimal] at hpos
      refine iff_of_true (Or.inl ⟨i, ⟨hi, hne, hdigits, by rw [hnum, hval]⟩, ?_⟩) ?_
      · simpa using hacts
      · rintro ⟨-, hge, -⟩
        omega
    · refine iff_of_false ?_ (not_not_intro ⟨hdigits, by omega, i, hi, by rw [hnum, hvalue]⟩)
      have hno : ∀ j, ¬Names t param j := by
        rintro j ⟨hj, -, -, hjnum⟩
        have := (ht.number hj (isJobId param)).2
        omega
      rintro (⟨j, hj, -⟩ | ⟨-, hsignals, -⟩)
      · exact hno j hj
      · rw [hacts.1] at hsignals
        cases hsignals

end Operands

/-- A table with a background job. -/
def oneJob : Table := (addjob initjobs 101 JobState.bg "sleep 9 &").2

theorem doBgfg_exact_one : ActsExactly (fun _ => none) oneJob true [37, 49]
    (doBgfg (fun _ => none) oneJob [fgName, [37, 49]]) := by
  have hlist : JobList oneJob := ⟨by decide, by decide, by decide⟩
  refine (doBgfg_exact_iff (fun _ => none) hlist (Or.inl rfl) [37, 49] []).mpr ?_
  rintro ⟨-, hge, -⟩
  exact absurd hge (by decide)

/-- `bg %4294967297` continues job 1. -/
theorem doBgfg_aliases : JobList oneJob ∧
    (doBgfg (fun _ => none) oneJob
      [bgName, [37, 52, 50, 57, 52, 57, 54, 55, 50, 57, 55]]).signals = [-101] ∧
    ¬ActsExactly (fun _ => none) oneJob false [37, 52, 50, 57, 52, 57, 54, 55, 50, 57, 55]
      (doBgfg (fun _ => none) oneJob
        [bgName, [37, 52, 50, 57, 52, 57, 54, 55, 50, 57, 55]]) := by
  have hsignals : (doBgfg (fun _ => none) oneJob
      [bgName, [37, 52, 50, 57, 52, 57, 54, 55, 50, 57, 55]]).signals = [-101] := by
    decide
  refine ⟨⟨by decide, by decide, by decide⟩, hsignals, ?_⟩
  rintro (⟨i, ⟨-, -, -, hnum⟩, -⟩ | ⟨-, hnone, -⟩)
  · have hno : ∀ i, (oneJob.jobs i).number true ≠ 4294967297 := by decide
    exact hno i hnum.symm
  · rw [hsignals] at hnone
    cases hnone

/-! ### Statement by statement -/

/-- With nothing in between, the statements of `do_bgfg` from the search on have the effect of a
call with that operand. -/
theorem doBgfg_run {s : Shell} {fg : Bool} {target : Target} {param : List Byte}
    {kill : ℤ → Option String} (hexited : s.exited = false) (hstack : s.stack = [])
    (hmain : s.main = Main.find fg target 0) (hparam : parseOperand param = some target)
    (hkill : ∀ pid, kill (-pid) = none ↔ s.canKill pid) :
    ∃ n u, run step s (List.replicate n Event.main) = some u ∧
      u.table = (doBgfg kill s.table [if fg then fgName else bgName, param]).table ∧
      u.exited = (doBgfg kill s.table [if fg then fgName else bgName, param]).exitCode.isSome ∧
      ∀ pid, (doBgfg kill s.table [if fg then fgName else bgName, param]).waits = some pid →
        u.main = Main.waitSearch pid 0 := by
  have hcmd : (if fg then fgName else bgName) = fgName ∨ (if fg then fgName else bgName) = bgName := by
    cases fg <;> simp
  have hname : (if fg then fgName else bgName) = fgName ↔ fg = true := by
    cases fg <;> simp [fgName, bgName]
  obtain ⟨n, hn⟩ := lookup_run hexited hstack hmain
  cases hlookup : target.lookup s.table with
  | none =>
    obtain ⟨text, heq⟩ := doBgfg_none hcmd (Or.inr ⟨target, hparam, hlookup⟩)
    rw [hlookup] at hn
    rw [heq]
    refine ⟨n, _, hn, rfl, hexited, ?_⟩
    intro pid hpid
    cases hpid
  | some i =>
    obtain ⟨text, heq⟩ := doBgfg_some hcmd hparam hlookup
    rw [hlookup] at hn
    rw [heq]
    by_cases hcan : s.canKill (s.table.jobs i).pid
    · rw [if_pos ((hkill _).mpr hcan)]
      have hkills : ∀ m, Shell.canKill { s with main := m, stack := [], exited := false }
        (s.table.jobs i).pid := fun _ => hcan
      have hrest : ∃ k, run step { s with main := Main.readPid fg i } (List.replicate k Event.main) =
          some { s with
            children := s.children.map (Child.continued (s.table.jobs i).pid)
            table := s.table.modify i
              (fun job => { job with state := if fg then JobState.fg else JobState.bg })
            main := if fg then Main.waitSearch (s.table.jobs i).pid 0 else Main.prompt } := by
        refine ⟨3, ?_⟩
        simp [run, step, mainStep, hexited, hstack, hkills, List.replicate_succ]
      obtain ⟨k, hk⟩ := run_replicate_trans ⟨n, hn⟩ hrest
      refine ⟨k, _, hk, ?_, hexited, ?_⟩
      · simp only [hname]
      · intro pid hpid
        cases fg
        · simp [fgName, bgName] at hpid
        · simpa using hpid
    · rw [if_neg (mt (hkill _).mp hcan)]
      have hkills : ∀ m, ¬Shell.canKill { s with main := m, stack := [], exited := false }
        (s.table.jobs i).pid := fun _ => hcan
      have hrest : ∃ k, run step { s with main := Main.readPid fg i } (List.replicate k Event.main) =
          some { s with main := Main.sendCont fg i (s.table.jobs i).pid, exited := true } := by
        refine ⟨2, ?_⟩
        simp [run, step, mainStep, hexited, hstack, hkills, List.replicate_succ]
      obtain ⟨k, hk⟩ := run_replicate_trans ⟨n, hn⟩ hrest
      refine ⟨k, _, hk, rfl, rfl, ?_⟩
      intro pid hpid
      cases hpid

end SystemsLabs.Tsh
