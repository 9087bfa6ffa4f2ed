import SystemsLabs.Tsh.CommandLine
import SystemsLabs.Tsh.Handler
import SystemsLabs.Tsh.Operands

/-!
# Command lines as the user types them

`eval` parses the line, and `builtin_cmd` compares its first argument with the names of the built-in
commands. In whatever way the arguments are quoted and spaced, the shell does what they say.
-/

namespace SystemsLabs.Tsh
open Library

def quitName : List Byte := [113, 117, 105, 116]

def jobsName : List Byte := [106, 111, 98, 115]

inductive Evaluated
  | nothing
  | quit
  | bgfg (argv : List (List Byte))
  | jobs
  | launch (background : Bool) (argv : List (List Byte))
deriving DecidableEq

def builtinCmd (cmd : List Byte) (argv : List (List Byte)) : Option Evaluated :=
  if cmd = quitName then some Evaluated.quit
  else if cmd = fgName ∨ cmd = bgName then some (Evaluated.bgfg argv)
  else if cmd = jobsName then some Evaluated.jobs
  else none

/-- The strings in `argv` from an index on, up to `NULL`. -/
def readArgv (r : Parsed) : ℕ → ℕ → Option (List (List Byte))
  | 0, _ => none
  | fuel + 1, i =>
    match entry r.stores i with
    | none => none
    | some none => some []
    | some (some p) =>
      (readString r.mem maxLine p).bind fun w => (readArgv r fuel (i + 1)).map (w :: ·)

def eval (m : Memory) (array : ℕ) (cmdline : List Byte) : Option Evaluated := do
  let r ← parseline m array cmdline
  let argv ← readArgv r maxArgs 0
  match argv with
  | [] => some Evaluated.nothing
  | cmd :: _ => some ((builtinCmd cmd argv).getD (Evaluated.launch (r.bg ≠ 0) argv))

/-- The step of the shell on this. A built-in command that finds nothing to do only prints. -/
def Evaluated.command (cmdline : String) : Evaluated → Command
  | Evaluated.quit => Command.quit
  | Evaluated.jobs => Command.jobs
  | Evaluated.launch background _ => Command.launch ⟨background, cmdline⟩
  | Evaluated.bgfg (cmd :: param :: _) =>
    (parseOperand param).elim Command.prints (Command.bgfg (cmd = fgName))
  | _ => Command.prints

/-- The arguments without the one that asks for a background job. -/
def operands (args : List (List Byte)) : List (List Byte) :=
  if isBackground args then args.dropLast else args

def dispatch (args : List (List Byte)) : Evaluated :=
  match operands args with
  | [] => Evaluated.nothing
  | cmd :: rest =>
    (builtinCmd cmd (cmd :: rest)).getD (Evaluated.launch (isBackground args) (cmd :: rest))

structure Effect.Done (r : Effect) (u : Shell) : Prop where
  table : u.table = r.table
  exited : u.exited = r.exitCode.isSome
  waits : ∀ pid, r.waits = some pid → u.main = Main.waitSearch pid 0

section Lines

variable {m : Memory} {array i : ℕ} {line : List Byte} {args : List (List Byte)} {r : Parsed}

lemma readArgv_fills (h : r.Fills args) (hshort : ∀ w ∈ args, w.length < maxLine) {fuel : ℕ}
    (hi : i ≤ args.length) (hfuel : args.length - i < fuel) :
    readArgv r fuel i = some (args.drop i) := by
  obtain ⟨hargs, hnull, -⟩ := h
  induction fuel generalizing i with
  | zero => omega
  | succ fuel ih =>
    rcases Nat.lt_or_ge i args.length with hlt | hge
    · obtain ⟨p, hp, hstr⟩ := hargs i hlt
      have hread := hstr.readString (hshort _ (List.getElem_mem hlt))
      rw [readArgv, hp, List.drop_eq_getElem_cons hlt]
      simp only [hread, Option.bind_some, ih hlt (by omega), Option.map_some]
    · obtain rfl : i = args.length := le_antisymm hi hge
      rw [readArgv, hnull, List.drop_length]

lemma length_argument (harray : 0 < array) (hline : ∀ c ∈ line, c ≠ 0)
    (hlen : line.length < maxLine) : ∀ w ∈ arguments line, w.length < maxLine := by
  obtain ⟨m', ps, hps, -⟩ := parseline_eq (fun _ => 0) harray hline hlen
  intro w hw
  obtain ⟨i, hi, rfl⟩ := List.getElem_of_mem hw
  obtain ⟨-, hlo, hhi⟩ := hps.get (hps.length_eq.symm ▸ hi) hi
  simp only [List.get_eq_getElem] at hlo hhi
  omega

lemma operands_nil : operands [] = [] := rfl

/-- `argv` holds what `eval` goes by, and for a line that is not blank the result says whether the
job runs in the background. -/
lemma parseline_operands (m : Memory) (harray : 0 < array) (hline : ∀ c ∈ line, c ≠ 0)
    (hlen : line.length < maxLine) (hcount : (arguments line).length < maxArgs) :
    ∃ r, parseline m array line = some r ∧ r.Fills (operands (arguments line)) ∧
      (arguments line ≠ [] → (r.bg ≠ 0 ↔ isBackground (arguments line) = true)) := by
  rcases List.eq_nil_or_concat (arguments line) with hnil | ⟨args, w, hargs⟩
  · obtain ⟨m', ps, hps, heq⟩ := parseline_eq m harray hline hlen
    rw [hnil, List.forall₂_nil_right_iff] at hps
    subst hps
    rw [hnil] at heq ⊢
    exact ⟨_, heq, ⟨by simp [operands_nil], rfl, by simp [isBackground]⟩, by simp⟩
  · rw [List.concat_eq_append] at hargs
    have hne : arguments line ≠ [] := by simp [hargs]
    cases hbg : isBackground (arguments line) with
    | false =>
      obtain ⟨r, heq, hr, hfills⟩ := parseline_foreground m harray hline hlen hne hbg hcount
      rw [operands, hbg]
      exact ⟨r, heq, hfills, by simp [hr]⟩
    | true =>
      have hw : w.head? = some ampersand := by
        rw [hargs, isBackground] at hbg
        simpa using hbg
      have hfew : args.length + 1 < maxArgs := by simpa [hargs] using hcount
      obtain ⟨r, heq, hr, hfills⟩ := parseline_background m harray hline hlen hargs hw hfew
      rw [operands, hbg, hargs, if_pos rfl, List.dropLast_concat]
      exact ⟨r, heq, hfills, by simp [hr]⟩

lemma eval_line (m : Memory) (harray : 0 < array) (hline : ∀ c ∈ line, c ≠ 0)
    (hlen : line.length < maxLine) (hcount : (arguments line).length < maxArgs) :
    eval m array line = some (dispatch (arguments line)) := by
  obtain ⟨r, heq, hfills, hbg⟩ := parseline_operands m harray hline hlen hcount
  have hsub : ∀ w ∈ operands (arguments line), w ∈ arguments line := by
    intro w hw
    unfold operands at hw
    split at hw
    · exact List.mem_of_mem_dropLast hw
    · exact hw
  have hfew : (operands (arguments line)).length ≤ (arguments line).length := by
    unfold operands
    split <;> simp
  have hread : readArgv r maxArgs 0 = some (operands (arguments line)) :=
    readArgv_fills hfills (fun w hw => length_argument harray hline hlen w (hsub w hw))
      (Nat.zero_le _) (by omega)
  rw [eval, heq, dispatch]
  simp only [Option.bind_eq_bind, Option.bind_some, hread]
  cases hops : operands (arguments line) with
  | nil => rfl
  | cons cmd rest =>
    have hne : arguments line ≠ [] := by
      intro hnil
      rw [hnil, operands_nil] at hops
      cases hops
    simp [hbg hne]

lemma builtinCmd_bgfg {cmd : List Byte} {argv : List (List Byte)}
    (hcmd : cmd = fgName ∨ cmd = bgName) : builtinCmd cmd argv = some (Evaluated.bgfg argv) := by
  have hquit : cmd ≠ quitName := by rcases hcmd with rfl | rfl <;> simp [fgName, bgName, quitName]
  rw [builtinCmd, if_neg hquit, if_pos hcmd]

/-- With nothing in between, the shell runs `fg` and `bg` with any operands, or with none. -/
lemma bgfg_run {s : Shell} {kill : ℤ → Option String} {cmd : List Byte}
    (hexited : s.exited = false) (hstack : s.stack = []) (hmain : s.main = Main.prompt)
    (hkill : ∀ pid, kill (-pid) = none ↔ s.canKill pid) (hcmd : cmd = fgName ∨ cmd = bgName)
    (args : List (List Byte)) (cmdline : String) :
    ∃ n u, run step s (Event.command ((Evaluated.bgfg (cmd :: args)).command cmdline) ::
        List.replicate n Event.main) = some u ∧ (doBgfg kill s.table (cmd :: args)).Done u := by
  have hprints : ∀ text, doBgfg kill s.table (cmd :: args) = prints s.table text →
      (Evaluated.bgfg (cmd :: args)).command cmdline = Command.prints →
      ∃ n u, run step s (Event.command ((Evaluated.bgfg (cmd :: args)).command cmdline) ::
          List.replicate n Event.main) = some u ∧ (doBgfg kill s.table (cmd :: args)).Done u := by
    intro text heq hcommand
    rw [heq, hcommand]
    refine ⟨0, s, ?_, rfl, hexited, fun pid hpid => by cases hpid⟩
    simp [run, step, command, hexited, hstack, hmain]
  cases args with
  | nil =>
    apply hprints ((if cmd = fgName then "fg" else "bg") ++
      " command requires PID or %jobid argument\n") _ rfl
    rw [doBgfg, if_neg (not_not_intro hcmd)]
  | cons param rest =>
    cases hparam : parseOperand param with
    | none =>
      have hnone : ∃ text, doBgfg kill s.table (cmd :: param :: rest) = prints s.table text :=
        doBgfg_none hcmd (Or.inl hparam)
      obtain ⟨text, heq⟩ := hnone
      exact hprints text heq (by simp [Evaluated.command, hparam])
    | some target =>
      obtain ⟨fg, rfl⟩ : ∃ fg : Bool, cmd = if fg then fgName else bgName := by
        rcases hcmd with rfl | rfl
        · exact ⟨true, rfl⟩
        · exact ⟨false, rfl⟩
      obtain ⟨n, u, hn, htable, hexit, hwaits⟩ := doBgfg_run
        (s := { s with main := Main.find fg target 0 }) hexited hstack rfl hparam hkill
      refine ⟨n, u, ?_, htable, hexit, hwaits⟩
      have hcommand : (Evaluated.bgfg ((if fg then fgName else bgName) :: param :: rest)).command
          cmdline = Command.bgfg fg target := by
        cases fg <;> simp [Evaluated.command, hparam, fgName, bgName]
      rw [hcommand, run]
      simpa [step, command, hexited, hstack, hmain] using hn

end Lines

/-- However its arguments are quoted and spaced, a command line that says `fg` or `bg` is evaluated
to a call of `do_bgfg` with these arguments, and the statements that the shell then runs with
nothing in between have the effect of this call. -/
theorem eval_typed {s : Shell} {kill : ℤ → Option String} (m : Memory) {array : ℕ}
    (harray : 0 < array) {as : List (ℕ × Written)} (hapart : Apart as)
    (hlen : (commandLine as).length < maxLine) (hcount : as.length < maxArgs) {cmd : List Byte}
    {args : List (List Byte)} (hcmd : cmd = fgName ∨ cmd = bgName)
    (hargs : operands (texts as) = cmd :: args) (hexited : s.exited = false) (hstack : s.stack = [])
    (hmain : s.main = Main.prompt) (hkill : ∀ pid, kill (-pid) = none ↔ s.canKill pid)
    (cmdline : String) :
    ∃ e, eval m array (commandLine as) = some e ∧ ∃ n u,
      run step s (Event.command (e.command cmdline) :: List.replicate n Event.main) = some u ∧
        (doBgfg kill s.table (cmd :: args)).Done u := by
  have hline := arguments_commandLine hapart
  have heval := eval_line m harray (commandLine_ne_zero as) hlen (by
    rw [hline, texts, List.length_map]
    exact hcount)
  have hdispatch : dispatch (texts as) = Evaluated.bgfg (cmd :: args) := by
    rw [dispatch, hargs]
    simp only [builtinCmd_bgfg hcmd, Option.getD_some]
  rw [hline, hdispatch] at heval
  exact ⟨_, heval, bgfg_run hexited hstack hmain hkill hcmd args cmdline⟩

/-- What a user types as ` fg  '%1'` while the first job is in the background. -/
theorem eval_typed_fg : ∃ s : Shell, ∃ kill : ℤ → Option String,
    run step start (launches 1) = some s ∧ ∃ e,
      eval (fun _ => 0) 4096 (commandLine
        [(1, ⟨fgName, false, by decide, by decide⟩), (2, ⟨[37, 49], true, by decide, by decide⟩)]) =
          some e ∧ ∃ n u,
        run step s (Event.command (e.command "") :: List.replicate n Event.main) = some u ∧
          (doBgfg kill s.table [fgName, [37, 49]]).Done u := by
  have hrun : ∃ s, run step start (launches 1) = some s ∧ s.exited = false ∧ s.stack = [] ∧
      s.main = Main.prompt := by
    have hsome : ((run step start (launches 1)).any (fun s => s.exited = false ∧ s.stack = [] ∧
        s.main = Main.prompt)) = true := by
      decide
    simpa [Option.any_eq_true] using hsome
  obtain ⟨s, hs, hexited, hstack, hmain⟩ := hrun
  refine ⟨s, fun pid => if s.canKill (-pid) then none else some "No such process", hs, ?_⟩
  exact eval_typed (fun _ => 0) (by decide) (by simp [Apart]) (by decide) (by decide) (Or.inl rfl)
    rfl hexited hstack hmain (by simp) ""

end SystemsLabs.Tsh
