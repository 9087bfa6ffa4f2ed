import SystemsLabs.Tsh.CommandLine

/-!
# The shell that redirects

`labsh` splits a command line with the loop of `tsh`. The last but one argument may ask for a file
that the output goes to.
-/

namespace SystemsLabs.Labsh
open Library Tsh

def greater : Byte := 62

/-- The memory, the stores into `argv` and the return value, which may be `NULL`. -/
structure Redirected where
  mem : Memory
  stores : List (Option ℕ × ℕ)
  rdFile : Option ℕ

def parseline (m : Memory) (array : ℕ) (cmdline : List Byte) : Option Redirected := do
  let m := strcpy m array cmdline
  let n ← strlen m maxLine array
  let m := Function.update m (array + n - 1) space
  let (buf, delim) ← nextArg m array
  let (m, argc, stores) ← parseLoop maxLine m buf delim 0 []
  let stores := stores ++ [(none, argc)]
  if argc = 0 then some ⟨m, stores, none⟩
  else if 2 < argc then
    let p ← (entry stores (argc - 2)).join
    if m p = greater then
      (entry stores (argc - 1)).map fun rdFile => ⟨m, stores ++ [(none, argc - 2)], rdFile⟩
    else some ⟨m, stores, none⟩
  else some ⟨m, stores, none⟩

def redirects (args : List (List Byte)) : Bool :=
  decide (2 < args.length) && decide ((args[args.length - 2]?.bind List.head?) = some greater)

def redirection (args : List (List Byte)) : List (List Byte) × Option (List Byte) :=
  if redirects args then (args.take (args.length - 2), args.getLast?) else (args, none)

/-- `argv` holds the command, and the return value points to the name of the file. -/
structure Redirected.Says (r : Redirected) (command : List (List Byte)) (file : Option (List Byte)) :
    Prop where
  fills : Parsed.Fills ⟨r.mem, r.stores, 0⟩ command
  isSome_eq : r.rdFile.isSome = file.isSome
  reads : ∀ p w, r.rdFile = some p → file = some w → StringAt r.mem p w

section Line

variable {m : Memory} {array : ℕ} {line : List Byte} {ps : List ℕ} {args : List (List Byte)}

lemma says_all (hps : List.Forall₂ (Points m array (array + maxLine)) ps args)
    (hcount : args.length < maxArgs) :
    Redirected.Says ⟨m, (ps.map some ++ [none]).zipIdx, none⟩ args none := by
  have hinside := stores_inside false hps hcount
  rw [if_neg Bool.false_ne_true, List.append_nil] at hinside
  refine ⟨⟨fun i hi => entry_of_points hps hi, ?_, fun q hq => (hinside q hq).1⟩, rfl, by simp⟩
  simp [entry_zipIdx, hps.length_eq]

/-- The stores with `NULL` over the argument that asks for the file. -/
lemma says_redirected (hps : List.Forall₂ (Points m array (array + maxLine)) ps args)
    (hcount : args.length < maxArgs) (htwo : 2 < args.length) :
    ∃ p, entry (ps.map some ++ [none]).zipIdx (args.length - 1) = some (some p) ∧
      Redirected.Says ⟨m, (ps.map some ++ [none]).zipIdx ++ [(none, args.length - 2)], some p⟩
        (args.take (args.length - 2)) args.getLast? := by
  obtain ⟨p, hp, hstr⟩ := entry_of_points hps (show args.length - 1 < args.length by omega)
  have hinside := stores_inside false hps hcount
  rw [if_neg Bool.false_ne_true, List.append_nil] at hinside
  have hlength : (args.take (args.length - 2)).length = args.length - 2 := by
    rw [List.length_take]
    omega
  have hlast : args.getLast? = some args[args.length - 1] := by
    rw [List.getLast?_eq_getElem?, List.getElem?_eq_getElem]
  refine ⟨p, hp, ⟨fun i hi => ?_, ?_, fun q hq => ?_⟩, by rw [hlast]; rfl, ?_⟩
  · rw [hlength] at hi
    obtain ⟨q, hq, hstr⟩ := entry_of_points hps (show i < args.length by omega)
    refine ⟨q, ?_, ?_⟩
    · rw [entry_concat, if_neg (by omega)]
      exact hq
    · rw [List.getElem_take]
      exact hstr
  · rw [hlength, entry_concat, if_pos rfl]
  · rcases List.mem_append.mp hq with hq | hq
    · exact (hinside q hq).1
    · rw [List.mem_singleton.mp hq]
      simp only
      omega
  · intro q w hq hw
    rw [hlast] at hw
    obtain rfl := Option.some.inj hq
    obtain rfl := Option.some.inj hw
    exact hstr

lemma parseline_redirection (m : Memory) (harray : 0 < array) (hline : ∀ c ∈ line, c ≠ 0)
    (hlen : line.length < maxLine) (hcount : (arguments line).length < maxArgs) :
    ∃ r, parseline m array line = some r ∧
      r.Says (redirection (arguments line)).1 (redirection (arguments line)).2 := by
  obtain ⟨hcopy, m', ps, buf, delim, hps, hnext, hrun⟩ :=
    parseLoop_arguments m harray hline hlen
  have hlength := hps.length_eq
  simp only [parseline, hcopy, Option.bind_eq_bind, Option.bind_some, hnext, hrun, zipIdx_null]
  generalize arguments line = args at *
  rw [hlength]
  by_cases htwo : 2 < args.length
  · obtain ⟨p, hp, hstr⟩ := entry_of_points hps (show args.length - 2 < args.length by omega)
    have hgreater : m' p = greater ↔ redirects args = true := by
      rw [hstr.head_eq, redirects,
        List.getElem?_eq_getElem (show args.length - 2 < args.length by omega)]
      cases args[args.length - 2] with
      | nil => simp [greater]
      | cons c w => simp [htwo]
    rw [if_neg (by omega), if_pos htwo, hp]
    simp only [Option.join_some, Option.bind_some]
    by_cases hfile : redirects args = true
    · obtain ⟨q, hq, hsays⟩ := says_redirected hps hcount htwo
      rw [if_pos (hgreater.mpr hfile), hq, redirection, if_pos hfile]
      exact ⟨_, rfl, hsays⟩
    · rw [if_neg (mt hgreater.mp hfile), redirection, if_neg hfile]
      exact ⟨_, rfl, says_all hps hcount⟩
  · have hno : redirection args = (args, none) := by simp [redirection, redirects, htwo]
    rw [hno, if_neg htwo, ite_self]
    exact ⟨_, rfl, says_all hps hcount⟩

end Line

/-- However its arguments are quoted and spaced, a command line is split into the command and the
file that its output goes to. -/
theorem labsh_typed (m : Memory) {array : ℕ} (harray : 0 < array) {as : List (ℕ × Written)}
    (hapart : Apart as) (hlen : (commandLine as).length < maxLine) (hcount : as.length < maxArgs) :
    ∃ r, parseline m array (commandLine as) = some r ∧
      r.Says (redirection (texts as)).1 (redirection (texts as)).2 := by
  have hargs := arguments_commandLine hapart
  rw [← hargs]
  apply parseline_redirection m harray (commandLine_ne_zero as) hlen
  rw [hargs, texts, List.length_map]
  exact hcount

/-- `ls > 'a b'` -/
theorem labsh_typed_file : ∃ r, parseline (fun _ => 0) 4096 (commandLine
    [(0, ⟨[108, 115], false, by decide, by decide⟩), (1, ⟨[62], false, by decide, by decide⟩),
      (1, ⟨[97, 32, 98], true, by decide, by decide⟩)]) = some r ∧
    r.Says [[108, 115]] (some [97, 32, 98]) :=
  labsh_typed (fun _ => 0) (by decide) (by simp [Apart]) (by decide) (by decide)

end SystemsLabs.Labsh
