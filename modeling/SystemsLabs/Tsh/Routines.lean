import SystemsLabs.Tsh.Interleaving

/-!
# The routines without interruption

Statement by statement, and with nothing in between, the shell computes what the routines on the
job table return.
-/

namespace SystemsLabs.Tsh
open Library

variable {s : Shell} {pid : ℤ}

/-- A loop over the slots stops at the first one that `find?` returns. -/
lemma search_run (p : Fin maxJobs → Prop) [DecidablePred p] (loop : ℕ → Shell)
    (hit : Fin maxJobs → Shell) (miss : Shell) (e : Event)
    (hstep : ∀ i, step (loop i) e =
      some (if h : i < maxJobs then if p ⟨i, h⟩ then hit ⟨i, h⟩ else loop (i + 1) else miss)) :
    ∃ n, run step (loop 0) (List.replicate n e) =
      some (((List.finRange maxJobs).find? (fun i => p i)).elim miss hit) := by
  have hfrom : ∀ k i, i + k = maxJobs → ∃ n, run step (loop i) (List.replicate n e) =
      some ((((List.finRange maxJobs).drop i).find? (fun i => p i)).elim miss hit) := by
    intro k
    induction k with
    | zero =>
      intro i hi
      refine ⟨1, ?_⟩
      rw [List.drop_eq_nil_of_le (by simp; omega), List.replicate_one, run, hstep,
        dif_neg (by omega)]
      rfl
    | succ k ih =>
      intro i hi
      have hlt : i < maxJobs := by omega
      rw [List.drop_eq_getElem_cons (by simpa using hlt), List.find?_cons]
      by_cases hp : p ⟨i, hlt⟩
      · refine ⟨1, ?_⟩
        rw [List.replicate_one, run, hstep, dif_pos hlt, if_pos hp]
        simp [hp, run]
      · obtain ⟨n, hn⟩ := ih (i + 1) (by omega)
        refine ⟨n + 1, ?_⟩
        rw [List.replicate_succ, run, hstep, dif_pos hlt, if_neg hp, Option.bind_some, hn]
        simp [hp]
  simpa using hfrom maxJobs 0 (Nat.zero_add _)

lemma Table.modify_modify (t : Table) (i : Fin maxJobs) (f g : Job → Job) :
    (t.modify i f).modify i g = t.modify i (fun job => g (f job)) := by
  simp [Table.modify]

/-- `deletejob` in the handler. -/
theorem deletejob_run {rest : List Signal} (hexited : s.exited = false)
    (hstack : s.stack = Signal.chld :: rest) (hreap : s.reap = Reap.delete pid) :
    ∃ n, run step s (List.replicate n Event.handler) =
      some { s with table := (deletejob s.table pid).2, reap := Reap.wait } := by
  have hget : getjobpid s.table pid = none ∧ (deletejob s.table pid).2 = s.table ∨
      ∃ i, getjobpid s.table pid = some i ∧ (deletejob s.table pid).2 =
        { s.table.modify i (fun _ => clearjob) with
          nextjid := maxjid (s.table.modify i (fun _ => clearjob)) + 1 } := by
    by_cases hpid : pid < 1
    · exact Or.inl ⟨by rw [getjobpid, if_pos hpid], by rw [deletejob, if_pos hpid]⟩
    · cases hfind : (List.finRange maxJobs).find? (fun i => (s.table.jobs i).pid = pid) with
      | none =>
        exact Or.inl ⟨by rw [getjobpid, if_neg hpid, hfind], by rw [deletejob, if_neg hpid, hfind]⟩
      | some i =>
        exact Or.inr ⟨i, by rw [getjobpid, if_neg hpid, hfind],
          by rw [deletejob, if_neg hpid, hfind]⟩
  rcases hget with ⟨hget, hdelete⟩ | ⟨i, hget, hdelete⟩
  · refine ⟨1, ?_⟩
    rw [hdelete]
    simp [run, step, handlerStep, reapStep, hexited, hstack, hreap, hget]
  · refine ⟨6, ?_⟩
    rw [hdelete]
    simp [run, step, handlerStep, reapStep, hexited, hstack, hreap, hget, Table.modify_modify,
      clearjob, List.replicate_succ]

theorem stopped_run {rest : List Signal} (hexited : s.exited = false)
    (hstack : s.stack = Signal.chld :: rest) (hreap : s.reap = Reap.stopped pid) :
    ∃ n, run step s (List.replicate n Event.handler) =
      some ((getjobpid s.table pid).elim { s with reap := Reap.idle, stack := rest } (fun i =>
        { s with
          table := s.table.modify i (fun job => { job with state := JobState.st })
          reap := Reap.wait })) := by
  cases hget : getjobpid s.table pid with
  | none =>
    refine ⟨1, ?_⟩
    simp [run, step, handlerStep, reapStep, hexited, hstack, hreap, hget]
  | some i =>
    refine ⟨2, ?_⟩
    simp [run, step, handlerStep, reapStep, hexited, hstack, hreap, hget, List.replicate_succ]

theorem addjob_run {l : Launch} (hexited : s.exited = false) (hstack : s.stack = [])
    (hmain : s.main = Main.addCheck l pid) :
    ∃ n, run step s (List.replicate n Event.main) =
      some { s with
        table := (addjob s.table pid (if l.background then JobState.bg else JobState.fg) l.cmdline).2
        children := if (addjob s.table pid (if l.background then JobState.bg else JobState.fg)
          l.cmdline).1 then s.children.map (Child.tracked pid) else s.children
        main := Main.unblock l pid } := by
  by_cases hpid : pid < 1
  · refine ⟨1, ?_⟩
    simp [run, step, mainStep, hexited, hstack, hmain, hpid, addjob]
  · have hsearch := search_run (fun i => (s.table.jobs i).pid = 0)
      (fun i => { s with main := Main.addSearch l pid i })
      (fun i => { s with main := Main.addPid l pid i }) { s with main := Main.unblock l pid }
      Event.main (by
        intro i
        by_cases hi : i < maxJobs
        · by_cases hfree : (s.table.jobs ⟨i, hi⟩).pid = 0 <;>
            simp [step, mainStep, hexited, hstack, hi, hfree]
        · simp [step, mainStep, hexited, hstack, hi])
    apply run_replicate_trans (t := { s with main := Main.addSearch l pid 0 })
    · refine ⟨1, ?_⟩
      simp [run, step, mainStep, hexited, hstack, hmain, hpid]
    · apply run_replicate_trans hsearch
      cases hfind : (List.finRange maxJobs).find? (fun i => (s.table.jobs i).pid = 0) with
      | none =>
        refine ⟨0, ?_⟩
        simp [run, addjob, hpid, hfind]
      | some i =>
        refine ⟨5, ?_⟩
        simp [run, step, mainStep, hexited, hstack, addjob, hpid, hfind, Table.modify,
          List.replicate_succ]

/-- The search of `fg` and `bg`. -/
def Target.lookup (t : Table) : Target → Option (Fin maxJobs)
  | Target.pid p => getjobpid t p
  | Target.jid j => getjobjid t j

lemma Target.lookup_eq (t : Table) (target : Target) (hvalue : 1 ≤ target.value) :
    target.lookup t = (List.finRange maxJobs).find? (fun i => target.matches (t.jobs i)) := by
  cases target with
  | pid p =>
    have hp : ¬p < 1 := by
      simp only [Target.value] at hvalue
      omega
    rw [Target.lookup, getjobpid, if_neg hp]
    rfl
  | jid j =>
    have hj : ¬j < 1 := by
      simp only [Target.value] at hvalue
      omega
    rw [Target.lookup, getjobjid, if_neg hj]
    rfl

lemma Target.lookup_of_lt {t : Table} {target : Target} (hvalue : target.value < 1) :
    target.lookup t = none := by
  cases target <;> (simp only [Target.value] at hvalue; simp [Target.lookup, getjobpid, getjobjid, hvalue])

theorem lookup_run {fg : Bool} {target : Target} (hexited : s.exited = false) (hstack : s.stack = [])
    (hmain : s.main = Main.find fg target 0) :
    ∃ n, run step s (List.replicate n Event.main) =
      some ((target.lookup s.table).elim { s with main := Main.prompt }
        (fun i => { s with main := Main.readPid fg i })) := by
  by_cases hvalue : target.value < 1
  · refine ⟨1, ?_⟩
    rw [Target.lookup_of_lt hvalue]
    simp [run, step, mainStep, hexited, hstack, hmain, hvalue]
  · rw [Target.lookup_eq s.table target (by omega)]
    have hsame : s = { s with main := Main.find fg target 0 } := by rw [← hmain]
    rw [hsame]
    apply search_run (fun i => target.matches (s.table.jobs i))
      (fun i => { s with main := Main.find fg target i })
    intro i
    by_cases hi : i < maxJobs
    · by_cases hfound : target.matches (s.table.jobs ⟨i, hi⟩) <;>
        simp [step, mainStep, hexited, hstack, hvalue, hi, hfound]
    · simp [step, mainStep, hexited, hstack, hvalue, hi]

/-- The lookup in `waitfg`. -/
theorem waitfg_run (hexited : s.exited = false) (hstack : s.stack = [])
    (hmain : s.main = Main.waitSearch pid 0) :
    ∃ n, run step s (List.replicate n Event.main) =
      some ((getjobpid s.table pid).elim { s with main := Main.prompt }
        (fun i => { s with main := Main.waiting i })) := by
  by_cases hpid : pid < 1
  · refine ⟨1, ?_⟩
    simp [run, step, mainStep, hexited, hstack, hmain, hpid, getjobpid]
  · rw [getjobpid, if_neg hpid]
    have hsame : s = { s with main := Main.waitSearch pid 0 } := by rw [← hmain]
    rw [hsame]
    apply search_run (fun i => (s.table.jobs i).pid = pid)
      (fun i => { s with main := Main.waitSearch pid i })
    intro i
    by_cases hi : i < maxJobs
    · by_cases hfound : (s.table.jobs ⟨i, hi⟩).pid = pid <;>
        simp [step, mainStep, hexited, hstack, hpid, hi, hfound]
    · simp [step, mainStep, hexited, hstack, hpid, hi]

/-- The call of `fgpid` in a handler that forwards a signal. -/
theorem fgpid_run {k : Key} {rest : List Signal} (hexited : s.exited = false)
    (hstack : s.stack = Signal.key k :: rest) (hforward : s.forward k = Forward.search 0) :
    ∃ n, run step s (List.replicate n Event.handler) =
      some (if ∃ i, (s.table.jobs i).state = JobState.fg then
        { s with forward := Function.update s.forward k (Forward.send (fgpid s.table)) }
      else { s with forward := Function.update s.forward k Forward.idle, stack := rest }) := by
  have hsame : s = { s with forward := Function.update s.forward k (Forward.search 0) } := by
    rw [← hforward, Function.update_eq_self]
  have hsearch := search_run (fun i => (s.table.jobs i).state = JobState.fg)
    (fun i => { s with forward := Function.update s.forward k (Forward.search i) })
    (fun i => { s with forward := Function.update s.forward k (Forward.found i) })
    { s with forward := Function.update s.forward k Forward.idle, stack := rest } Event.handler (by
      intro i
      by_cases hi : i < maxJobs
      · by_cases hfg : (s.table.jobs ⟨i, hi⟩).state = JobState.fg <;>
          simp [step, handlerStep, forwardStep, hexited, hstack, hi, hfg]
      · simp [step, handlerStep, forwardStep, hexited, hstack, hi])
  rw [← hsame] at hsearch
  cases hfind : (List.finRange maxJobs).find? (fun i => (s.table.jobs i).state = JobState.fg) with
  | none =>
    have hno : ¬∃ i, (s.table.jobs i).state = JobState.fg := by
      rintro ⟨i, hi⟩
      exact find_no_slot hfind i hi
    rw [if_neg hno]
    rw [hfind] at hsearch
    exact hsearch
  | some i =>
    rw [if_pos ⟨i, find_slot hfind⟩, fgpid, hfind]
    rw [hfind] at hsearch
    apply run_replicate_trans hsearch
    refine ⟨1, ?_⟩
    simp [run, step, handlerStep, forwardStep, hexited, hstack]

end SystemsLabs.Tsh
