import SystemsLabs.Tsh.Foreground
import SystemsLabs.Tsh.Handler

/-!
# The command `jobs`

`listjobs` reads the table slot by slot while `SIGCHLD` is open. With nothing in between it prints
one line for every child that is in the table. A handler that removes a job while its line is being
printed makes it an internal error.
-/

namespace SystemsLabs.Tsh
open Library

/-- The word that `listjobs` prints for a state. -/
def JobState.word : JobState → String
  | JobState.bg => "Running "
  | JobState.fg => "Foreground "
  | JobState.st => "Stopped "
  | JobState.undef => ""

def JobState.code : JobState → ℕ
  | JobState.undef => 0
  | JobState.fg => 1
  | JobState.bg => 2
  | JobState.st => 3

def Job.ids (job : Job) : String :=
  "[" ++ toString job.jid ++ "] (" ++ toString job.pid ++ ") "

def Job.internalError (i : Fin maxJobs) (job : Job) : String :=
  "listjobs: Internal error: job[" ++ toString (i : ℕ) ++ "].state=" ++ toString job.state.code ++ " "

/-- What the next statement of `listjobs` prints. -/
def Shell.printed (s : Shell) : String :=
  match s.main with
  | Main.listIds i => (s.table.jobs i).ids
  | Main.listState i => (s.table.jobs i).state.word
  | Main.listError i => (s.table.jobs i).internalError i
  | Main.listCmdline i => (s.table.jobs i).cmdline
  | _ => ""

/-- The shell with its output. -/
def printStep : Shell × String → Event → Option (Shell × String) :=
  recordStep step (fun s out e => if e = Event.main then out ++ s.printed else out)

/-- What `listjobs` prints about the slot of a job, if nothing changes in between. -/
def Job.line (i : Fin maxJobs) (job : Job) : String :=
  job.ids ++ job.state.word ++ (if job.state = JobState.undef then job.internalError i else "") ++
    job.cmdline

def Job.shown (job : Job) : String := job.ids ++ job.state.word ++ job.cmdline

/-- The slots that `listjobs` prints. -/
def listed (t : Table) : List (Fin maxJobs) :=
  (List.finRange maxJobs).filter (fun i => (t.jobs i).pid ≠ 0)

/-- What an uninterrupted call prints. -/
def listjobs (t : Table) : String := String.join ((listed t).map (fun i => (t.jobs i).line i))

variable {s t : Shell}

section Uninterrupted

lemma slot_run (hexited : s.exited = false) (hstack : s.stack = []) {i : ℕ} (hi : i < maxJobs)
    (out : String) :
    ∃ n, run printStep ({ s with main := Main.listTest i }, out) (List.replicate n Event.main) =
      some ({ s with main := Main.listTest (i + 1) }, out ++
        if (s.table.jobs ⟨i, hi⟩).pid ≠ 0 then (s.table.jobs ⟨i, hi⟩).line ⟨i, hi⟩ else "") := by
  by_cases hpid : (s.table.jobs ⟨i, hi⟩).pid = 0
  · refine ⟨1, ?_⟩
    simp [run, printStep, recordStep, step, mainStep, Shell.printed, hexited, hstack, hi, hpid]
  · by_cases hundef : (s.table.jobs ⟨i, hi⟩).state = JobState.undef
    · refine ⟨5, ?_⟩
      simp [run, printStep, recordStep, step, mainStep, Shell.printed, hexited, hstack, hi, hpid,
        hundef, List.replicate_succ, Job.line, String.append_assoc]
    · refine ⟨4, ?_⟩
      simp [run, printStep, recordStep, step, mainStep, Shell.printed, hexited, hstack, hi, hpid,
        hundef, List.replicate_succ, Job.line, String.append_assoc]

/-- With nothing in between, the statements of `listjobs` print what the function on the table
returns. -/
theorem listjobs_run (hexited : s.exited = false) (hstack : s.stack = []) (out : String) :
    ∃ n, run printStep ({ s with main := Main.listTest 0 }, out) (List.replicate n Event.main) =
      some ({ s with main := Main.prompt }, out ++ listjobs s.table) := by
  have hfrom : ∀ k i out, i + k = maxJobs → ∃ n,
      run printStep ({ s with main := Main.listTest i }, out) (List.replicate n Event.main) =
        some ({ s with main := Main.prompt }, out ++ String.join
          ((((List.finRange maxJobs).drop i).filter (fun i => (s.table.jobs i).pid ≠ 0)).map
            (fun i => (s.table.jobs i).line i))) := by
    intro k
    induction k with
    | zero =>
      intro i out hi
      refine ⟨1, ?_⟩
      rw [List.drop_eq_nil_of_le (by simp; omega)]
      simp [run, printStep, recordStep, step, mainStep, Shell.printed, hexited, hstack, ← hi]
    | succ k ih =>
      intro i out hi
      have hlt : i < maxJobs := by omega
      apply run_replicate_trans (slot_run hexited hstack hlt out)
      obtain ⟨n, hn⟩ := ih (i + 1) _ (by omega)
      have hdrop : (List.finRange maxJobs).drop i =
          ⟨i, hlt⟩ :: (List.finRange maxJobs).drop (i + 1) := by
        rw [List.drop_eq_getElem_cons (by simpa using hlt)]
        simp
      refine ⟨n, hn.trans ?_⟩
      rw [hdrop]
      by_cases hpid : (s.table.jobs ⟨i, hlt⟩).pid = 0 <;> simp [hpid, String.append_assoc]
  simpa [listjobs, listed] using hfrom maxJobs 0 out (Nat.zero_add _)

end Uninterrupted

/-- A slot with a process ID has a state, except where `addjob` assigns the one after the other. -/
structure Stated (s : Shell) : Prop where
  kept : Kept s
  stated : ∀ i, (s.table.jobs i).pid ≠ 0 → (s.table.jobs i).state = JobState.undef →
    ∃ l pid, s.main = Main.addState l pid i
  cleared : ∀ i, s.reap.cleared = some i → (s.table.jobs i).pid = 0

lemma Stated.move (h : Stated s) (hkept : Kept t)
    (hpid : ∀ i, (t.table.jobs i).pid = (s.table.jobs i).pid)
    (hstate : ∀ i, (t.table.jobs i).state = (s.table.jobs i).state)
    (hmain : ∀ l pid i, s.main = Main.addState l pid i → t.main = s.main)
    (hcleared : ∀ i, t.reap.cleared = some i → s.reap.cleared = some i) : Stated t where
  kept := hkept
  stated := by
    intro i hi hundef
    rw [hpid] at hi
    rw [hstate] at hundef
    obtain ⟨l, pid, heq⟩ := h.stated i hi hundef
    exact ⟨l, pid, (hmain l pid i heq).trans heq⟩
  cleared := by
    intro i hi
    rw [hpid]
    exact h.cleared i (hcleared i hi)

lemma Stated.assign (h : Stated s) (hkept : Kept t) {state : JobState} {i : Fin maxJobs}
    (htable : t.table = s.table.modify i (fun job => { job with state := state }))
    (hundef : state = JobState.undef → (s.table.jobs i).pid = 0)
    (hmain : ∀ l pid j, j ≠ i → s.main = Main.addState l pid j → t.main = s.main)
    (hcleared : ∀ j, t.reap.cleared = some j → s.reap.cleared = some j) : Stated t where
  kept := hkept
  stated := by
    intro j hj hstate
    rw [htable] at hj hstate
    by_cases hji : j = i
    · subst hji
      rw [Table.modify_self] at hj hstate
      exact absurd (hundef hstate) hj
    · rw [Table.modify_of_ne hji] at hj hstate
      obtain ⟨l, pid, heq⟩ := h.stated j hj hstate
      exact ⟨l, pid, (hmain l pid j hji heq).trans heq⟩
  cleared := by
    intro j hj
    rw [htable, Table.modify_field Job.pid rfl]
    exact h.cleared j (hcleared j hj)

lemma Stated.main (h : Stated s) (hkept : Kept t) (hstack : s.stack = [])
    (hstep : mainStep s = some t) : Stated t := by
  have hidle := h.kept.disciplined.idle hstack
  have hreap : ∀ i, t.reap.cleared = some i → s.reap.cleared = some i := by
    rw [(mainStep_handlers hstep).1]
    exact fun _ hi => hi
  cases hmain : s.main with
  | prompt | fork => simp [mainStep, hmain] at hstep
  | addPid l pid i =>
    simp only [mainStep, hmain, Option.some.injEq] at hstep
    subst hstep
    refine ⟨hkept, fun j hj hundef => ?_, by simp [hidle, Reap.cleared]⟩
    by_cases hji : j = i
    · exact ⟨l, pid, by rw [hji]⟩
    · rw [Table.modify_of_ne hji] at hj hundef
      obtain ⟨l', pid', heq⟩ := h.stated j hj hundef
      simp [hmain] at heq
  | addState l pid i =>
    simp only [mainStep, hmain, Option.some.injEq] at hstep
    subst hstep
    refine h.assign hkept rfl (fun hundef => ?_) (fun l' pid' j hji heq => ?_) hreap
    · split at hundef <;> cases hundef
    · rw [hmain] at heq
      exact absurd (Main.addState.inj heq).2.2.symm hji
  | setState fg i pid =>
    simp only [mainStep, hmain, Option.some.injEq] at hstep
    subst hstep
    refine h.assign hkept rfl (fun hundef => ?_) (fun l' pid' j _ heq => ?_) hreap
    · split at hundef <;> cases hundef
    · simp [hmain] at heq
  | addJid l pid i =>
    simp only [mainStep, hmain, Option.some.injEq] at hstep
    subst hstep
    have hagree := Table.modify_agree s.table i (fun job => { job with jid := s.table.nextjid })
      (fun _ => rfl) (fun _ => rfl)
    exact h.move hkept hagree.1 hagree.2 (by simp [hmain]) hreap
  | addCmdline l pid i =>
    simp only [mainStep, hmain, Option.some.injEq] at hstep
    subst hstep
    have hagree := Table.modify_agree s.table i (fun job => { job with cmdline := l.cmdline })
      (fun _ => rfl) (fun _ => rfl)
    exact h.move hkept hagree.1 hagree.2 (by simp [hmain]) hreap
  | sendCont fg i pid =>
    simp only [mainStep, hmain] at hstep
    split at hstep <;>
    · obtain rfl := Option.some.inj hstep
      exact h.move hkept (fun _ => rfl) (fun _ => rfl) (by simp [hmain]) hreap
  | _ =>
    simp only [mainStep, hmain, Option.some.injEq] at hstep
    subst hstep
    exact h.move hkept (fun _ => rfl) (fun _ => rfl) (by simp [hmain]) hreap

lemma Stated.reap (h : Stated s) (hkept : Kept t) {rest : List Signal}
    (hstep : reapStep s rest = some t) : Stated t := by
  constructor
  case kept => exact hkept
  case stated =>
    intro j hj hundef
    rw [reapStep_main hstep]
    cases reapStep_slot hstep j with
    | stopped hreap hpid hstate => cases hstate.symm.trans hundef
    | unnamed pid hreap hpid hstate => exact absurd hpid hj
    | undefined hreap hpid hstate =>
      have hcleared := h.cleared j (by rw [hreap]; rfl)
      exact absurd (hpid.trans hcleared) hj
    | same hreap hpid hstate => exact h.stated j (hpid ▸ hj) (hstate.symm.trans hundef)
  case cleared =>
    intro j hj
    rcases (reapStep_cleared hstep j).mp hj with ⟨pid, hreap⟩ | hreap
    · cases reapStep_slot hstep j with
      | unnamed pid' hreap' hpid hstate => exact hpid
      | stopped hreap' hpid hstate | undefined hreap' hpid hstate => simp [hreap] at hreap'
      | same hreap' hpid hstate => exact absurd hreap (hreap' pid).2.1
    · have hcleared := h.cleared j (by rw [hreap]; rfl)
      rcases reapStep_pid hstep j with hpid | hpid
      · exact hpid.trans hcleared
      · exact hpid

lemma Stated.step {e : Event} (h : Stated s) (hstep : step s e = some t) : Stated t := by
  have hkept := h.kept.step hstep
  have haside : ∀ {u : Shell}, Kept u → u.table = s.table →
      (∀ l pid i, s.main = Main.addState l pid i → u.main = s.main) →
      (∀ i, u.reap.cleared = some i → s.reap.cleared = some i) → Stated u := by
    intro u hu htable hmain hcleared
    exact h.move hu (fun _ => by rw [htable]) (fun _ => by rw [htable]) hmain hcleared
  cases moved_of_step hstep with
  | main hstack hmain => exact h.main hkept hstack hmain
  | reap rest hrest hreap => exact h.reap hkept hreap
  | forward k rest hrest hforward =>
    obtain ⟨f, stack, exited, rfl⟩ := forwardStep_eq hforward
    exact haside hkept rfl (fun _ _ _ _ => rfl) (fun _ hi => hi)
  | command c m exited hstack hmain hm =>
    exact haside hkept rfl (by simp [hmain]) (fun _ hi => hi)
  | fork l pid hstack hmain hpid hnew =>
    exact haside hkept rfl (by simp [hmain]) (fun _ hi => hi)
  | forkFails l hstack hmain => exact haside hkept rfl (fun _ _ _ _ => rfl) (fun _ hi => hi)
  | chld hsig hmasked => exact haside hkept rfl (fun _ _ _ _ => rfl) (by simp [Reap.cleared])
  | key k hsig => exact haside hkept rfl (fun _ _ _ _ => rfl) (fun _ hi => hi)
  | stopped c rest hrest hreap hc =>
    exact haside hkept rfl (fun _ _ _ _ => rfl) (by simp [Reap.cleared])
  | ended c rest hrest hreap hc =>
    exact haside hkept rfl (fun _ _ _ _ => rfl) (by simp [Reap.cleared])
  | drained rest hrest hreap =>
    exact haside hkept rfl (fun _ _ _ _ => rfl) (by simp [Reap.cleared])
  | child c c' e strays hc hnext => exact haside hkept rfl (fun _ _ _ _ => rfl) (fun _ hi => hi)
  | leave pid strays => exact haside hkept rfl (fun _ _ _ _ => rfl) (fun _ hi => hi)

lemma stated_start : Stated start where
  kept := kept_start
  stated := by simp [start, initjobs, clearjob]
  cleared := by simp [start, Reap.cleared]

lemma listed_perm (h : Kept s) (hmain : s.main = Main.prompt) (hstack : s.stack = []) :
    ((listed s.table).map (fun i => (s.table.jobs i).pid)).Perm
      ((s.children.filter Child.added).map Child.pid) := by
  have hidle := h.disciplined.idle hstack
  have hexact := h.exact
  have hunder : ∀ pid, ¬s.underway pid := by
    rintro pid (⟨i, hi⟩ | hi)
    · simp [hmain, Main.stage] at hi
    · simp [hidle, Reap.removal, Removal.child] at hi
  have hslots : ((listed s.table).map (fun i => (s.table.jobs i).pid)).Nodup := by
    refine List.Nodup.map_on ?_ ((List.nodup_finRange maxJobs).filter _)
    intro i hi j _ heq
    have hpid : (s.table.jobs i).pid ≠ 0 := by simpa [listed] using hi
    exact hexact.once i j hpid heq
  have hchildren : (s.children.map Child.pid).Nodup := by
    have := h.sound.nodup
    simpa [Shell.roster, Child.entry, Function.comp_def] using this
  rw [List.perm_ext_iff_of_nodup hslots (hchildren.sublist (List.filter_sublist.map _))]
  intro pid
  simp only [List.mem_map, listed, List.mem_filter, List.mem_finRange, true_and, decide_eq_true_eq,
    and_assoc]
  constructor
  · rintro ⟨i, hi, rfl⟩
    obtain ⟨c, hc, hpid, hadded⟩ := (hexact.listed _ hi (hunder _)).mp ⟨i, rfl⟩
    exact ⟨c, hc, hadded, hpid⟩
  · rintro ⟨c, hc, hadded, rfl⟩
    have hpos : 0 < c.pid := h.sound.positive c.entry (List.mem_map_of_mem hc)
    obtain ⟨i, hi⟩ := (hexact.listed c.pid hpos.ne' (hunder _)).mpr ⟨c, hc, rfl, hadded⟩
    exact ⟨i, by rw [hi]; exact hpos.ne', hi⟩

/-- The slot whose line `listjobs` is printing. -/
def Main.listing : Main → Option (Fin maxJobs)
  | Main.listIds i => some i
  | Main.listState i => some i
  | _ => none

/-- The slot whose line `listjobs` is printing has a process ID, or the handler has cleared it. -/
structure Legible (s : Shell) : Prop where
  kept : Kept s
  listing : ∀ i, s.main.listing = some i → (s.table.jobs i).pid ≠ 0 ∨ s.reap.cleared = some i ∨
    (s.table.jobs i).state = JobState.undef
  found : ∀ i, s.reap.found = some i → (s.table.jobs i).pid ≠ 0

lemma Legible.aside (h : Legible s) (hkept : Kept t)
    (hpid : ∀ i, (t.table.jobs i).pid = (s.table.jobs i).pid)
    (hstate : ∀ i, (t.table.jobs i).state = (s.table.jobs i).state)
    (hmain : ∀ i, t.main.listing = some i → s.main.listing = some i)
    (hcleared : ∀ i, s.reap.cleared = some i → t.reap.cleared = some i)
    (hfound : ∀ i, t.reap.found = some i → s.reap.found = some i) : Legible t where
  kept := hkept
  listing := by
    intro i hi
    rw [hpid, hstate]
    exact (h.listing i (hmain i hi)).imp_right (Or.imp_left (hcleared i))
  found := by
    intro i hi
    rw [hpid]
    exact h.found i (hfound i hi)

lemma Legible.main (h : Legible s) (hkept : Kept t) (hstack : s.stack = [])
    (hstep : mainStep s = some t) : Legible t := by
  have hidle := h.kept.disciplined.idle hstack
  have hreap : t.reap = Reap.idle := (mainStep_handlers hstep).1.trans hidle
  refine ⟨hkept, fun i hi => ?_, by simp [hreap, Reap.found]⟩
  cases hmain : s.main with
  | prompt | fork => simp [mainStep, hmain] at hstep
  | listTest k =>
    simp only [mainStep, hmain, Option.some.injEq] at hstep
    subst hstep
    dsimp only at hi
    split at hi
    · split at hi
      · obtain rfl := Option.some.inj hi
        exact Or.inl ‹_›
      · simp [Main.listing] at hi
    · simp [Main.listing] at hi
  | listIds j =>
    simp only [mainStep, hmain, Option.some.injEq] at hstep
    subst hstep
    exact h.listing i (by rw [hmain]; exact hi)
  | sendCont fg j pid =>
    simp only [mainStep, hmain] at hstep
    split at hstep <;>
    · obtain rfl := Option.some.inj hstep
      simp [Main.listing] at hi
  | _ =>
    simp only [mainStep, hmain, Option.some.injEq] at hstep
    subst hstep
    dsimp only at hi
    repeat' split at hi
    all_goals simp [Main.listing] at hi

lemma Legible.reap (h : Legible s) (hkept : Kept t) {rest : List Signal}
    (hstep : reapStep s rest = some t) : Legible t := by
  refine ⟨hkept, fun i hi => ?_, fun _ hj => reapStep_found hstep hj⟩
  rw [reapStep_main hstep] at hi
  cases reapStep_slot hstep i with
  | stopped hreap hpid hstate =>
    have hfound := h.found i (by rw [hreap]; rfl)
    exact Or.inl (hpid ▸ hfound)
  | unnamed pid hreap hpid hstate =>
    exact Or.inr (Or.inl ((reapStep_cleared hstep i).mpr (Or.inl ⟨pid, hreap⟩)))
  | undefined hreap hpid hstate => exact Or.inr (Or.inr hstate)
  | same hreap hpid hstate =>
    rw [hpid, hstate]
    refine (h.listing i hi).imp_right (Or.imp_left fun hcleared => ?_)
    rw [reapStep_cleared hstep]
    -- `clearjob` goes on to the state, which this statement does not clear
    cases hold : s.reap with
    | clearJid j =>
      rw [hold] at hcleared
      rw [Option.some.inj hcleared]
      exact Or.inr rfl
    | clearState j =>
      rw [hold] at hcleared
      exact absurd (hold.trans (congrArg Reap.clearState (Option.some.inj hcleared))) (hreap 0).2.2
    | _ => simp [hold, Reap.cleared] at hcleared

lemma Legible.step {e : Event} (h : Legible s) (hstep : step s e = some t) : Legible t := by
  have hkept := h.kept.step hstep
  have haside : ∀ {u : Shell}, Kept u → u.table = s.table →
      (∀ i, u.main.listing = some i → s.main.listing = some i) →
      (∀ i, s.reap.cleared = some i → u.reap.cleared = some i) →
      (∀ i, u.reap.found = some i → s.reap.found = some i) → Legible u := by
    intro u hu htable hmain hcleared hfound
    exact h.aside hu (fun _ => by rw [htable]) (fun _ => by rw [htable]) hmain hcleared hfound
  have hsame : ∀ {u : Shell}, Kept u → u.table = s.table → u.main = s.main → u.reap = s.reap →
      Legible u := by
    intro u hu htable hmain hreap
    refine haside hu htable ?_ ?_ ?_
    · exact fun i hi => hmain ▸ hi
    · exact fun i hi => hreap ▸ hi
    · exact fun i hi => hreap ▸ hi
  cases moved_of_step hstep with
  | main hstack hmain => exact h.main hkept hstack hmain
  | reap rest hrest hreap => exact h.reap hkept hreap
  | forward k rest hrest hforward =>
    obtain ⟨f, stack, exited, rfl⟩ := forwardStep_eq hforward
    exact hsame hkept rfl rfl rfl
  | command c m exited hstack hmain hm =>
    refine haside hkept rfl (fun i hi => ?_) (fun _ hi => hi) (fun _ hi => hi)
    rcases hm with rfl | rfl | ⟨fg, target, rfl⟩ | ⟨l, rfl⟩ <;> simp [Main.listing] at hi
  | fork l pid hstack hmain hpid hnew =>
    exact haside hkept rfl (by simp [Main.listing]) (fun _ hi => hi) (fun _ hi => hi)
  | forkFails l hstack hmain => exact hsame hkept rfl rfl rfl
  | chld hsig hmasked =>
    have hidle := h.kept.disciplined.active.mpr hsig
    exact haside hkept rfl (fun _ hi => hi) (by simp [hidle, Reap.cleared]) (by simp [Reap.found])
  | key k hsig => exact hsame hkept rfl rfl rfl
  | stopped c rest hrest hreap hc =>
    exact haside hkept rfl (fun _ hi => hi) (by simp [hreap, Reap.cleared]) (by simp [Reap.found])
  | ended c rest hrest hreap hc =>
    exact haside hkept rfl (fun _ hi => hi) (by simp [hreap, Reap.cleared]) (by simp [Reap.found])
  | drained rest hrest hreap =>
    exact haside hkept rfl (fun _ hi => hi) (by simp [hreap, Reap.cleared]) (by simp [Reap.found])
  | child c c' e strays hc hnext => exact hsame hkept rfl rfl rfl
  | leave pid strays => exact hsame hkept rfl rfl rfl

lemma legible_start : Legible start :=
  ⟨kept_start, by simp [start, Main.listing], by simp [start, Reap.found]⟩

/-- About to look at the state, with no handler running, `listjobs` goes on to an internal error
exactly if the handler has removed the job. -/
lemma listError_iff (hstated : Stated s) (hlegible : Legible s) (hexited : s.exited = false)
    (hstack : s.stack = []) {i : Fin maxJobs} (hmain : s.main = Main.listState i) :
    ∃ u, step s Event.main = some u ∧ (u.main = Main.listError i ↔ (s.table.jobs i).pid = 0) := by
  have hidle := hlegible.kept.disciplined.idle hstack
  have hundef : (s.table.jobs i).state = JobState.undef ↔ (s.table.jobs i).pid = 0 := by
    constructor
    · intro hundef
      by_contra hpid
      obtain ⟨l, pid, heq⟩ := hstated.stated i hpid hundef
      simp [hmain] at heq
    · intro hpid
      have hlisting := hlegible.listing i (by rw [hmain]; rfl)
      simpa [hpid, hidle, Reap.cleared] using hlisting
  have hstep : step s Event.main = some { s with main :=
      if (s.table.jobs i).state = JobState.undef then Main.listError i else Main.listCmdline i } := by
    simp [step, mainStep, hexited, hstack, hmain]
  refine ⟨_, hstep, ?_⟩
  rw [← hundef]
  by_cases h : (s.table.jobs i).state = JobState.undef <;> simp [h]

/-- Whatever happened before, `jobs` prints one line for each unreaped child that is in the table,
with the state of its job, if no handler interrupts it. An internal error in an interrupted list is
for a job that has been removed since `listjobs` saw its process ID. -/
theorem listjobs_of_reaches (h : Reaches step anyEvent start s) (hexited : s.exited = false)
    (hstack : s.stack = []) :
    (s.main = Main.prompt → ∃ (n : ℕ) (is : List (Fin maxJobs)),
      run printStep (s, "") (Event.command Command.jobs :: List.replicate n Event.main) =
          some (s, String.join (is.map fun i => (s.table.jobs i).shown)) ∧
        (∀ i ∈ is, (s.table.jobs i).state ≠ JobState.undef) ∧
        (is.map fun i => (s.table.jobs i).pid).Perm
          ((s.children.filter Child.added).map Child.pid)) ∧
    ∀ i, s.main = Main.listState i →
      ∃ u, step s Event.main = some u ∧ (u.main = Main.listError i ↔ (s.table.jobs i).pid = 0) := by
  have hstated := h.invariant Stated stated_start (fun _ _ _ hi _ hstep => hi.step hstep)
  have hlegible := h.invariant Legible legible_start (fun _ _ _ hi _ hstep => hi.step hstep)
  refine ⟨fun hmain => ?_, fun i hmain => listError_iff hstated hlegible hexited hstack hmain⟩
  have hstates : ∀ i ∈ listed s.table, (s.table.jobs i).state ≠ JobState.undef := by
    intro i hi hundef
    obtain ⟨l, pid, heq⟩ := hstated.stated i (by simpa [listed] using hi) hundef
    simp [hmain] at heq
  have hlines : listjobs s.table =
      String.join ((listed s.table).map fun i => (s.table.jobs i).shown) := by
    rw [listjobs]
    congr 1
    apply List.map_congr_left
    intro i hi
    simp [Job.line, Job.shown, hstates i hi]
  obtain ⟨n, hn⟩ := listjobs_run hexited hstack ""
  refine ⟨n, listed s.table, ?_, hstates, listed_perm hstated.kept hmain hstack⟩
  have hjobs : printStep (s, "") (Event.command Command.jobs) =
      some ({ s with main := Main.listTest 0 }, "") := by
    simp [printStep, recordStep, step, command, hexited, hstack, hmain]
  have hsame : { s with main := Main.prompt } = s := by rw [← hmain]
  rw [run, hjobs, Option.bind_some, hn, hsame, hlines, String.empty_append]

/-- Two jobs, one of which has stopped. -/
def oneStopped : List Event :=
  launches 2 ++ [Event.child 102 ChildEvent.stop, Event.deliver Signal.chld, Event.report 102,
    Event.handler, Event.handler, Event.drained]

/-- The first job ends while its line is being printed. -/
def removedMeanwhile : List Event :=
  oneStopped ++ [Event.command Command.jobs, Event.main, Event.child 101 ChildEvent.exit, Event.main,
    Event.deliver Signal.chld, Event.report 101] ++ List.replicate 6 Event.handler ++ [Event.drained]

theorem listjobs_oneStopped : (∃ s, run step start oneStopped = some s ∧
    ∃ (n : ℕ) (is : List (Fin maxJobs)),
      run printStep (s, "") (Event.command Command.jobs :: List.replicate n Event.main) =
          some (s, String.join (is.map fun i => (s.table.jobs i).shown)) ∧
        (∀ i ∈ is, (s.table.jobs i).state ≠ JobState.undef) ∧
        (is.map fun i => (s.table.jobs i).pid).Perm
          ((s.children.filter Child.added).map Child.pid)) ∧
    ∃ s, run step start removedMeanwhile = some s ∧ (s.table.jobs 0).pid = 0 ∧
      ∃ u, step s Event.main = some u ∧ (u.main = Main.listError 0 ↔ (s.table.jobs 0).pid = 0) := by
  constructor
  · have hrun : ∃ s, run step start oneStopped = some s ∧ s.main = Main.prompt ∧ s.stack = [] ∧
        s.exited = false := by
      have hsome : ((run step start oneStopped).any (fun s =>
          s.main = Main.prompt ∧ s.stack = [] ∧ s.exited = false)) = true := by
        decide
      simpa [Option.any_eq_true] using hsome
    obtain ⟨s, hs, hmain, hstack, hexited⟩ := hrun
    have hreach := reaches_of_run (fun _ _ _ => trivial) hs
    exact ⟨s, hs, (listjobs_of_reaches hreach hexited hstack).1 hmain⟩
  · have hrun : ∃ s, run step start removedMeanwhile = some s ∧ s.main = Main.listState 0 ∧
        s.stack = [] ∧ s.exited = false ∧ (s.table.jobs 0).pid = 0 := by
      have hsome : ((run step start removedMeanwhile).any (fun s => s.main = Main.listState 0 ∧
          s.stack = [] ∧ s.exited = false ∧ (s.table.jobs 0).pid = 0)) = true := by
        decide
      simpa [Option.any_eq_true] using hsome
    obtain ⟨s, hs, hmain, hstack, hexited, hpid⟩ := hrun
    have hreach := reaches_of_run (fun _ _ _ => trivial) hs
    exact ⟨s, hs, hpid, (listjobs_of_reaches hreach hexited hstack).2 0 hmain⟩

example : ((run printStep (start, "") (removedMeanwhile ++ List.replicate 22 Event.main)).map
    Prod.snd) = some ("[1] (101) listjobs: Internal error: job[0].state=0 " ++
      "[2] (102) Stopped sleep 9 &") := by
  decide

end SystemsLabs.Tsh
