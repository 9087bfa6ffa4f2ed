import SystemsLabs.Tsh.JobTable

/-!
# The foreground job

The shell waits for the job in state `FG`. The assignment of `do_bgfg` goes through a pointer that
it found before, so it can fall on a slot that the handler has cleared in the meantime.
-/

namespace SystemsLabs.Tsh
open Library

/-- The main program will wait for the job in slot `i` if it is in state `FG`. -/
def Main.owns (m : Main) (jobs : Fin maxJobs → Job) (i : Fin maxJobs) : Prop :=
  match m with
  | Main.addJid l _ j => l.background = false ∧ i = j
  | Main.addWrap l _ j => l.background = false ∧ i = j
  | Main.addCmdline l _ j => l.background = false ∧ i = j
  | Main.unblock l pid => l.background = false ∧ 0 < pid ∧ (jobs i).pid = pid
  | Main.waitSearch pid k => 0 < pid ∧ (jobs i).pid = pid ∧ k ≤ i
  | Main.waiting j => i = j
  | _ => False

/-- The slot that `do_bgfg` found still has the process ID it read, or none. -/
def Main.aims (m : Main) (jobs : Fin maxJobs → Job) : Prop :=
  match m with
  | Main.sendCont _ i pid => (jobs i).pid = pid ∨ (jobs i).pid = 0
  | Main.setState _ i pid => (jobs i).pid = pid ∨ (jobs i).pid = 0
  | _ => True

/-- The slot that `clearjob` has begun to clear. -/
def Reap.cleared : Reap → Option (Fin maxJobs)
  | Reap.clearJid i => some i
  | Reap.clearState i => some i
  | _ => none

/-- The slot that the handler is about to mark as stopped. -/
def Reap.found : Reap → Option (Fin maxJobs)
  | Reap.setStopped i => some i
  | _ => none

/-- The main program owns the job in state `FG`, and every used slot has a process ID, apart from a
slot that `clearjob` clears. -/
structure Tended (m : Main) (jobs : Fin maxJobs → Job) (cleared : Option (Fin maxJobs)) : Prop where
  owned : ∀ i, (jobs i).state = JobState.fg → cleared = some i ∨ m.owns jobs i
  named : ∀ i, (jobs i).state ≠ JobState.undef → cleared = some i ∨ (jobs i).pid ≠ 0
  aimed : m.aims jobs

variable {m m' : Main} {jobs jobs' : Fin maxJobs → Job} {cleared cleared' : Option (Fin maxJobs)}
  {s t : Shell}

lemma Tended.move (h : Tended m jobs cleared) (hpid : ∀ i, (jobs' i).pid = (jobs i).pid)
    (hstate : ∀ i, (jobs' i).state = (jobs i).state)
    (howns : ∀ i, (jobs i).state = JobState.fg → m.owns jobs i → m'.owns jobs' i)
    (haims : m'.aims jobs') : Tended m' jobs' cleared where
  owned := by
    intro i hi
    rw [hstate] at hi
    exact (h.owned i hi).imp_right (howns i hi)
  named := by
    intro i hi
    rw [hstate] at hi
    rw [hpid]
    exact h.named i hi
  aimed := haims

lemma Main.owns_congr {i : Fin maxJobs} (hpid : (jobs' i).pid = (jobs i).pid) :
    m.owns jobs' i ↔ m.owns jobs i := by
  cases m <;> simp only [Main.owns, hpid]

lemma Main.aims_congr (hpid : ∀ i, (jobs' i).pid = (jobs i).pid) :
    m.aims jobs' ↔ m.aims jobs := by
  cases m <;> simp only [Main.aims, hpid]

/-- The main program stands still and nothing changes for the process IDs and the states. -/
lemma Tended.stay (h : Tended m jobs cleared) (hpid : ∀ i, (jobs' i).pid = (jobs i).pid)
    (hstate : ∀ i, (jobs' i).state = (jobs i).state) : Tended m jobs' cleared :=
  h.move hpid hstate (fun i _ => (Main.owns_congr (hpid i)).mpr)
    ((Main.aims_congr hpid).mpr h.aimed)

lemma Tended.assign {table : Table} {state : JobState} {i : Fin maxJobs}
    (h : Tended m table.jobs cleared) (hi : (table.jobs i).pid ≠ 0)
    (hfg : state = JobState.fg →
      m'.owns (table.modify i (fun job => { job with state := state })).jobs i)
    (howns : ∀ j, j ≠ i → (table.jobs j).state = JobState.fg → m.owns table.jobs j →
      m'.owns (table.modify i (fun job => { job with state := state })).jobs j)
    (haims : m'.aims (table.modify i (fun job => { job with state := state })).jobs) :
    Tended m' (table.modify i (fun job => { job with state := state })).jobs cleared where
  owned := by
    intro j hj
    by_cases hji : j = i
    · subst hji
      rw [Table.modify_self] at hj
      exact Or.inr (hfg hj)
    · rw [Table.modify_of_ne hji] at hj
      exact (h.owned j hj).imp_right (howns j hji hj)
  named := by
    intro j hj
    by_cases hji : j = i
    · subst hji
      rw [Table.modify_self]
      exact Or.inr hi
    · rw [Table.modify_of_ne hji] at hj ⊢
      exact h.named j hj
  aimed := haims

/-- No job is in state `FG` while the main program waits for none. -/
lemma Tended.no_fg (h : Tended m jobs none) (hm : ∀ i, ¬m.owns jobs i) (i : Fin maxJobs) :
    (jobs i).state ≠ JobState.fg := by
  intro hi
  rcases h.owned i hi with hnone | howns
  · simp at hnone
  · exact hm i howns

/-- `do_bgfg` assigns to a slot only while the job is in it. -/
def Guarded (s : Shell) (e : Event) : Prop :=
  ∀ fg i pid, e = Event.main → s.main = Main.setState fg i pid → (s.table.jobs i).pid ≠ 0

lemma Table.modify_agree (table : Table) (i : Fin maxJobs) (f : Job → Job)
    (hpid : ∀ job, (f job).pid = job.pid) (hstate : ∀ job, (f job).state = job.state) :
    (∀ j, ((table.modify i f).jobs j).pid = (table.jobs j).pid) ∧
      ∀ j, ((table.modify i f).jobs j).state = (table.jobs j).state :=
  ⟨fun _ => Table.modify_field Job.pid (hpid _), fun _ => Table.modify_field Job.state (hstate _)⟩

/-- A statement of the main program keeps the foreground job if it assigns to a used slot. -/
lemma Tended.main (h : Tended s.main s.table.jobs none) (hsound : s.roster.Sound)
    (hguard : Guarded s Event.main) (hstep : mainStep s = some t) :
    Tended t.main t.table.jobs none := by
  have hsame : (∀ i, (s.table.jobs i).pid = (s.table.jobs i).pid) ∧
      ∀ i, (s.table.jobs i).state = (s.table.jobs i).state := ⟨fun _ => rfl, fun _ => rfl⟩
  cases hmain : s.main with
  | prompt => simp [mainStep, hmain] at hstep
  | fork l => simp [mainStep, hmain] at hstep
  | block l =>
    rw [hmain] at h
    simp only [mainStep, hmain, Option.some.injEq] at hstep
    subst hstep
    exact h.move hsame.1 hsame.2 (fun _ _ howns => howns.elim) trivial
  | addCheck l pid =>
    rw [hmain] at h
    simp only [mainStep, hmain, Option.some.injEq] at hstep
    subst hstep
    refine h.move hsame.1 hsame.2 (fun _ _ howns => howns.elim) ?_
    dsimp only
    split <;> trivial
  | addSearch l pid i =>
    rw [hmain] at h
    simp only [mainStep, hmain, Option.some.injEq] at hstep
    subst hstep
    refine h.move hsame.1 hsame.2 (fun _ _ howns => howns.elim) ?_
    dsimp only
    split
    · split <;> trivial
    · trivial
  | addPid l pid i =>
    rw [hmain] at h
    simp only [mainStep, hmain, Option.some.injEq] at hstep
    subst hstep
    have hfree : (s.table.jobs i).pid = 0 := hsound.storing pid i (by
      simp [Shell.roster, hmain, Main.stage])
    have hpos : 0 < pid := hsound.child_pos (by simp [Shell.roster, hmain, Main.stage, Stage.child])
    have hnone := h.no_fg (fun _ howns => howns)
    constructor
    case owned =>
      intro j hj
      rw [Table.modify_field Job.state rfl] at hj
      exact absurd hj (hnone j)
    case named =>
      intro j hj
      by_cases hji : j = i
      · subst hji
        rw [Table.modify_self]
        exact Or.inr (by dsimp only; omega)
      · rw [Table.modify_of_ne hji] at hj ⊢
        exact h.named j hj
    case aimed => trivial
  | addState l pid i =>
    rw [hmain] at h
    simp only [mainStep, hmain, Option.some.injEq] at hstep
    subst hstep
    have hstored : (s.table.jobs i).pid = pid := hsound.stored pid i (by
      simp [Shell.roster, hmain, Main.stage])
    have hpos : 0 < pid := hsound.child_pos (by simp [Shell.roster, hmain, Main.stage, Stage.child])
    refine h.assign (by omega) ?_ (fun _ _ _ howns => howns.elim) trivial
    intro hfg
    refine ⟨?_, rfl⟩
    by_contra hbg
    rw [if_pos (by simpa using hbg)] at hfg
    simp at hfg
  | addJid l pid i =>
    rw [hmain] at h
    simp only [mainStep, hmain, Option.some.injEq] at hstep
    subst hstep
    have hagree := Table.modify_agree s.table i (fun job => { job with jid := s.table.nextjid })
      (fun _ => rfl) (fun _ => rfl)
    exact h.move hagree.1 hagree.2 (fun _ _ howns => howns) trivial
  | addWrap l pid i =>
    rw [hmain] at h
    simp only [mainStep, hmain, Option.some.injEq] at hstep
    subst hstep
    exact h.move hsame.1 hsame.2 (fun _ _ howns => howns) trivial
  | addCmdline l pid i =>
    rw [hmain] at h
    simp only [mainStep, hmain, Option.some.injEq] at hstep
    subst hstep
    have hagree := Table.modify_agree s.table i (fun job => { job with cmdline := l.cmdline })
      (fun _ => rfl) (fun _ => rfl)
    have hstored : (s.table.jobs i).pid = pid := hsound.stored pid i (by
      simp [Shell.roster, hmain, Main.stage])
    have hpos : 0 < pid := hsound.child_pos (by simp [Shell.roster, hmain, Main.stage, Stage.child])
    refine h.move hagree.1 hagree.2 ?_ trivial
    rintro j - ⟨hbg, rfl⟩
    exact ⟨hbg, hpos, (hagree.1 j).trans hstored⟩
  | unblock l pid =>
    rw [hmain] at h
    simp only [mainStep, hmain, Option.some.injEq] at hstep
    subst hstep
    refine h.move hsame.1 hsame.2 ?_ ?_
    · rintro j - ⟨hbg, hpos, hpid⟩
      simp only [hbg]
      exact ⟨hpos, hpid, Nat.zero_le _⟩
    · dsimp only
      split <;> trivial
  | waitSearch pid k =>
    rw [hmain] at h
    simp only [mainStep, hmain, Option.some.injEq] at hstep
    subst hstep
    refine h.move hsame.1 hsame.2 ?_ ?_
    · rintro j hj ⟨hpos, hpid, hk⟩
      have hk' : k < maxJobs := by omega
      rw [if_neg (by omega), dif_pos hk']
      by_cases hfound : (s.table.jobs ⟨k, hk'⟩).pid = pid
      · rw [if_pos hfound]
        refine hsound.unique j ⟨k, hk'⟩ ?_ (hpid.trans hfound.symm)
        show (s.table.jobs j).pid ≠ 0
        omega
      · rw [if_neg hfound]
        refine ⟨hpos, hpid, ?_⟩
        have hne : (j : ℕ) ≠ k := by
          rintro rfl
          exact hfound hpid
        omega
    · dsimp only
      split
      · trivial
      · split
        · split <;> trivial
        · trivial
  | waiting i =>
    rw [hmain] at h
    simp only [mainStep, hmain, Option.some.injEq] at hstep
    subst hstep
    refine h.move hsame.1 hsame.2 ?_ ?_
    · rintro j hj rfl
      rw [if_pos hj]
      rfl
    · dsimp only
      split <;> trivial
  | find fg target i =>
    rw [hmain] at h
    simp only [mainStep, hmain, Option.some.injEq] at hstep
    subst hstep
    refine h.move hsame.1 hsame.2 (fun _ _ howns => howns.elim) ?_
    dsimp only
    split
    · trivial
    · split
      · split <;> trivial
      · trivial
  | readPid fg i =>
    rw [hmain] at h
    simp only [mainStep, hmain, Option.some.injEq] at hstep
    subst hstep
    exact h.move hsame.1 hsame.2 (fun _ _ howns => howns.elim) (Or.inl rfl)
  | sendCont fg i pid =>
    rw [hmain] at h
    simp only [mainStep, hmain] at hstep
    by_cases hkill : s.canKill pid
    · rw [if_pos hkill] at hstep
      obtain rfl := Option.some.inj hstep
      exact h.move hsame.1 hsame.2 (fun _ _ howns => howns.elim) h.aimed
    · rw [if_neg hkill] at hstep
      obtain rfl := Option.some.inj hstep
      exact h.move hsame.1 hsame.2 (fun _ _ howns => howns.elim) h.aimed
  | setState fg i pid =>
    have hi := hguard fg i pid rfl hmain
    rw [hmain] at h
    simp only [mainStep, hmain, Option.some.injEq] at hstep
    subst hstep
    have hpid : (s.table.jobs i).pid = pid := h.aimed.resolve_right hi
    have hpos : 0 < (s.table.jobs i).pid := hsound.pid_pos hi
    refine h.assign hi ?_ (fun _ _ _ howns => howns.elim) ?_
    · intro hfg
      have hfg' : fg = true := by
        by_contra hbg
        rw [if_neg hbg] at hfg
        simp at hfg
      subst hfg'
      refine ⟨by omega, ?_, Nat.zero_le _⟩
      rw [Table.modify_self]
      exact hpid
    · dsimp only
      split <;> trivial
  | listTest i =>
    rw [hmain] at h
    simp only [mainStep, hmain, Option.some.injEq] at hstep
    subst hstep
    refine h.move hsame.1 hsame.2 (fun _ _ howns => howns.elim) ?_
    dsimp only
    split
    · split <;> trivial
    · trivial
  | listState i =>
    rw [hmain] at h
    simp only [mainStep, hmain, Option.some.injEq] at hstep
    subst hstep
    refine h.move hsame.1 hsame.2 (fun _ _ howns => howns.elim) ?_
    dsimp only
    split <;> trivial
  | listIds i | listError i | listCmdline i =>
    rw [hmain] at h
    simp only [mainStep, hmain, Option.some.injEq] at hstep
    subst hstep
    exact h.move hsame.1 hsame.2 (fun _ _ howns => howns.elim) trivial

/-- `clearjob` clears the process ID first. -/
lemma Tended.unname {table : Table} {i : Fin maxJobs} (h : Tended m table.jobs none) :
    Tended m (table.modify i (fun job => { job with pid := 0 })).jobs (some i) where
  owned := by
    intro j hj
    by_cases hji : j = i
    · exact Or.inl (by rw [hji])
    · rw [Table.modify_of_ne hji] at hj
      right
      rw [Main.owns_congr (by rw [Table.modify_of_ne hji])]
      exact (h.owned j hj).resolve_left (by simp)
  named := by
    intro j hj
    by_cases hji : j = i
    · exact Or.inl (by rw [hji])
    · rw [Table.modify_of_ne hji] at hj ⊢
      exact Or.inr ((h.named j hj).resolve_left (by simp))
  aimed := by
    have haims : ∀ j pid, (table.jobs j).pid = pid ∨ (table.jobs j).pid = 0 →
        ((table.modify i (fun job => { job with pid := 0 })).jobs j).pid = pid ∨
          ((table.modify i (fun job => { job with pid := 0 })).jobs j).pid = 0 := by
      intro j pid hj
      by_cases hji : j = i
      · subst hji
        simp
      · rwa [Table.modify_of_ne hji]
    have := h.aimed
    cases m <;> first | trivial | exact haims _ _ this

lemma Tended.undefine {table : Table} {i : Fin maxJobs} (h : Tended m table.jobs (some i)) :
    Tended m (table.modify i (fun job => { job with state := JobState.undef })).jobs none := by
  have hpid : ∀ j, ((table.modify i (fun job => { job with state := JobState.undef })).jobs j).pid =
      (table.jobs j).pid := fun _ => Table.modify_field Job.pid rfl
  constructor
  case owned =>
    intro j hj
    by_cases hji : j = i
    · subst hji
      simp at hj
    · rw [Table.modify_of_ne hji] at hj
      right
      rw [Main.owns_congr (hpid j)]
      exact (h.owned j hj).resolve_left (by simpa using Ne.symm hji)
  case named =>
    intro j hj
    by_cases hji : j = i
    · subst hji
      simp at hj
    · rw [Table.modify_of_ne hji] at hj ⊢
      exact Or.inr ((h.named j hj).resolve_left (by simpa using Ne.symm hji))
  case aimed => exact (Main.aims_congr hpid).mpr h.aimed

/-- `clearjob` has cleared the process ID of a slot and not its state. -/
lemma reapStep_cleared {rest : List Signal} (hstep : reapStep s rest = some t) (j : Fin maxJobs) :
    t.reap.cleared = some j ↔ (∃ pid, s.reap = Reap.clearPid pid j) ∨ s.reap = Reap.clearJid j := by
  cases hreap : s.reap with
  | idle | wait => simp [reapStep, hreap] at hstep
  | stopped pid | delete pid =>
    simp only [reapStep, hreap] at hstep
    split at hstep <;> (obtain rfl := Option.some.inj hstep; simp [Reap.cleared])
  | _ =>
    simp only [reapStep, hreap, Option.some.injEq] at hstep
    subst hstep
    simp [Reap.cleared]

/-- A slot that is to be marked as stopped has a process ID. -/
lemma reapStep_found {rest : List Signal} (hstep : reapStep s rest = some t) {j : Fin maxJobs}
    (hj : t.reap.found = some j) : (t.table.jobs j).pid ≠ 0 := by
  cases hreap : s.reap with
  | idle | wait => simp [reapStep, hreap] at hstep
  | stopped pid =>
    simp only [reapStep, hreap] at hstep
    cases hget : getjobpid s.table pid with
    | none =>
      simp only [hget, Option.some.injEq] at hstep
      subst hstep
      simp [Reap.found] at hj
    | some i =>
      simp only [hget, Option.some.injEq] at hstep
      subst hstep
      obtain rfl := Option.some.inj hj
      have := getjobpid_eq_some hget
      dsimp only
      omega
  | delete pid =>
    simp only [reapStep, hreap] at hstep
    split at hstep <;> (obtain rfl := Option.some.inj hstep; simp [Reap.found] at hj)
  | _ =>
    simp only [reapStep, hreap, Option.some.injEq] at hstep
    subst hstep
    simp [Reap.found] at hj

/-- What the shell keeps about its foreground job. -/
structure Attended (s : Shell) : Prop where
  kept : Kept s
  tended : Tended s.main s.table.jobs s.reap.cleared
  found : ∀ i, s.reap.found = some i → (s.table.jobs i).pid ≠ 0

lemma Attended.reap {rest : List Signal} (h : Attended s) (hkept : Kept t)
    (hstep : reapStep s rest = some t) : Attended t := by
  refine ⟨hkept, ?_, fun _ hj => reapStep_found hstep hj⟩
  have htended := h.tended
  cases hreap : s.reap with
  | idle | wait => simp [reapStep, hreap] at hstep
  | stopped pid | delete pid =>
    rw [hreap] at htended
    simp only [reapStep, hreap] at hstep
    split at hstep <;>
    · obtain rfl := Option.some.inj hstep
      exact htended
  | setStopped i =>
    rw [hreap] at htended
    simp only [reapStep, hreap, Option.some.injEq] at hstep
    subst hstep
    have hpid : ∀ j, ((s.table.modify i (fun job => { job with state := JobState.st })).jobs j).pid =
        (s.table.jobs j).pid := fun _ => Table.modify_field Job.pid rfl
    refine htended.assign (h.found i (by simp [hreap, Reap.found])) (by simp) ?_ ?_
    · intro j _ _
      exact (Main.owns_congr (hpid j)).mpr
    · exact (Main.aims_congr hpid).mpr htended.aimed
  | clearPid pid i =>
    rw [hreap] at htended
    simp only [reapStep, hreap, Option.some.injEq] at hstep
    subst hstep
    exact htended.unname
  | clearJid i =>
    rw [hreap] at htended
    simp only [reapStep, hreap, Option.some.injEq] at hstep
    subst hstep
    have hagree := Table.modify_agree s.table i (fun job => { job with jid := 0 })
      (fun _ => rfl) (fun _ => rfl)
    exact htended.stay hagree.1 hagree.2
  | clearState i =>
    rw [hreap] at htended
    simp only [reapStep, hreap, Option.some.injEq] at hstep
    subst hstep
    exact htended.undefine
  | clearCmdline i =>
    rw [hreap] at htended
    simp only [reapStep, hreap, Option.some.injEq] at hstep
    subst hstep
    have hagree := Table.modify_agree s.table i (fun job => { job with cmdline := "" })
      (fun _ => rfl) (fun _ => rfl)
    exact htended.stay hagree.1 hagree.2
  | renumber =>
    rw [hreap] at htended
    simp only [reapStep, hreap, Option.some.injEq] at hstep
    subst hstep
    exact htended.stay (fun _ => rfl) (fun _ => rfl)

lemma Attended.event (h : Attended s) (hkept : Kept t) (htable : t.table = s.table)
    (howns : ∀ i, s.main.owns s.table.jobs i → t.main.owns s.table.jobs i)
    (haims : t.main.aims s.table.jobs) (hcleared : t.reap.cleared = s.reap.cleared)
    (hfound : ∀ i, t.reap.found = some i → s.reap.found = some i) : Attended t where
  kept := hkept
  tended := by
    rw [htable, hcleared]
    exact h.tended.move (fun _ => rfl) (fun _ => rfl) (fun i _ => howns i) haims
  found := by
    rw [htable]
    exact fun i hi => h.found i (hfound i hi)

lemma Attended.aside (h : Attended s) (hkept : Kept t) (htable : t.table = s.table)
    (hmain : t.main = s.main) (hcleared : t.reap.cleared = s.reap.cleared)
    (hfound : ∀ i, t.reap.found = some i → s.reap.found = some i) : Attended t :=
  h.event hkept htable (by rw [hmain]; exact fun _ howns => howns) (by rw [hmain]; exact h.tended.aimed)
    hcleared hfound

lemma Attended.step {e : Event} (h : Attended s) (hguard : Guarded s e) (hstep : step s e = some t) :
    Attended t := by
  have hkept := h.kept.step hstep
  cases moved_of_step hstep with
  | main hstack hmain =>
    have hidle := h.kept.disciplined.idle hstack
    have htended := h.tended
    rw [hidle] at htended
    have hnext := htended.main h.kept.sound hguard hmain
    have hreap := (mainStep_handlers hmain).1
    rw [hidle] at hreap
    refine ⟨hkept, ?_, ?_⟩
    · rw [hreap]
      exact hnext
    · simp [hreap, Reap.found]
  | reap rest hrest hreap => exact h.reap hkept hreap
  | forward k rest hrest hforward =>
    obtain ⟨f, stack, exited, rfl⟩ := forwardStep_eq hforward
    exact h.aside hkept rfl rfl rfl (fun _ hi => hi)
  | command c m exited hstack hmain hm =>
    refine h.event hkept rfl ?_ ?_ rfl (fun _ hi => hi)
    · rw [hmain]
      exact fun _ howns => howns.elim
    · rcases hm with rfl | rfl | ⟨fg, target, rfl⟩ | ⟨l, rfl⟩ <;> trivial
  | fork l pid hstack hmain hpid hnew =>
    refine h.event hkept rfl ?_ trivial rfl (fun _ hi => hi)
    rw [hmain]
    exact fun _ howns => howns.elim
  | forkFails l hstack hmain => exact h.aside hkept rfl rfl rfl (fun _ hi => hi)
  | chld hsig hmasked =>
    have hidle := h.kept.disciplined.active.mpr hsig
    exact h.aside hkept rfl rfl (by rw [hidle]; rfl) (by simp [Reap.found])
  | key k hsig => exact h.aside hkept rfl rfl rfl (fun _ hi => hi)
  | stopped c rest hrest hreap hc =>
    exact h.aside hkept rfl rfl (by rw [hreap]; rfl) (by simp [Reap.found])
  | ended c rest hrest hreap hc =>
    exact h.aside hkept rfl rfl (by rw [hreap]; rfl) (by simp [Reap.found])
  | drained rest hrest hreap =>
    exact h.aside hkept rfl rfl (by rw [hreap]; rfl) (by simp [Reap.found])
  | child c c' e strays hc hnext => exact h.aside hkept rfl rfl rfl (fun _ hi => hi)
  | leave pid strays => exact h.aside hkept rfl rfl rfl (fun _ hi => hi)

lemma attended_start : Attended start where
  kept := kept_start
  tended := ⟨by simp [start, initjobs, clearjob], by simp [start, initjobs, clearjob], trivial⟩
  found := by simp [start, Reap.found]

lemma Main.owns_unique (hsound : s.roster.Sound) {i j : Fin maxJobs}
    (hi : s.main.owns s.table.jobs i) (hj : s.main.owns s.table.jobs j) : i = j := by
  have hsame : ∀ {pid : ℤ}, 0 < pid → (s.table.jobs i).pid = pid → (s.table.jobs j).pid = pid →
      i = j := by
    intro pid hpos hi hj
    refine hsound.unique i j ?_ (hi.trans hj.symm)
    show (s.table.jobs i).pid ≠ 0
    omega
  cases hmain : s.main with
  | addJid l pid k | addWrap l pid k | addCmdline l pid k =>
    rw [hmain] at hi hj
    exact hi.2.trans hj.2.symm
  | unblock l pid =>
    rw [hmain] at hi hj
    exact hsame hi.2.1 hi.2.2 hj.2.2
  | waitSearch pid k =>
    rw [hmain] at hi hj
    exact hsame hi.1 hi.2.1 hj.2.1
  | waiting k =>
    rw [hmain] at hi hj
    exact Eq.trans hi (Eq.symm hj)
  | _ =>
    rw [hmain] at hi
    exact hi.elim

/-- At most one slot is in state `FG`, every used slot has a process ID, and `fgpid` returns that of
the foreground job. -/
structure OneForeground (table : Table) : Prop where
  one : ∀ i j, (table.jobs i).state = JobState.fg → (table.jobs j).state = JobState.fg → i = j
  named : ∀ i, (table.jobs i).state ≠ JobState.undef → (table.jobs i).pid ≠ 0
  forwarded : ∀ i, (table.jobs i).state = JobState.fg →
    fgpid table = (table.jobs i).pid ∧ fgpid table ≠ 0

lemma Attended.oneForeground (h : Attended s) (hcleared : s.reap.cleared = none) :
    OneForeground s.table := by
  have htended := h.tended
  rw [hcleared] at htended
  have hone : ∀ i j, (s.table.jobs i).state = JobState.fg →
      (s.table.jobs j).state = JobState.fg → i = j := by
    intro i j hi hj
    have howni := (htended.owned i hi).resolve_left (by simp)
    have hownj := (htended.owned j hj).resolve_left (by simp)
    exact Main.owns_unique h.kept.sound howni hownj
  have hnamed : ∀ i, (s.table.jobs i).state ≠ JobState.undef → (s.table.jobs i).pid ≠ 0 := fun i hi =>
    (htended.named i hi).resolve_left (by simp)
  refine ⟨hone, hnamed, ?_⟩
  intro i hi
  rw [fgpid_eq hi (fun j hj => hone j i hj hi)]
  exact ⟨rfl, hnamed i (by simp [hi])⟩

/-- An assignment of `do_bgfg` to a cleared slot leaves a used slot without a process ID. -/
lemma not_oneForeground {e : Event} (h : Attended s) (hguard : ¬Guarded s e)
    (hstep : step s e = some t) : t.reap.cleared = none ∧ ¬OneForeground t.table := by
  unfold Guarded at hguard
  push Not at hguard
  obtain ⟨fg, i, pid, rfl, hmain, hzero⟩ := hguard
  unfold step at hstep
  split at hstep
  · simp at hstep
  rw [Option.ite_none_right_eq_some] at hstep
  obtain ⟨hstack, hstep⟩ := hstep
  have hidle := h.kept.disciplined.idle hstack
  simp only [mainStep, hmain, Option.some.injEq] at hstep
  subst hstep
  refine ⟨by rw [hidle]; rfl, ?_⟩
  intro hone
  refine hone.named i ?_ ?_
  · rw [Table.modify_self]
    cases fg <;> simp
  · rw [Table.modify_self]
    exact hzero

/-- The foreground job, while `clearjob` clears no slot. -/
def ForegroundHolds (s : Shell) : Prop := s.reap.cleared = none → OneForeground s.table

/-- There is one foreground job with a process ID all along exactly the runs in which `do_bgfg`
never assigns to a slot whose job has been deleted. -/
theorem foregroundHolds_iff (es : List Event) :
    Along step ForegroundHolds start es ↔ Permitted step Guarded start es := by
  apply along_iff_permitted Attended
  · exact fun s h => h.oneForeground
  · exact fun s e t h hguard hstep => h.step hguard hstep
  · intro s e t h hguard hstep hholds
    obtain ⟨hcleared, hnot⟩ := not_oneForeground h hguard hstep
    exact hnot (hholds hcleared)
  · exact attended_start

/-- A job ends and is deleted after `fg` has found it. -/
def lateDelete : List Event :=
  [Event.command (Command.launch ⟨true, "sleep 1 &"⟩), Event.main, Event.fork 7] ++
  List.replicate 8 Event.main ++
  [Event.child 7 ChildEvent.setpgid, Event.command (Command.bgfg true (Target.jid 1)), Event.main,
    Event.main, Event.main, Event.child 7 ChildEvent.exit, Event.deliver Signal.chld,
    Event.report 7] ++
  List.replicate 6 Event.handler ++ [Event.drained, Event.main]

theorem foreground_fails : ¬∀ es, Along step ForegroundHolds start es := by
  intro h
  have hrun : ∃ s, run step start lateDelete = some s ∧ s.reap.cleared = none ∧
      (s.table.jobs 0).state ≠ JobState.undef ∧ (s.table.jobs 0).pid = 0 := by
    have hsome : ((run step start lateDelete).any (fun s => s.reap.cleared = none ∧
        (s.table.jobs 0).state ≠ JobState.undef ∧ (s.table.jobs 0).pid = 0)) = true := by
      decide
    simpa [Option.any_eq_true] using hsome
  obtain ⟨s, hs, hcleared, hstate, hpid⟩ := hrun
  exact ((h lateDelete).last hs hcleared).named 0 hstate hpid

end SystemsLabs.Tsh
