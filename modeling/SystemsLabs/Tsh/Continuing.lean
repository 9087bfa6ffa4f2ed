import SystemsLabs.Tsh.JobTable

/-!
# Reports while a job continues

`do_bgfg` sends `SIGCONT` and assigns the state of the job afterwards. What the handler records in
between is lost, and `fg` waits for a job that has stopped again.
-/

namespace SystemsLabs.Tsh
open Library

/-- The slot that `do_bgfg` has found, and the last state that the handler has recorded in it since
`SIGCONT`, or since the assignment. -/
structure Record where
  slot : Option (Fin maxJobs)
  report : Option JobState

/-- The record after a statement of the handler. A job has ended when its state is cleared. -/
def Record.handled (s : Shell) (r : Record) : Record :=
  match r.slot with
  | none => r
  | some i =>
    if s.stack.head? ≠ some Signal.chld then r
    else if s.reap = Reap.setStopped i then { r with report := some JobState.st }
    else if s.reap = Reap.clearState i then { r with report := some JobState.undef }
    else r

def recorded (s : Shell) (r : Record) (e : Event) : Record :=
  match e with
  | Event.handler => r.handled s
  | Event.main =>
    match s.main with
    | Main.readPid _ i => ⟨some i, none⟩
    | Main.sendCont _ _ _ => { r with report := none }
    | Main.setState _ _ _ => { r with report := none }
    -- `eval` is about to call `waitfg` for its own job
    | Main.unblock _ _ => ⟨none, none⟩
    | _ => r
  | _ => r

def watchStep : Shell × Record → Event → Option (Shell × Record) := recordStep step recorded

def watchStart : Shell × Record := (start, ⟨none, none⟩)

/-- The shell runs as it does without the record. -/
lemma run_watchStep (es : List Event) :
    (run watchStep watchStart es).map Prod.fst = run step start es :=
  run_recordStep watchStart es

def Child.IsStopped (c : Child) : Prop := ∃ reported, c.status = Status.stopped reported

/-- An assignment of `do_bgfg` keeps the state that the handler has recorded since, and `fg` does not
sleep in `waitfg` while its job is stopped. -/
structure ReportKept (w : Shell × Record) (e : Event) (w' : Shell × Record) : Prop where
  kept : e = Event.main → ∀ fg i pid, w.1.main = Main.setState fg i pid →
    ∀ state, w.2.report = some state → (w'.1.table.jobs i).state = state
  awake : e = Event.main → ∀ i j, w.2.slot = some i → w.1.main = Main.waiting j →
    (w.1.table.jobs j).state = JobState.fg →
    ∀ c ∈ w.1.children, c.pid = (w.1.table.jobs j).pid → ¬c.IsStopped

/-- The handler has recorded nothing when `do_bgfg` assigns the state, and if the job is stopped when
`waitfg` looks, the handler has recorded something since. -/
structure InOrder (w : Shell × Record) (e : Event) : Prop where
  unreported : e = Event.main → ∀ fg i pid, w.1.main = Main.setState fg i pid → w.2.report = none
  noticed : e = Event.main → ∀ i j, w.2.slot = some i → w.1.main = Main.waiting j →
    ∀ c ∈ w.1.children, c.pid = (w.1.table.jobs j).pid → c.IsStopped → w.2.report ≠ none

def Main.pointer : Main → Option (Fin maxJobs)
  | Main.sendCont _ i _ => some i
  | Main.setState _ i _ => some i
  | _ => none

/-- `fg` waits for the job in the slot that `do_bgfg` has found. -/
def Main.seeks (m : Main) (jobs : Fin maxJobs → Job) (i : Fin maxJobs) : Prop :=
  match m with
  | Main.sendCont _ _ pid => ∀ j, 0 < pid → (jobs j).pid = pid → j = i
  | Main.setState _ _ pid => ∀ j, 0 < pid → (jobs j).pid = pid → j = i
  | Main.waitSearch pid _ => ∀ j, 0 < pid → (jobs j).pid = pid → j = i
  | Main.waiting j => j = i
  | _ => True

def Main.inWaitfg : Main → Bool
  | Main.waitSearch _ _ => true
  | Main.waiting _ => true
  | _ => false

def Main.afterCont : Main → Bool
  | Main.setState _ _ _ => true
  | m => m.inWaitfg

lemma Main.afterCont_of_inWaitfg {m : Main} (h : m.inWaitfg = true) : m.afterCont = true := by
  cases m <;> first | exact h | rfl

/-- The slot shows the record. -/
structure Shown (w : Shell × Record) : Prop where
  kept : Kept w.1
  pointer : ∀ i, w.1.main.pointer = some i → w.2.slot = some i
  seeks : ∀ i, w.2.slot = some i → w.1.main.seeks w.1.table.jobs i
  reported : w.1.main.afterCont = true → ∀ i state, w.2.slot = some i → w.2.report = some state →
    (w.1.table.jobs i).state = state ∧ (state = JobState.st ∨ state = JobState.undef)
  unreported : w.1.main.inWaitfg = true → ∀ i, w.2.slot = some i → w.2.report = none →
    (w.1.table.jobs i).state = JobState.fg

variable {s t : Shell} {r r' : Record} {i : Fin maxJobs}

lemma Main.seeks_of_pid {m : Main} {jobs jobs' : Fin maxJobs → Job}
    (hpid : ∀ j, (jobs' j).pid = (jobs j).pid ∨ (jobs' j).pid = 0) (h : m.seeks jobs i) :
    m.seeks jobs' i := by
  have hseek : ∀ {pid : ℤ}, (∀ j, 0 < pid → (jobs j).pid = pid → j = i) →
      ∀ j, 0 < pid → (jobs' j).pid = pid → j = i := by
    intro pid h j hpos hj
    rcases hpid j with heq | heq
    · exact h j hpos (heq.symm.trans hj)
    · omega
  cases m with
  | sendCont _ _ pid | setState _ _ pid | waitSearch pid _ => exact hseek h
  | waiting j => exact h
  | _ => trivial

lemma Record.handled_slot : (r.handled s).slot = r.slot := by
  unfold Record.handled
  split
  · rfl
  · split
    · rfl
    · split
      · rfl
      · split <;> rfl

lemma Record.handled_report (hslot : r.slot = some i) (hstack : s.stack.head? = some Signal.chld) :
    (r.handled s).report =
      if s.reap = Reap.setStopped i then some JobState.st
      else if s.reap = Reap.clearState i then some JobState.undef
      else r.report := by
  unfold Record.handled
  rw [hslot]
  dsimp only
  rw [if_neg (not_not_intro hstack)]
  split
  · rfl
  · split <;> rfl

lemma Shown.away (hkept : Kept t) (hpointer : t.main.pointer = none)
    (hseeks : ∀ i, t.main.seeks t.table.jobs i) (hafter : t.main.afterCont = false)
    (hwaitfg : t.main.inWaitfg = false) : Shown (t, r) where
  kept := hkept
  pointer := by simp [hpointer]
  seeks := fun i _ => hseeks i
  reported := by simp [hafter]
  unreported := by simp [hwaitfg]

lemma Shown.onward (h : Shown (s, r)) (hkept : Kept t) (hwaitfg : s.main.inWaitfg = true)
    (htable : t.table = s.table) (hpointer : t.main.pointer = none)
    (hseeks : ∀ i, s.main.seeks s.table.jobs i → t.main.seeks s.table.jobs i) : Shown (t, r) where
  kept := hkept
  pointer := by simp [hpointer]
  seeks := by
    intro i hi
    dsimp only
    rw [htable]
    exact hseeks i (h.seeks i hi)
  reported := by
    intro _
    dsimp only
    rw [htable]
    exact h.reported (Main.afterCont_of_inWaitfg hwaitfg)
  unreported := by
    intro _
    dsimp only
    rw [htable]
    exact h.unreported hwaitfg

lemma Shown.aside (h : Shown (s, r)) (hkept : Kept t) (htable : t.table = s.table)
    (hmain : t.main = s.main) (hr : r' = r) : Shown (t, r') := by
  subst hr
  constructor
  · exact hkept
  · exact hmain ▸ h.pointer
  · exact hmain ▸ htable ▸ h.seeks
  · exact hmain ▸ htable ▸ h.reported
  · exact hmain ▸ htable ▸ h.unreported

lemma Shown.reap {rest : List Signal} (h : Shown (s, r)) (hkept : Kept t)
    (hrest : s.stack = Signal.chld :: rest) (hstep : reapStep s rest = some t) :
    Shown (t, r.handled s) := by
  have hmain := reapStep_main hstep
  have hstack : s.stack.head? = some Signal.chld := by rw [hrest]; rfl
  constructor
  case kept => exact hkept
  case pointer =>
    rw [Record.handled_slot, hmain]
    exact h.pointer
  case seeks =>
    intro i hi
    rw [Record.handled_slot] at hi
    dsimp only
    rw [hmain]
    exact Main.seeks_of_pid (reapStep_pid hstep) (h.seeks i hi)
  case reported =>
    intro hafter i state hi hreport
    rw [Record.handled_slot] at hi
    rw [Record.handled_report hi hstack] at hreport
    dsimp only at hafter ⊢
    rw [hmain] at hafter
    cases reapStep_slot hstep i with
    | stopped hreap hpid hstate =>
      rw [if_pos hreap] at hreport
      obtain rfl := Option.some.inj hreport
      exact ⟨hstate, Or.inl rfl⟩
    | undefined hreap hpid hstate =>
      rw [if_neg (by simp [hreap]), if_pos hreap] at hreport
      obtain rfl := Option.some.inj hreport
      exact ⟨hstate, Or.inr rfl⟩
    | unnamed pid hreap hpid hstate =>
      rw [if_neg (by simp [hreap]), if_neg (by simp [hreap])] at hreport
      rw [hstate]
      exact h.reported hafter i state hi hreport
    | same hreap hpid hstate =>
      rw [if_neg (hreap 0).1, if_neg (hreap 0).2.2] at hreport
      rw [hstate]
      exact h.reported hafter i state hi hreport
  case unreported =>
    intro hwaitfg i hi hreport
    rw [Record.handled_slot] at hi
    rw [Record.handled_report hi hstack] at hreport
    dsimp only at hwaitfg ⊢
    rw [hmain] at hwaitfg
    cases reapStep_slot hstep i with
    | stopped hreap hpid hstate => simp [hreap] at hreport
    | undefined hreap hpid hstate => simp [hreap] at hreport
    | unnamed pid hreap hpid hstate =>
      rw [if_neg (by simp [hreap]), if_neg (by simp [hreap])] at hreport
      rw [hstate]
      exact h.unreported hwaitfg i hi hreport
    | same hreap hpid hstate =>
      rw [if_neg (hreap 0).1, if_neg (hreap 0).2.2] at hreport
      rw [hstate]
      exact h.unreported hwaitfg i hi hreport

lemma Shown.main (h : Shown (s, r)) (hkept : Kept t) (hstep : mainStep s = some t) :
    Shown (t, recorded s r Event.main) := by
  cases hmain : s.main with
  | prompt | fork => simp [mainStep, hmain] at hstep
  | readPid fg i =>
    simp only [mainStep, hmain, Option.some.injEq] at hstep
    subst hstep
    simp only [recorded, hmain]
    refine ⟨hkept, fun _ hi => hi, fun j hj => ?_, by simp [Main.afterCont, Main.inWaitfg],
      by simp [Main.inWaitfg]⟩
    obtain rfl := Option.some.inj hj
    intro k hpos hk
    refine h.kept.sound.unique k i ?_ hk
    show (s.table.jobs k).pid ≠ 0
    rw [show (s.table.jobs k).pid = (s.table.jobs i).pid from hk]
    exact hpos.ne'
  | sendCont fg i pid =>
    have hpointer := h.pointer
    have hseeks := h.seeks
    simp only [hmain] at hpointer hseeks
    simp only [mainStep, hmain] at hstep
    simp only [recorded, hmain]
    split at hstep
    · obtain rfl := Option.some.inj hstep
      exact ⟨hkept, hpointer, hseeks, by simp, by simp [Main.inWaitfg]⟩
    · obtain rfl := Option.some.inj hstep
      refine ⟨hkept, ?_, ?_, by simp, ?_⟩
      · simpa only [hmain] using hpointer
      · simpa only [hmain] using hseeks
      · simp [Main.inWaitfg]
  | setState fg i pid =>
    have hslot := h.pointer i (by simp [hmain, Main.pointer])
    have hseeks := h.seeks i hslot
    simp only [hmain] at hseeks
    simp only [mainStep, hmain, Option.some.injEq] at hstep
    subst hstep
    simp only [recorded, hmain]
    cases fg with
    | false => exact Shown.away hkept rfl (fun _ => trivial) rfl rfl
    | true =>
      refine ⟨hkept, by simp [Main.pointer], fun j hj => ?_, by simp, fun _ j hj _ => ?_⟩
      · obtain rfl := Option.some.inj (hslot.symm.trans hj)
        intro k hpos hk
        rw [pid_modify _ i k _ rfl] at hk
        exact hseeks k hpos hk
      · obtain rfl := Option.some.inj (hslot.symm.trans hj)
        simp
  | waitSearch pid k =>
    have honward := @Shown.onward _ t _ h hkept (by simp [hmain, Main.inWaitfg])
    simp only [mainStep, hmain, Option.some.injEq] at hstep
    subst hstep
    simp only [recorded, hmain]
    apply honward rfl
    · split
      · rfl
      · split
        · split <;> rfl
        · rfl
    · intro i hseeks
      rw [hmain] at hseeks
      dsimp only
      split_ifs with hpid hk hfound
      · trivial
      · exact hseeks ⟨k, hk⟩ (by omega) hfound
      · exact hseeks
      · trivial
  | waiting j =>
    have honward := @Shown.onward _ t _ h hkept (by simp [hmain, Main.inWaitfg])
    simp only [mainStep, hmain, Option.some.injEq] at hstep
    subst hstep
    simp only [recorded, hmain]
    apply honward rfl
    · split <;> rfl
    · intro i hseeks
      rw [hmain] at hseeks
      dsimp only
      split_ifs
      · exact hseeks
      · trivial
  | unblock l pid =>
    simp only [mainStep, hmain, Option.some.injEq] at hstep
    subst hstep
    simp only [recorded, hmain]
    refine ⟨hkept, fun i hi => ?_, by simp, by simp, by simp⟩
    dsimp only at hi
    split at hi <;> simp [Main.pointer] at hi
  | _ =>
    simp only [mainStep, hmain, Option.some.injEq] at hstep
    subst hstep
    apply Shown.away hkept
    all_goals dsimp only
    all_goals repeat' split
    all_goals intros; trivial

lemma Shown.waiting (h : Shown (s, r)) {j : Fin maxJobs} (hslot : r.slot = some i)
    (hmain : s.main = Main.waiting j) : j = i := by
  have hseeks := h.seeks i hslot
  simp only [hmain] at hseeks
  exact hseeks

/-- A report is lost exactly if there is one. -/
lemma Shown.kept_iff (h : Shown (s, r)) (hstep : mainStep s = some t) {fg : Bool} {pid : ℤ}
    (hmain : s.main = Main.setState fg i pid) :
    (∀ state, r.report = some state → (t.table.jobs i).state = state) ↔ r.report = none := by
  have hslot := h.pointer i (by simp [hmain, Main.pointer])
  have hreported := h.reported (by simp [hmain, Main.afterCont]) i
  simp only [mainStep, hmain, Option.some.injEq] at hstep
  subst hstep
  constructor
  · intro hkept
    by_contra hreport
    obtain ⟨state, hstate⟩ := Option.ne_none_iff_exists'.mp hreport
    have hstill := hkept state hstate
    have hrecord := (hreported state hslot hstate).2
    rw [Table.modify_self] at hstill
    subst hstill
    cases fg <;> simp at hrecord
  · intro hnone state hstate
    simp [hnone] at hstate

/-- `waitfg` sleeps exactly if there is no report. -/
lemma Shown.sleeps_iff (h : Shown (s, r)) (hslot : r.slot = some i)
    (hmain : s.main = Main.waiting i) : (s.table.jobs i).state = JobState.fg ↔ r.report = none := by
  constructor
  · intro hfg
    by_contra hreport
    obtain ⟨state, hstate⟩ := Option.ne_none_iff_exists'.mp hreport
    obtain ⟨hst, hrecord⟩ := h.reported (by simp [hmain, Main.afterCont, Main.inWaitfg]) i state hslot
      hstate
    obtain rfl := hfg.symm.trans hst
    simp at hrecord
  · exact h.unreported (by simp [hmain, Main.inWaitfg]) i hslot

lemma Shown.inOrder_iff {e : Event} (h : Shown (s, r)) (hstep : step s e = some t) :
    ReportKept (s, r) e (t, recorded s r e) ↔ InOrder (s, r) e := by
  have hmainStep : e = Event.main → mainStep s = some t := by
    rintro rfl
    cases moved_of_step hstep with
    | main hstack hnext => exact hnext
  constructor
  · intro hkept
    constructor
    case unreported =>
      intro he fg i pid hmain
      exact (h.kept_iff (hmainStep he) hmain).mp (hkept.kept he fg i pid hmain)
    case noticed =>
      intro he i j hslot hmain c hc hpid hstopped hreport
      obtain rfl := h.waiting hslot hmain
      exact hkept.awake he j j hslot hmain ((h.sleeps_iff hslot hmain).mpr hreport) c hc hpid hstopped
  · intro horder
    constructor
    case kept =>
      intro he fg i pid hmain
      exact (h.kept_iff (hmainStep he) hmain).mpr (horder.unreported he fg i pid hmain)
    case awake =>
      intro he i j hslot hmain hfg c hc hpid hstopped
      obtain rfl := h.waiting hslot hmain
      exact horder.noticed he j j hslot hmain c hc hpid hstopped ((h.sleeps_iff hslot hmain).mp hfg)

lemma Shown.step {e : Event} (h : Shown (s, r)) (hstep : step s e = some t) :
    Shown (t, recorded s r e) := by
  have hkept := h.kept.step hstep
  cases moved_of_step hstep with
  | main hstack hmain => exact h.main hkept hmain
  | reap rest hrest hreap => exact h.reap hkept hrest hreap
  | forward k rest hrest hforward =>
    obtain ⟨f, stack, exited, rfl⟩ := forwardStep_eq hforward
    refine h.aside hkept rfl rfl ?_
    rw [recorded, Record.handled, hrest]
    split <;> simp
  | command c m exited hstack hmain hm =>
    rcases hm with rfl | rfl | ⟨fg, target, rfl⟩ | ⟨l, rfl⟩ <;>
      exact Shown.away hkept rfl (fun _ => trivial) rfl rfl
  | fork l pid hstack hmain hpid hnew => exact Shown.away hkept rfl (fun _ => trivial) rfl rfl
  | forkFails l hstack hmain => exact h.aside hkept rfl rfl rfl
  | chld hsig hmasked => exact h.aside hkept rfl rfl rfl
  | key k hsig => exact h.aside hkept rfl rfl rfl
  | stopped c rest hrest hreap hc => exact h.aside hkept rfl rfl rfl
  | ended c rest hrest hreap hc => exact h.aside hkept rfl rfl rfl
  | drained rest hrest hreap => exact h.aside hkept rfl rfl rfl
  | child c c' e strays hc hnext => exact h.aside hkept rfl rfl rfl
  | leave pid strays => exact h.aside hkept rfl rfl rfl

lemma shown_start : Shown watchStart where
  kept := kept_start
  pointer := by simp [watchStart, start, Main.pointer]
  seeks := by simp [watchStart]
  reported := by simp [watchStart]
  unreported := by simp [watchStart]

/-- A running background job stops after `fg` has sent `SIGCONT`. -/
def stopsAgain : List Event :=
  [Event.command (Command.launch ⟨true, "sleep 9 &"⟩), Event.main, Event.fork 7] ++
  List.replicate 8 Event.main ++
  [Event.child 7 ChildEvent.setpgid, Event.command (Command.bgfg true (Target.jid 1)), Event.main,
    Event.main, Event.main, Event.child 7 ChildEvent.stop, Event.deliver Signal.chld,
    Event.report 7, Event.handler, Event.handler, Event.drained]

/-- `fg` then waits for a job that has stopped, and the handler has nothing more to report. -/
example : (run step start (stopsAgain ++ [Event.main, Event.main])).any (fun s =>
    s.main = Main.waiting 0 ∧ (s.table.jobs 0).state = JobState.fg ∧
      s.children = [⟨7, Status.stopped true, true, true⟩]) = true := by
  decide

end SystemsLabs.Tsh
