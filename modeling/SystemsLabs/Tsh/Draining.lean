import SystemsLabs.Tsh.Handler
import SystemsLabs.Tsh.Routines

/-!
# The handler for `SIGCHLD`, statement by statement

Whatever order the kernel makes its reports in, an uninterrupted run of the handler leaves the table
that the function on reports computes, and the reports that it has not taken stay due.
-/

namespace SystemsLabs.Tsh
open Library

def Status.change : Status → Option Change
  | Status.running => none
  | Status.stopped reported => if reported then none else some Change.stopped
  | Status.exited => some Change.exited
  | Status.killed => some Change.signaled

/-- The reports that are due, one for each child that has something to report, in the order in which
the kernel makes them. -/
structure Pending (children : List Child) (queue : List Report) : Prop where
  once : (queue.map Report.pid).Nodup
  due : ∀ r ∈ queue, ∃ c ∈ children, c.pid = r.pid ∧ c.status.change = some r.change
  all : ∀ c ∈ children, c.status.change ≠ none → ∃ r ∈ queue, r.pid = c.pid

def Report.collect (r : Report) (children : List Child) : List Child :=
  if r.change = Change.stopped then
    children.map (fun c => if c.pid = r.pid then { c with status := Status.stopped true } else c)
  else children.filter (fun c => c.pid ≠ r.pid)

def Report.reap (r : Report) : Reap :=
  if r.change = Change.stopped then Reap.stopped r.pid else Reap.delete r.pid

/-- The process ID that `waitpid` returns. -/
def Event.takes : Event → Option ℤ
  | Event.report pid => some pid
  | _ => none

def Event.isHandler : Event → Bool
  | Event.handler => true
  | Event.report _ => true
  | Event.drained => true
  | _ => false

section Reports

variable {s : Shell} {r : Report} {queue : List Report} {children : List Child} {c : Child}
  {rest : List Signal}

lemma Child.reportable_eq (c : Child) : c.reportable = c.status.change.isSome := by
  rw [Child.reportable]
  cases c.status with
  | stopped reported => cases reported <;> rfl
  | _ => rfl

lemma report_due (hnodup : (s.children.map Child.pid).Nodup)
    (hdue : ∃ c ∈ s.children, c.pid = r.pid ∧ c.status.change = some r.change) :
    report s r.pid = some { s with children := r.collect s.children, reap := r.reap } := by
  obtain ⟨c, hc, hpid, hchange⟩ := hdue
  have hfind : s.children.find? (fun c => c.pid = r.pid && c.reportable) = some c := by
    cases h : s.children.find? (fun c => c.pid = r.pid && c.reportable) with
    | none =>
      rw [List.find?_eq_none] at h
      exact absurd (by simp [hpid, c.reportable_eq, hchange]) (h c hc)
    | some d =>
      have hd := List.find?_some h
      simp only [Bool.and_eq_true, decide_eq_true_eq] at hd
      rw [List.inj_on_of_nodup_map hnodup (List.mem_of_find?_eq_some h) hc (hd.1.trans hpid.symm)]
  rw [report, hfind]
  cases hstatus : c.status with
  | running => simp [hstatus, Status.change] at hchange
  | stopped reported =>
    have hstopped : r.change = Change.stopped := by
      cases reported
      · simpa [hstatus, Status.change, eq_comm] using hchange
      · simp [hstatus, Status.change] at hchange
    simp only [Report.collect, Report.reap, hstopped, if_true, hstatus]
  | exited =>
    have hne : r.change ≠ Change.stopped := by
      rw [hstatus, Status.change, Option.some.injEq] at hchange
      rw [← hchange]
      exact Change.noConfusion
    simp only [Report.collect, Report.reap, if_neg hne, hstatus]
  | killed =>
    have hne : r.change ≠ Change.stopped := by
      rw [hstatus, Status.change, Option.some.injEq] at hchange
      rw [← hchange]
      exact Change.noConfusion
    simp only [Report.collect, Report.reap, if_neg hne, hstatus]

lemma mem_collect (hc : c.pid ≠ r.pid) : c ∈ r.collect children ↔ c ∈ children := by
  rw [Report.collect]
  split
  · rw [List.mem_map]
    constructor
    · rintro ⟨d, hd, rfl⟩
      by_cases hpid : d.pid = r.pid
      · simp [hpid] at hc
      · rwa [if_neg hpid]
    · intro h
      exact ⟨c, h, if_neg hc⟩
  · simp [List.mem_filter, hc]

/-- A child that the report was about has nothing more to report. -/
lemma change_of_collect (hc : c ∈ r.collect children) (hpid : c.pid = r.pid) :
    c.status.change = none := by
  rw [Report.collect] at hc
  split at hc
  · obtain ⟨d, -, rfl⟩ := List.mem_map.mp hc
    by_cases hd : d.pid = r.pid
    · rw [if_pos hd]
      rfl
    · rw [if_neg hd] at hpid
      exact absurd hpid hd
  · rw [List.mem_filter] at hc
    simp [hpid] at hc

lemma collect_nodup (h : (children.map Child.pid).Nodup) :
    ((r.collect children).map Child.pid).Nodup := by
  rw [Report.collect]
  split
  · have hpids : (children.map fun c =>
        if c.pid = r.pid then { c with status := Status.stopped true } else c).map Child.pid =
          children.map Child.pid := by
      rw [List.map_map]
      apply List.map_congr_left
      intro c _
      dsimp only [Function.comp]
      split <;> rfl
    rw [hpids]
    exact h
  · exact h.sublist (List.filter_sublist.map _)

lemma Pending.tail (h : Pending children (r :: queue)) : Pending (r.collect children) queue := by
  obtain ⟨hr, hqueue⟩ := List.nodup_cons.mp h.once
  have hother : ∀ r' ∈ queue, r'.pid ≠ r.pid := fun r' hr' heq =>
    hr (heq ▸ List.mem_map_of_mem hr')
  constructor
  case once => exact hqueue
  case due =>
    intro r' hr'
    obtain ⟨c, hc, hpid, hchange⟩ := h.due r' (List.mem_cons_of_mem r hr')
    exact ⟨c, (mem_collect (hpid.trans_ne (hother r' hr'))).mpr hc, hpid, hchange⟩
  case all =>
    intro c hc hchange
    have hpid : c.pid ≠ r.pid := fun heq => hchange (change_of_collect hc heq)
    obtain ⟨r', hr', heq⟩ := h.all c ((mem_collect hpid).mp hc) hchange
    rcases List.mem_cons.mp hr' with rfl | hr'
    · exact absurd heq.symm hpid
    · exact ⟨r', hr', heq⟩

/-- Without reports `waitpid` returns 0, and the handler returns. -/
lemma drained_run (hexited : s.exited = false) (hstack : s.stack = Signal.chld :: rest)
    (hreap : s.reap = Reap.wait) (h : Pending s.children []) :
    run step s [Event.drained] = some { s with reap := Reap.idle, stack := rest } := by
  have hnone : ∀ c ∈ s.children, c.reportable = false := by
    intro c hc
    rw [c.reportable_eq, Option.isSome_eq_false_iff, Option.isNone_iff_eq_none]
    by_contra hchange
    obtain ⟨r, hr, -⟩ := h.all c hc hchange
    simp at hr
  have hdrained : drained s = some { s with reap := Reap.idle, stack := rest } := by
    rw [drained, if_pos hnone, hstack]
    rfl
  simp [run, step, hexited, Shell.waits, hstack, hreap, hdrained]

lemma report_run (hexited : s.exited = false) (hstack : s.stack = Signal.chld :: rest)
    (hreap : s.reap = Reap.wait) (hnodup : (s.children.map Child.pid).Nodup)
    (h : Pending s.children (r :: queue)) :
    run step s [Event.report r.pid] =
      some { s with children := r.collect s.children, reap := r.reap } := by
  have hwaits : s.waits := ⟨by rw [hstack]; rfl, hreap⟩
  have hreport := report_due hnodup (h.due r (by simp))
  simp [run, step, hexited, hwaits, hreport]

/-- The handler gives up at a stopped child that is not in the table. -/
lemma lost_run (hexited : s.exited = false) (hstack : s.stack = Signal.chld :: rest)
    (hreap : s.reap = Reap.wait) (hnodup : (s.children.map Child.pid).Nodup)
    (h : Pending s.children (r :: queue)) (hstopped : r.change = Change.stopped)
    (hget : getjobpid s.table r.pid = none) :
    ∃ n, run step s (Event.report r.pid :: List.replicate n Event.handler) =
      some { s with children := r.collect s.children, reap := Reap.idle, stack := rest } := by
  obtain ⟨n, hn⟩ := @stopped_run { s with children := r.collect s.children, reap := r.reap }
    r.pid rest hexited hstack (by simp [Report.reap, hstopped])
  simp only [hget, Option.elim_none] at hn
  refine ⟨n, ?_⟩
  rw [← List.singleton_append, run_append, report_run hexited hstack hreap hnodup h, Option.bind_some, hn]

lemma taken_run (hexited : s.exited = false) (hstack : s.stack = Signal.chld :: rest)
    (hreap : s.reap = Reap.wait) (hnodup : (s.children.map Child.pid).Nodup)
    (h : Pending s.children (r :: queue))
    (hkept : r.change = Change.stopped → getjobpid s.table r.pid ≠ none) :
    ∃ n t, sigchldHandler s.table (r :: queue) = sigchldHandler t queue ∧
      run step s (Event.report r.pid :: List.replicate n Event.handler) =
        some { s with children := r.collect s.children, table := t, reap := Reap.wait } := by
  have hreport := report_run hexited hstack hreap hnodup h
  by_cases hstopped : r.change = Change.stopped
  · obtain ⟨i, hi⟩ := Option.ne_none_iff_exists'.mp (hkept hstopped)
    obtain ⟨n, hn⟩ := @stopped_run { s with children := r.collect s.children, reap := r.reap }
      r.pid rest hexited hstack (by simp [Report.reap, hstopped])
    simp only [hi, Option.elim_some] at hn
    refine ⟨n, _, by rw [sigchldHandler, hstopped, hi], ?_⟩
    rw [← List.singleton_append, run_append, hreport, Option.bind_some, hn]
  · obtain ⟨n, hn⟩ := @deletejob_run { s with children := r.collect s.children, reap := r.reap }
      r.pid rest hexited hstack (by simp [Report.reap, hstopped])
    refine ⟨n, (deletejob s.table r.pid).2, ?_, ?_⟩
    · rw [sigchldHandler]
      cases hchange : r.change with
      | stopped => exact absurd hchange hstopped
      | exited => rfl
      | signaled => rfl
    · rw [← List.singleton_append, run_append, hreport, Option.bind_some, hn]

/-- A run of the handler by induction on the reports that are due. -/
lemma handler_run (hexited : s.exited = false) (hstack : s.stack = Signal.chld :: rest)
    (hreap : s.reap = Reap.wait) (hnodup : (s.children.map Child.pid).Nodup)
    (h : Pending s.children queue) :
    ∃ es children, run step s es = some { s with
        table := (sigchldHandler s.table queue).1
        children := children
        reap := Reap.idle
        stack := rest } ∧
      (∀ e ∈ es, e.isHandler = true) ∧ Pending children (sigchldHandler s.table queue).2 ∧
      es.filterMap Event.takes ++ (sigchldHandler s.table queue).2.map Report.pid =
        queue.map Report.pid := by
  induction queue generalizing s with
  | nil =>
    exact ⟨[Event.drained], s.children, drained_run hexited hstack hreap h, by simp [Event.isHandler],
      h, rfl⟩
  | cons r queue ih =>
    have hhandler : ∀ n, ∀ e ∈ Event.report r.pid :: List.replicate n Event.handler,
        e.isHandler = true := by
      intro n e he
      rcases List.mem_cons.mp he with rfl | he
      · rfl
      · rw [List.eq_of_mem_replicate he]
        rfl
    have htakes : ∀ n, (Event.report r.pid :: List.replicate n Event.handler).filterMap Event.takes =
        [r.pid] := by
      intro n
      simp [Event.takes]
    by_cases hlost : r.change = Change.stopped ∧ getjobpid s.table r.pid = none
    · obtain ⟨n, hn⟩ := lost_run hexited hstack hreap hnodup h hlost.1 hlost.2
      have hleft : sigchldHandler s.table (r :: queue) = (s.table, queue) := by
        rw [sigchldHandler, hlost.1, hlost.2]
      refine ⟨_, _, by rw [hn, hleft], hhandler n, ?_, ?_⟩
      · rw [hleft]
        exact h.tail
      · rw [hleft, htakes]
        rfl
    · obtain ⟨n, t, heq, hn⟩ := taken_run hexited hstack hreap hnodup h
        fun hstopped hget => hlost ⟨hstopped, hget⟩
      obtain ⟨es, children, hes, hisHandler, hpending, horder⟩ := ih
        (s := { s with children := r.collect s.children, table := t, reap := Reap.wait })
        hexited hstack rfl (collect_nodup hnodup) h.tail
      rw [heq]
      refine ⟨_, children, by rw [run_append, hn, Option.bind_some, hes], ?_, hpending, ?_⟩
      · intro e he
        exact (List.mem_append.mp he).elim (hhandler n e) (hisHandler e)
      · rw [List.filterMap_append, htakes, List.append_assoc, horder]
        rfl

end Reports

/-- In whatever order the kernel makes the reports that are due, an uninterrupted run of the handler
takes them in this order up to the first one about a stopped child that is not in the table, leaves
the table that the function on reports computes, and the rest stays due. -/
theorem sigchldHandler_run {s : Shell} {rest : List Signal} {queue : List Report}
    (hreaches : Reaches step anyEvent start s) (hexited : s.exited = false)
    (hstack : s.stack = Signal.chld :: rest) (hreap : s.reap = Reap.wait)
    (hpending : Pending s.children queue) :
    ∃ es t, run step s es = some t ∧ (∀ e ∈ es, e.isHandler = true) ∧
      t.table = (sigchldHandler s.table queue).1 ∧ t.stack = rest ∧ t.reap = Reap.idle ∧
      Pending t.children (sigchldHandler s.table queue).2 ∧
      es.filterMap Event.takes ++ (sigchldHandler s.table queue).2.map Report.pid =
        queue.map Report.pid := by
  have hnodup : (s.children.map Child.pid).Nodup := by
    have := (kept_of_reaches hreaches).sound.nodup
    simpa [Shell.roster, Child.entry, Function.comp_def] using this
  obtain ⟨es, children, hes, hhandler, hleft, horder⟩ := handler_run hexited hstack hreap hnodup hpending
  exact ⟨es, _, hes, hhandler, rfl, rfl, rfl, hleft, horder⟩

/-- Two jobs, the second of which has stopped and the first of which has ended. -/
def twoReports : List Event :=
  launches 2 ++ [Event.child 102 ChildEvent.stop, Event.child 101 ChildEvent.exit,
    Event.deliver Signal.chld]

theorem sigchldHandler_run_twoReports : ∃ s es t, run step start twoReports = some s ∧
    run step s es = some t ∧ (∀ e ∈ es, e.isHandler = true) ∧
      t.table = (sigchldHandler s.table [stopOf 1, exitOf 0]).1 ∧ t.stack = [] ∧ t.reap = Reap.idle ∧
      Pending t.children (sigchldHandler s.table [stopOf 1, exitOf 0]).2 ∧
      es.filterMap Event.takes ++ (sigchldHandler s.table [stopOf 1, exitOf 0]).2.map Report.pid =
        [stopOf 1, exitOf 0].map Report.pid := by
  have hrun : ∃ s, run step start twoReports = some s ∧ s.exited = false ∧
      s.stack = [Signal.chld] ∧ s.reap = Reap.wait ∧ s.children =
        [⟨102, Status.stopped false, true, true⟩, ⟨101, Status.exited, true, true⟩] := by
    have hsome : ((run step start twoReports).any (fun s => s.exited = false ∧
        s.stack = [Signal.chld] ∧ s.reap = Reap.wait ∧ s.children =
          [⟨102, Status.stopped false, true, true⟩, ⟨101, Status.exited, true, true⟩])) = true := by
      decide
    simpa [Option.any_eq_true] using hsome
  obtain ⟨s, hs, hexited, hstack, hreap, hchildren⟩ := hrun
  have hpending : Pending s.children [stopOf 1, exitOf 0] := by
    rw [hchildren]
    exact ⟨by decide, by decide, by decide⟩
  obtain ⟨es, t, h⟩ := sigchldHandler_run (reaches_of_run (fun _ _ _ => trivial) hs) hexited hstack
    hreap hpending
  exact ⟨s, es, t, hs, h⟩

end SystemsLabs.Tsh
