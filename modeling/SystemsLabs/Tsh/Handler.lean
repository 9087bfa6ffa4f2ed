import SystemsLabs.Tsh.JobTable

/-!
# One run of the handler for `SIGCHLD`

The handler takes the reports of `waitpid` one after the other. It gives up at a stopped child
that is not in the table.
-/

namespace SystemsLabs.Tsh
open Library

/-- What `waitpid` says about a child. -/
inductive Change
  | stopped
  | exited
  | signaled
deriving DecidableEq, Repr

/-- `waitpid` reports positive process IDs only. -/
structure Report where
  pid : ℤ
  change : Change
  positive : 0 < pid

/-- The table after a run of the handler, and the reports it has not taken. -/
def sigchldHandler (t : Table) : List Report → Table × List Report
  | [] => (t, [])
  | r :: queue =>
    match r.change with
    | Change.stopped =>
      match getjobpid t r.pid with
      | some i => sigchldHandler (t.modify i (fun job => { job with state := JobState.st })) queue
      | none => (t, queue)
    | Change.exited => sigchldHandler (deletejob t r.pid).2 queue
    | Change.signaled => sigchldHandler (deletejob t r.pid).2 queue

/-- What a report means for a job. -/
def Report.apply (job : Job) (r : Report) : Job :=
  if job.pid = r.pid then
    match r.change with
    | Change.stopped => { job with state := JobState.st }
    | _ => clearjob
  else job

/-- The handler takes every report and applies it once to every job. -/
def Drains (t : Table) (queue : List Report) : Prop :=
  (sigchldHandler t queue).2 = [] ∧
    ∀ i, (sigchldHandler t queue).1.jobs i = queue.foldl Report.apply (t.jobs i)

def Table.lists (t : Table) (pid : ℤ) : Prop := ∃ i, (t.jobs i).pid = pid

/-- A report that a child has stopped is about a job in the table that has not ended before, or no
report follows it. -/
def Heard (t : Table) (queue : List Report) : Prop :=
  ∀ front r back, queue = front ++ r :: back → r.change = Change.stopped → back ≠ [] →
    t.lists r.pid ∧ ∀ r' ∈ front, r'.pid = r.pid → r'.change = Change.stopped

/-- The used slots have different process IDs. -/
def Table.Unique (t : Table) : Prop :=
  ∀ i j, (t.jobs i).pid ≠ 0 → (t.jobs i).pid = (t.jobs j).pid → i = j

variable {t t' : Table} {r : Report} {queue : List Report} {i j : Fin maxJobs}

lemma Report.apply_of_ne {job : Job} (h : job.pid ≠ r.pid) : r.apply job = job := if_neg h

lemma Report.apply_of_eq {job : Job} (h : job.pid = r.pid) (hr : r.change ≠ Change.stopped) :
    r.apply job = clearjob := by
  rw [Report.apply, if_pos h]
  cases hchange : r.change with
  | stopped => exact absurd hchange hr
  | _ => rfl

lemma Table.Unique.eq (h : t.Unique) (hi : (t.jobs i).pid = r.pid) (hj : (t.jobs j).pid = r.pid) :
    j = i := by
  have := r.positive
  exact h j i (by omega) (hj.trans hi.symm)

lemma apply_stopped (h : t.Unique) (hr : r.change = Change.stopped) (hi : (t.jobs i).pid = r.pid)
    (j : Fin maxJobs) :
    (t.modify i (fun job => { job with state := JobState.st })).jobs j = r.apply (t.jobs j) := by
  by_cases hji : j = i
  · subst hji
    rw [Table.modify_self, Report.apply, if_pos hi, hr]
  · rw [Table.modify_of_ne hji, Report.apply_of_ne]
    exact fun hj => hji (h.eq hi hj)

lemma apply_deletejob (h : t.Unique) (hr : r.change ≠ Change.stopped) (j : Fin maxJobs) :
    (deletejob t r.pid).2.jobs j = r.apply (t.jobs j) := by
  have hpos := r.positive
  rcases deletejob_cases t r.pid with ⟨-, i, hi, heq⟩ | ⟨hnone, heq⟩
  · rw [heq]
    dsimp only
    by_cases hji : j = i
    · subst hji
      rw [Table.modify_self, Report.apply_of_eq hi hr]
    · rw [Table.modify_of_ne hji, Report.apply_of_ne]
      exact fun hj => hji (h.eq hi hj)
  · rw [heq, Report.apply_of_ne]
    rcases hnone with hneg | hne
    · omega
    · exact hne j

lemma apply_pid (job : Job) :
    (r.apply job).pid = job.pid ∧ (job.pid = r.pid → r.change = Change.stopped) ∨
      (r.apply job).pid = 0 ∧ job.pid = r.pid ∧ r.change ≠ Change.stopped := by
  by_cases hpid : job.pid = r.pid
  · cases hchange : r.change with
    | stopped => simp [Report.apply, hpid, hchange]
    | _ => simp [Report.apply, hpid, hchange, clearjob]
  · simp [Report.apply, hpid]

lemma Table.Unique.apply (h : t.Unique) (ht : ∀ i, t'.jobs i = r.apply (t.jobs i)) : t'.Unique := by
  intro i j hi heq
  rw [ht] at hi heq
  rw [ht] at heq
  rcases apply_pid (r := r) (t.jobs i) with ⟨hi', -⟩ | ⟨hi', -⟩
  · rcases apply_pid (r := r) (t.jobs j) with ⟨hj', -⟩ | ⟨hj', -⟩
    · rw [hi'] at hi heq
      exact h i j hi (heq.trans hj')
    · rw [heq] at hi
      exact absurd hj' hi
  · exact absurd hi' hi

lemma lists_apply (ht : ∀ i, t'.jobs i = r.apply (t.jobs i)) {pid : ℤ} (hpid : 0 < pid) :
    t'.lists pid ↔ t.lists pid ∧ (r.pid = pid → r.change = Change.stopped) := by
  constructor
  · rintro ⟨i, hi⟩
    rw [ht] at hi
    rcases apply_pid (r := r) (t.jobs i) with ⟨hsame, hkept⟩ | ⟨hzero, -⟩
    · rw [hsame] at hi
      exact ⟨⟨i, hi⟩, fun hr => hkept (hi.trans hr.symm)⟩
    · omega
  · rintro ⟨⟨i, hi⟩, hkept⟩
    refine ⟨i, ?_⟩
    rw [ht]
    rcases apply_pid (r := r) (t.jobs i) with ⟨hsame, -⟩ | ⟨-, hr, hnot⟩
    · rw [hsame, hi]
    · exact absurd (hkept (hr.symm.trans hi)) hnot

/-- A report that the handler can apply leaves the same condition on the rest of the queue. -/
lemma heard_cons (ht : ∀ i, t'.jobs i = r.apply (t.jobs i))
    (hr : r.change = Change.stopped → t.lists r.pid) : Heard t (r :: queue) ↔ Heard t' queue := by
  constructor
  · intro h front r' back hqueue hstopped hback
    obtain ⟨hlists, hfront⟩ := h (r :: front) r' back (by rw [hqueue]; rfl) hstopped hback
    rw [List.forall_mem_cons] at hfront
    exact ⟨(lists_apply ht r'.positive).mpr ⟨hlists, hfront.1⟩, hfront.2⟩
  · intro h front r' back hqueue hstopped hback
    cases front with
    | nil =>
      obtain ⟨rfl, -⟩ := List.cons.inj hqueue
      exact ⟨hr hstopped, by simp⟩
    | cons r'' front =>
      obtain ⟨rfl, hrest⟩ := List.cons.inj hqueue
      obtain ⟨hlists, hfront⟩ := h front r' back hrest hstopped hback
      rw [lists_apply ht r'.positive] at hlists
      rw [List.forall_mem_cons]
      exact ⟨hlists.1, hlists.2, hfront⟩

lemma drains_cons (ht : ∀ i, t'.jobs i = r.apply (t.jobs i))
    (hstep : sigchldHandler t (r :: queue) = sigchldHandler t' queue) :
    Drains t (r :: queue) ↔ Drains t' queue := by
  simp only [Drains, hstep, List.foldl_cons, ht]

lemma drains_lost (hr : r.change = Change.stopped) (hget : getjobpid t r.pid = none) :
    Drains t (r :: queue) ↔ Heard t (r :: queue) := by
  have hne : ∀ i, (t.jobs i).pid ≠ r.pid := getjobpid_eq_none r.positive hget
  have hstep : sigchldHandler t (r :: queue) = (t, queue) := by rw [sigchldHandler, hr, hget]
  constructor
  · rintro ⟨hnil, -⟩ front r' back hqueue _ hback
    rw [hstep] at hnil
    cases front with
    | nil =>
      obtain ⟨-, rfl⟩ := List.cons.inj hqueue
      exact absurd hnil hback
    | cons r'' front =>
      have := (List.cons.inj hqueue).2
      simp [show queue = [] from hnil] at this
  · intro h
    have hqueue : queue = [] := by
      by_contra hback
      obtain ⟨⟨i, hi⟩, -⟩ := h [] r queue rfl hr hback
      exact hne i hi
    subst hqueue
    refine ⟨by rw [hstep], ?_⟩
    intro i
    rw [hstep, List.foldl_cons, List.foldl_nil, Report.apply_of_ne (hne i)]

/-- The handler drains a queue exactly if no report follows one about a stopped child that is not in
the table. -/
lemma Table.Unique.drains_iff (h : t.Unique) (queue : List Report) :
    Drains t queue ↔ Heard t queue := by
  induction queue generalizing t with
  | nil => exact iff_of_true ⟨rfl, fun _ => rfl⟩ (by simp [Heard])
  | cons r queue ih =>
    cases hr : r.change with
    | stopped =>
      cases hget : getjobpid t r.pid with
      | none => exact drains_lost hr hget
      | some i =>
        have hi := (getjobpid_eq_some hget).2
        have ht := apply_stopped h hr hi
        rw [drains_cons ht (by rw [sigchldHandler, hr, hget]), heard_cons ht (fun _ => ⟨i, hi⟩)]
        exact ih (h.apply ht)
    | exited =>
      have ht := apply_deletejob h (r := r) (by simp [hr])
      rw [drains_cons ht (by rw [sigchldHandler, hr]), heard_cons ht (by simp [hr])]
      exact ih (h.apply ht)
    | signaled =>
      have ht := apply_deletejob h (r := r) (by simp [hr])
      rw [drains_cons ht (by rw [sigchldHandler, hr]), heard_cons ht (by simp [hr])]
      exact ih (h.apply ht)

/-- With any table that the shell can have, the handler drains exactly the queues in which no
report follows one about a stopped child that is not in the table. -/
theorem drains_iff_heard {s : Shell} (h : Reaches step anyEvent start s) (queue : List Report) :
    Drains s.table queue ↔ Heard s.table queue := by
  have hunique : s.table.Unique := (kept_of_reaches h).sound.unique
  exact hunique.drains_iff queue

/-- Background jobs with the process IDs from 101 on. -/
def launches (n : ℕ) : List Event :=
  (List.range n).flatMap (fun (k : ℕ) =>
    [Event.command (Command.launch ⟨true, "sleep 9 &"⟩), Event.main, Event.fork (k + 101),
      Event.child (k + 101) ChildEvent.setpgid] ++
    List.replicate (if k < maxJobs then k + 8 else k + 3) Event.main)

def stopOf (n : ℕ) : Report := ⟨n + 101, Change.stopped, by omega⟩

def exitOf (n : ℕ) : Report := ⟨n + 101, Change.exited, by omega⟩

theorem drains_one_job : ∃ s, run step start (launches 1) = some s ∧
    Drains s.table [stopOf 0, exitOf 0, stopOf 9] := by
  have hrun : ∃ s, run step start (launches 1) = some s ∧ (s.table.jobs 0).pid = 101 := by
    have hsome : ((run step start (launches 1)).any (fun s => (s.table.jobs 0).pid = 101)) = true := by
      decide
    simpa [Option.any_eq_true] using hsome
  obtain ⟨s, hs, hpid⟩ := hrun
  refine ⟨s, hs, (drains_iff_heard (reaches_of_run (fun _ _ _ => trivial) hs) _).mpr ?_⟩
  intro front r back hqueue hstopped hback
  rcases front with _ | ⟨r₁, _ | ⟨r₂, _ | ⟨r₃, rest⟩⟩⟩
  · obtain ⟨rfl, -⟩ := List.cons.inj hqueue
    exact ⟨⟨0, hpid⟩, by simp⟩
  · have := (List.cons.inj (List.cons.inj hqueue).2).1
    subst this
    simp [exitOf] at hstopped
  · have := (List.cons.inj (List.cons.inj (List.cons.inj hqueue).2).2).2
    exact absurd this.symm hback
  · simp at hqueue

/-- A seventeenth job is refused and stops. Then the first job ends. -/
theorem drains_fails : ¬∀ s, Reaches step anyEvent start s → ∀ queue, Drains s.table queue := by
  intro h
  have hrun : ∃ s, run step start (launches 17) = some s ∧
      (sigchldHandler s.table [stopOf 16, exitOf 0]).2.length = 1 := by
    have hsome : ((run step start (launches 17)).any (fun s =>
        (sigchldHandler s.table [stopOf 16, exitOf 0]).2.length = 1)) = true := by
      decide +kernel
    simpa [Option.any_eq_true] using hsome
  obtain ⟨s, hs, hleft⟩ := hrun
  have hdrains := (h s (reaches_of_run (fun _ _ _ => trivial) hs) [stopOf 16, exitOf 0]).1
  simp [hdrains] at hleft

end SystemsLabs.Tsh
