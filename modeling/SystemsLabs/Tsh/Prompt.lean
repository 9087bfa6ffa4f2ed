import SystemsLabs.Tsh.Forwarding

/-!
# The shell at its prompt

While the shell waits for no job, no job is in the foreground, so the keyboard signals kill nothing.
-/

namespace SystemsLabs.Tsh
open Library

/-- The main program will not wait for a job before the next command. -/
def Main.Resting (m : Main) : Prop := ∀ jobs i, ¬m.owns jobs i

/-- The keyboard signals reach no job while the main program waits for none. -/
structure Quiet (s : Shell) : Prop where
  noJob : s.main.Resting → ∀ i, (s.table.jobs i).state ≠ JobState.fg
  noFound : s.main.Resting → ∀ k i, s.forward k ≠ Forward.found i
  noKill : s.main.Resting → ∀ k pid, s.forward k ≠ Forward.send pid

variable {s t : Shell}

/-- The handler for `SIGCHLD` puts no job into the foreground. -/
lemma reapStep_fg {rest : List Signal} (hstep : reapStep s rest = some t) {i : Fin maxJobs}
    (hi : (t.table.jobs i).state = JobState.fg) : (s.table.jobs i).state = JobState.fg := by
  cases reapStep_slot hstep i with
  | stopped hreap hpid hstate | undefined hreap hpid hstate => cases hstate.symm.trans hi
  | unnamed pid hreap hpid hstate => exact hstate.symm.trans hi
  | same hreap hpid hstate => exact hstate.symm.trans hi

/-- A handler for a keyboard signal kills only a job in the foreground. -/
lemma forwardStep_send {k : Key} {rest : List Signal} (hstep : forwardStep s k rest = some t)
    (hjobs : ∀ i, (s.table.jobs i).state ≠ JobState.fg)
    (hfound : ∀ k i, s.forward k ≠ Forward.found i)
    (hsend : ∀ k pid, s.forward k ≠ Forward.send pid) (k' : Key) :
    (∀ i, t.forward k' ≠ Forward.found i) ∧ ∀ pid, t.forward k' ≠ Forward.send pid := by
  have hupdate : ∀ f : Forward, (∀ i, f ≠ Forward.found i) → (∀ pid, f ≠ Forward.send pid) →
      (∀ i, Function.update s.forward k f k' ≠ Forward.found i) ∧
        ∀ pid, Function.update s.forward k f k' ≠ Forward.send pid := by
    intro f hf hf'
    by_cases hk : k' = k
    · rw [hk, Function.update_self]
      exact ⟨hf, hf'⟩
    · rw [Function.update_of_ne hk]
      exact ⟨hfound k', hsend k'⟩
  cases hforward : s.forward k with
  | idle => simp [forwardStep, hforward] at hstep
  | found i => exact absurd hforward (hfound k i)
  | send pid' => exact absurd hforward (hsend k pid')
  | search i =>
    simp only [forwardStep, hforward] at hstep
    split at hstep
    · rw [if_neg (hjobs _)] at hstep
      obtain rfl := Option.some.inj hstep
      exact hupdate _ (by simp) (by simp)
    · obtain rfl := Option.some.inj hstep
      exact hupdate _ (by simp) (by simp)

lemma Quiet.step {e : Event} (h : Quiet s) (hattended : Attended s) (haimed : Aimed s)
    (hguard : Guarded s e) (hstep : step s e = some t) : Quiet t := by
  have hnext := hattended.step hguard hstep
  -- an event that leaves the table and the handlers alone, from a resting main program
  have hsilent : ∀ {u : Shell}, u.table = s.table → u.forward = s.forward →
      (u.main.Resting → s.main.Resting) → Quiet u := by
    intro u htable hforward hrest
    refine ⟨fun hu => ?_, fun hu => ?_, fun hu => ?_⟩
    · rw [htable]
      exact h.noJob (hrest hu)
    · rw [hforward]
      exact h.noFound (hrest hu)
    · rw [hforward]
      exact h.noKill (hrest hu)
  cases moved_of_step hstep with
  | main hstack hmain =>
    obtain ⟨hreap, hforward⟩ := mainStep_handlers hmain
    have hidle := hattended.kept.disciplined.idle hstack
    have htended := hnext.tended
    rw [hreap, hidle] at htended
    refine ⟨fun hrest i => htended.no_fg (fun i => hrest _ i) i, fun _ k i => ?_, fun _ k pid => ?_⟩
    · rw [hforward, haimed.idle hstack k]
      simp
    · rw [hforward, haimed.idle hstack k]
      simp
  | reap rest hrest hreap =>
    have hmain := reapStep_main hreap
    obtain ⟨hforward, -⟩ := reapStep_keeps hattended.kept hreap
    refine ⟨fun hresting i hi => ?_, ?_, ?_⟩
    · rw [hmain] at hresting
      exact h.noJob hresting i (reapStep_fg hreap hi)
    · rw [hmain, hforward]
      exact h.noFound
    · rw [hmain, hforward]
      exact h.noKill
  | forward k rest hrest hforward =>
    obtain ⟨f, stack, exited, rfl⟩ := forwardStep_eq hforward
    have hsend := fun hresting : s.main.Resting =>
      forwardStep_send hforward (h.noJob hresting) (h.noFound hresting) (h.noKill hresting)
    exact ⟨h.noJob, fun hresting k => (hsend hresting k).1, fun hresting k => (hsend hresting k).2⟩
  | command c m exited hstack hmain hm =>
    refine hsilent rfl rfl fun _ => ?_
    rw [hmain]
    exact fun _ _ howns => howns
  | fork l pid hstack hmain hpid hnew =>
    refine hsilent rfl rfl fun _ => ?_
    rw [hmain]
    exact fun _ _ howns => howns
  | forkFails l hstack hmain => exact hsilent rfl rfl (fun hrest => hrest)
  | chld hsig hmasked => exact hsilent rfl rfl (fun hrest => hrest)
  | key k hsig =>
    refine ⟨h.noJob, fun hresting k' i => ?_, fun hresting k' pid => ?_⟩
    · by_cases hk : k' = k
      · simp [hk]
      · simpa only [Function.update_of_ne hk] using h.noFound hresting k' i
    · by_cases hk : k' = k
      · simp [hk]
      · simpa only [Function.update_of_ne hk] using h.noKill hresting k' pid
  | stopped c rest hrest hreap hc => exact hsilent rfl rfl (fun hrest => hrest)
  | ended c rest hrest hreap hc => exact hsilent rfl rfl (fun hrest => hrest)
  | drained rest hrest hreap => exact hsilent rfl rfl (fun hrest => hrest)
  | child c c' e strays hc hnext => exact hsilent rfl rfl (fun hrest => hrest)
  | leave pid strays => exact hsilent rfl rfl (fun hrest => hrest)

lemma quiet_start : Quiet start :=
  ⟨by simp [start, initjobs, clearjob], by simp [start], by simp [start]⟩

/-- In a run in which `do_bgfg` never assigns to a slot whose job has been deleted, the keyboard
signals find no job and no handler calls `kill`, from the time the shell has stopped waiting for a
job until it starts or continues the next one in the foreground. -/
theorem quiet_along {es : List Event} (h : Permitted step Guarded start es) :
    Along step Quiet start es := by
  refine along_of_permitted (fun s => Attended s ∧ Aimed s ∧ Quiet s) (fun s h => h.2.2) ?_
    ⟨attended_start, aimed_start, quiet_start⟩ h
  rintro s e t ⟨hattended, haimed, hquiet⟩ hguard hstep
  exact ⟨hattended.step hguard hstep, haimed.step hstep, hquiet.step hattended haimed hguard hstep⟩

/-- The slot that the next statement of `do_bgfg` assigns to. -/
def Main.assigned : Main → Option (Fin maxJobs)
  | Main.setState _ i _ => some i
  | _ => none

lemma guarded_iff {e : Event} : Guarded s e ↔
    (e = Event.main → ∀ i ∈ s.main.assigned, (s.table.jobs i).pid ≠ 0) := by
  constructor
  · intro h he i hi
    cases hmain : s.main with
    | setState fg j pid =>
      rw [hmain, Main.assigned, Option.mem_some_iff] at hi
      subst hi
      exact h fg j pid he hmain
    | _ => simp [hmain, Main.assigned] at hi
  · intro h fg i pid he hmain
    exact h he i (by simp [hmain, Main.assigned])

instance (s : Shell) (e : Event) : Decidable (Guarded s e) := decidable_of_iff _ guarded_iff.symm

/-- The keyboard stops a job, and is used again at the prompt. Then the user continues the job. -/
def keysAtPrompt : List Event :=
  foregroundJob ++ [Event.child 7 ChildEvent.setpgid, Event.deliver (Signal.key Key.tstp),
    Event.handler, Event.handler, Event.handler, Event.child 7 ChildEvent.stop,
    Event.deliver Signal.chld, Event.report 7, Event.handler, Event.handler, Event.drained,
    Event.main, Event.deliver (Signal.key Key.int)] ++ List.replicate 17 Event.handler ++
  [Event.command (Command.bgfg true (Target.jid 1))] ++ List.replicate 5 Event.main

theorem quiet_keysAtPrompt : Along step Quiet start keysAtPrompt :=
  quiet_along (by decide)

end SystemsLabs.Tsh
