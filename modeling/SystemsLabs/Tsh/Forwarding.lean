import SystemsLabs.Tsh.Foreground

/-!
# Forwarded signals

The handlers for `SIGINT` and `SIGTSTP` exit the shell if `kill` fails. The process group they
signal exists between the call of `setpgid` in the child and the end of its last member.
-/

namespace SystemsLabs.Tsh
open Library

/-- A child keeps the process ID that a handler has read from the table, until the handler for
`SIGCHLD` reaps it. -/
structure Aimed (s : Shell) : Prop where
  kept : Kept s
  active : ∀ k, s.forward k ≠ Forward.idle → Signal.key k ∈ s.stack
  known : ∀ k pid, s.forward k = Forward.send pid →
    (∃ i, (s.table.jobs i).pid = pid) ∨ ∀ c ∈ s.children, c.pid ≠ pid

def Shell.kills (s : Shell) (pid : ℤ) : Prop :=
  pid ≠ 0 ∧ ∃ k, s.stack.head? = some (Signal.key k) ∧ s.forward k = Forward.send pid

/-- The child has called `setpgid` and is in the table, and `deletejob` is not about to remove it.
A descendant in the group makes up for all of this. -/
def Shell.timely (s : Shell) (pid : ℤ) : Prop :=
  pid ∈ s.strays ∨
    (∀ c ∈ s.children, c.pid = pid → c.grouped = true) ∧ (∃ i, (s.table.jobs i).pid = pid) ∧
      s.reap.removal.child ≠ some pid

variable {s t : Shell} {pid : ℤ}

lemma Kept.child_of_listed (h : Kept s) (hpid : pid ≠ 0) (hlisted : ∃ i, (s.table.jobs i).pid = pid)
    (hremoval : s.reap.removal.child ≠ some pid) : ∃ c ∈ s.children, c.pid = pid := by
  obtain ⟨i, rfl⟩ := hlisted
  have hentry : ∀ {added : Bool}, ((s.table.jobs i).pid, added) ∈ s.roster.kids →
      ∃ c ∈ s.children, c.pid = (s.table.jobs i).pid := by
    intro added hkid
    obtain ⟨c, hc, heq⟩ := List.mem_map.mp hkid
    exact ⟨c, hc, congrArg Prod.fst heq⟩
  rcases h.sound.listed i hpid with hmarked | hstored | hreaped | hclearing
  · exact hentry hmarked
  · exact hentry (h.sound.waiting _ (congrArg Stage.child hstored))
  · exact absurd (congrArg Removal.child hreaped) hremoval
  · exact absurd (congrArg Removal.child hclearing) hremoval

lemma Kept.not_child (h : Kept s) (hremoval : s.reap.removal.child = some pid) :
    ∀ c ∈ s.children, c.pid ≠ pid := fun c hc =>
  (h.sound.reaped pid hremoval).2 c.entry (List.mem_map_of_mem hc)

lemma Kept.child_unique (h : Kept s) {c d : Child} (hc : c ∈ s.children) (hd : d ∈ s.children)
    (heq : c.pid = d.pid) : c = d := by
  have hnodup : (s.children.map Child.pid).Nodup := by
    have := h.sound.nodup
    simpa [Shell.roster, Child.entry, Function.comp_def] using this
  exact List.inj_on_of_nodup_map hnodup hc hd heq

/-- The group that a handler signals exists exactly if the handler comes in time. -/
lemma Aimed.hasGroup_iff (h : Aimed s) (hkills : s.kills pid) : s.hasGroup pid ↔ s.timely pid := by
  obtain ⟨hpid, k, -, hsend⟩ := hkills
  constructor
  · rintro (⟨c, hc, hcpid, hgrouped⟩ | hstray)
    · refine Or.inr ⟨?_, ?_, ?_⟩
      · intro d hd hdpid
        rwa [h.kept.child_unique hd hc (hdpid.trans hcpid.symm)]
      · exact (h.known k pid hsend).resolve_right (fun hnone => hnone c hc hcpid)
      · exact fun hremoval => h.kept.not_child hremoval c hc hcpid
    · exact Or.inl hstray
  · rintro (hstray | ⟨hgrouped, hlisted, hremoval⟩)
    · exact Or.inr hstray
    · obtain ⟨c, hc, hcpid⟩ := h.kept.child_of_listed hpid hlisted hremoval
      exact Or.inl ⟨c, hc, hcpid, hgrouped c hc hcpid⟩

lemma Aimed.idle (h : Aimed s) (hstack : s.stack = []) (k : Key) : s.forward k = Forward.idle := by
  by_contra hne
  have := h.active k hne
  simp [hstack] at this

lemma Aimed.main (h : Aimed s) (hkept : Kept t) (hstack : s.stack = [])
    (hforward : t.forward = s.forward) : Aimed t := by
  have hidle := h.idle hstack
  refine ⟨hkept, ?_, ?_⟩
  · intro k hk
    rw [hforward] at hk
    exact absurd (hidle k) hk
  · intro k pid hsend
    rw [hforward, hidle k] at hsend
    simp at hsend

/-- A step that keeps what the handlers have read. Only reaped children leave the table. -/
lemma Aimed.keep (h : Aimed s) (hkept : Kept t) (hforward : t.forward = s.forward)
    (hstack : ∀ k, Signal.key k ∈ s.stack → Signal.key k ∈ t.stack)
    (hpids : ∀ i, (t.table.jobs i).pid = (s.table.jobs i).pid ∨
      s.reap.removal.child = some (s.table.jobs i).pid)
    (hchildren : ∀ c ∈ t.children, ∃ d ∈ s.children, d.pid = c.pid) : Aimed t where
  kept := hkept
  active := by
    rw [hforward]
    exact fun k hk => hstack k (h.active k hk)
  known := by
    intro k pid hsend
    rw [hforward] at hsend
    have hgone : (∀ c ∈ s.children, c.pid ≠ pid) → ∀ c ∈ t.children, c.pid ≠ pid := by
      intro hnone c hc hcpid
      obtain ⟨d, hd, hdpid⟩ := hchildren c hc
      exact hnone d hd (hdpid.trans hcpid)
    rcases h.known k pid hsend with ⟨i, rfl⟩ | hnone
    · exact (hpids i).imp (fun hsame => ⟨i, hsame⟩)
        (fun hremoval => hgone (h.kept.not_child hremoval))
    · exact Or.inr (hgone hnone)

lemma reapStep_keeps {rest : List Signal} (h : Kept s) (hstep : reapStep s rest = some t) :
    t.forward = s.forward ∧ t.children = s.children ∧ (t.stack = s.stack ∨ t.stack = rest) ∧
      ∀ i, (t.table.jobs i).pid = (s.table.jobs i).pid ∨
        s.reap.removal.child = some (s.table.jobs i).pid := by
  have hpids : ∀ i, (t.table.jobs i).pid = (s.table.jobs i).pid ∨
      s.reap.removal.child = some (s.table.jobs i).pid := by
    intro i
    cases reapStep_slot hstep i with
    | unnamed pid hreap hpid hstate =>
      have hclearing : (s.table.jobs i).pid = pid := h.sound.clearing pid i (by
        simp [Shell.roster, hreap, Reap.removal])
      exact Or.inr (by rw [hclearing, hreap]; rfl)
    | _ => exact Or.inl ‹_›
  cases hreap : s.reap with
  | idle | wait => simp [reapStep, hreap] at hstep
  | stopped pid | delete pid =>
    rw [hreap] at hpids
    simp only [reapStep, hreap] at hstep
    split at hstep <;>
    · obtain rfl := Option.some.inj hstep
      exact ⟨rfl, rfl, by simp, hpids⟩
  | _ =>
    rw [hreap] at hpids
    simp only [reapStep, hreap, Option.some.injEq] at hstep
    subst hstep
    exact ⟨rfl, rfl, Or.inl rfl, hpids⟩

lemma Aimed.update {k : Key} {f : Forward} (h : Aimed s) (hkept : Kept t)
    (hforward : t.forward = Function.update s.forward k f) (htable : t.table = s.table)
    (hchildren : t.children = s.children) (hself : f ≠ Forward.idle → Signal.key k ∈ t.stack)
    (hothers : ∀ k', k' ≠ k → Signal.key k' ∈ s.stack → Signal.key k' ∈ t.stack)
    (hread : ∀ pid, f = Forward.send pid → ∃ i, (s.table.jobs i).pid = pid) : Aimed t where
  kept := hkept
  active := by
    intro k' hk'
    rw [hforward] at hk'
    by_cases hkk : k' = k
    · subst hkk
      rw [Function.update_self] at hk'
      exact hself hk'
    · rw [Function.update_of_ne hkk] at hk'
      exact hothers k' hkk (h.active k' hk')
  known := by
    intro k' pid hsend
    rw [hforward] at hsend
    rw [htable, hchildren]
    by_cases hkk : k' = k
    · subst hkk
      rw [Function.update_self] at hsend
      exact Or.inl (hread pid hsend)
    · rw [Function.update_of_ne hkk] at hsend
      exact h.known k' pid hsend

lemma Aimed.forward {k : Key} {rest : List Signal} (h : Aimed s) (hkept : Kept t)
    (hrest : s.stack = Signal.key k :: rest) (hstep : forwardStep s k rest = some t) : Aimed t := by
  have hothers : ∀ k', k' ≠ k → Signal.key k' ∈ s.stack → Signal.key k' ∈ rest := by
    intro k' hne hk'
    rw [hrest] at hk'
    simpa [hne] using hk'
  have hself : Signal.key k ∈ s.stack := by simp [hrest]
  cases hforward : s.forward k with
  | idle => simp [forwardStep, hforward] at hstep
  | search i =>
    simp only [forwardStep, hforward] at hstep
    split at hstep
    · split at hstep <;>
      · obtain rfl := Option.some.inj hstep
        exact h.update hkept rfl rfl rfl (fun _ => hself) (fun _ _ hk' => hk') (by simp)
    · obtain rfl := Option.some.inj hstep
      exact h.update hkept rfl rfl rfl (by simp) hothers (by simp)
  | found i =>
    simp only [forwardStep, hforward] at hstep
    obtain rfl := Option.some.inj hstep
    apply h.update hkept rfl rfl rfl (fun _ => hself) (fun _ _ hk' => hk')
    intro pid hpid
    exact ⟨i, Forward.send.inj hpid⟩
  | send pid =>
    simp only [forwardStep, hforward] at hstep
    split at hstep
    · obtain rfl := Option.some.inj hstep
      exact h.update hkept rfl rfl rfl (by simp) hothers (by simp)
    · obtain rfl := Option.some.inj hstep
      exact h.keep hkept rfl (fun _ hk => hk) (fun _ => Or.inl rfl) (fun c hc => ⟨c, hc, rfl⟩)

lemma Aimed.step {e : Event} (h : Aimed s) (hstep : step s e = some t) : Aimed t := by
  have hkept := h.kept.step hstep
  cases moved_of_step hstep with
  | main hstack hmain => exact h.main hkept hstack (mainStep_handlers hmain).2
  | command c m exited hstack hmain hm => exact h.main hkept hstack rfl
  | fork l pid hstack hmain hpid hnew => exact h.main hkept hstack rfl
  | forkFails l hstack hmain => exact h.main hkept hstack rfl
  | forward k rest hrest hforward => exact h.forward hkept hrest hforward
  | reap rest hrest hreap =>
    obtain ⟨hforward, hchildren, hstack, hpids⟩ := reapStep_keeps h.kept hreap
    refine h.keep hkept hforward ?_ hpids ?_
    · intro k hk
      rcases hstack with hst | hst
      · rwa [hst]
      · rw [hrest] at hk
        rw [hst]
        simpa using hk
    · rw [hchildren]
      exact fun c hc => ⟨c, hc, rfl⟩
  | chld hsig hmasked =>
    exact h.keep hkept rfl (fun _ hk => List.mem_cons_of_mem _ hk) (fun _ => Or.inl rfl)
      (fun c hc => ⟨c, hc, rfl⟩)
  | key k hsig =>
    exact h.update hkept rfl rfl rfl (fun _ => by simp)
      (fun _ _ hk' => List.mem_cons_of_mem _ hk') (by simp)
  | stopped c rest hrest hreap hc =>
    refine h.keep hkept rfl (fun _ hk => hk) (fun _ => Or.inl rfl) ?_
    intro d hd
    obtain ⟨d', hd', rfl⟩ := List.mem_map.mp hd
    refine ⟨d', hd', ?_⟩
    split <;> rfl
  | ended c rest hrest hreap hc =>
    exact h.keep hkept rfl (fun _ hk => hk) (fun _ => Or.inl rfl)
      (fun d hd => ⟨d, List.mem_of_mem_filter hd, rfl⟩)
  | drained rest hrest hreap =>
    refine h.keep hkept rfl ?_ (fun _ => Or.inl rfl) (fun d hd => ⟨d, hd, rfl⟩)
    intro k hk
    rw [hrest] at hk
    simpa using hk
  | child c c' e strays hc hnext =>
    refine h.keep hkept rfl (fun _ hk => hk) (fun _ => Or.inl rfl) ?_
    intro d hd
    obtain ⟨d', hd', rfl⟩ := List.mem_map.mp hd
    refine ⟨d', hd', ?_⟩
    by_cases hpid : d'.pid = c.pid
    · rw [if_pos hpid, hpid]
      exact (congrArg Prod.fst (Child.entry_next hnext)).symm
    · rw [if_neg hpid]
  | leave pid strays =>
    exact h.keep hkept rfl (fun _ hk => hk) (fun _ => Or.inl rfl) (fun c hc => ⟨c, hc, rfl⟩)

lemma aimed_start : Aimed start := ⟨kept_start, by simp [start], by simp [start]⟩

/-- `kill` exits the shell exactly if there is no group to signal. -/
lemma exits_iff (hexited : s.exited = false) (hkills : s.kills pid) :
    ∃ t, step s Event.handler = some t ∧ (t.exited = true ↔ ¬s.hasGroup pid) := by
  obtain ⟨hpid, k, hhead, hsend⟩ := hkills
  obtain ⟨rest, hrest⟩ := List.head?_eq_some_iff.mp hhead
  by_cases hgroup : s.hasGroup pid
  · refine ⟨{ s with forward := Function.update s.forward k Forward.idle, stack := rest }, ?_, ?_⟩
    · simp [step, handlerStep, forwardStep, hexited, hrest, hsend, Shell.canKill, hgroup]
    · simp [hexited, hgroup]
  · refine ⟨{ s with exited := true }, ?_, ?_⟩
    · simp [step, handlerStep, forwardStep, hexited, hrest, hsend, Shell.canKill, hgroup, hpid]
    · simp [hgroup]

/-- Whenever a handler calls `kill`, the group exists. -/
def KillsReach (s : Shell) : Prop := ∀ pid, s.kills pid → s.hasGroup pid

def KillsTimely (s : Shell) : Prop := ∀ pid, s.kills pid → s.timely pid

/-- The groups that the handlers signal exist all along exactly the runs in which every `kill` comes
after the child has called `setpgid` and before the handler for `SIGCHLD` reaps it. -/
theorem killsReach_iff (es : List Event) :
    Along step KillsReach start es ↔ Along step KillsTimely start es := by
  apply along_congr Aimed
  · intro s h
    apply forall_congr'
    intro pid
    apply forall_congr'
    intro hkills
    exact h.hasGroup_iff hkills
  · exact fun s e t h hstep => h.step hstep
  · exact aimed_start

/-- A foreground job, up to the loop of `waitfg`. -/
def foregroundJob : List Event :=
  [Event.command (Command.launch ⟨false, "sleep 9"⟩), Event.main, Event.fork 7] ++
  List.replicate 9 Event.main

instance (s : Shell) (pid : ℤ) : Decidable (s.kills pid) :=
  decidable_of_iff (pid ≠ 0 ∧
    ((s.stack.head? = some (Signal.key Key.int) ∧ s.forward Key.int = Forward.send pid) ∨
      s.stack.head? = some (Signal.key Key.tstp) ∧ s.forward Key.tstp = Forward.send pid)) (by
    apply and_congr_right
    intro _
    constructor
    · rintro (h | h)
      · exact ⟨_, h⟩
      · exact ⟨_, h⟩
    · rintro ⟨k, h⟩
      cases k with
      | int => exact Or.inl h
      | tstp => exact Or.inr h)

/-- The signal comes before the child has called `setpgid`. -/
theorem killsReach_fails : ¬∀ es, Along step KillsReach start es := by
  intro h
  have hrun : ∃ s, run step start
      (foregroundJob ++ [Event.deliver (Signal.key Key.int), Event.handler, Event.handler]) =
        some s ∧
      s.kills 7 ∧ ¬s.hasGroup 7 := by
    have hsome : ((run step start
        (foregroundJob ++ [Event.deliver (Signal.key Key.int), Event.handler,
          Event.handler])).any (fun s => s.kills 7 ∧ ¬s.hasGroup 7)) = true := by
      decide
    simpa [Option.any_eq_true] using hsome
  obtain ⟨s, hs, hkills, hgroup⟩ := hrun
  exact hgroup ((h _).last hs 7 hkills)

/-- The signal comes while the handler for `SIGCHLD` removes the job. -/
example : (run step start (foregroundJob ++ [Event.child 7 ChildEvent.setpgid,
    Event.child 7 ChildEvent.exit, Event.deliver Signal.chld, Event.report 7,
    Event.deliver (Signal.key Key.int), Event.handler, Event.handler, Event.handler])).any (fun s =>
      s.exited) = true := by
  decide

end SystemsLabs.Tsh
