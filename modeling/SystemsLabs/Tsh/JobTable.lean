import SystemsLabs.Tsh.Interleaving
import SystemsLabs.Tsh.Roster

/-!
# The job table under every interleaving

Every statement of the shell is a step of the roster or does not concern it. `SIGCHLD` is
blocked from before `fork` until after `addjob`, so the handler never runs in between.
-/

namespace SystemsLabs.Tsh
open Library

/-- The part of the main program that a statement belongs to. -/
def Main.stage : Main → Stage
  | Main.fork _ => Stage.blocked
  | Main.unblock _ _ => Stage.blocked
  | Main.addCheck _ pid => Stage.searching pid
  | Main.addSearch _ pid _ => Stage.searching pid
  | Main.addPid _ pid i => Stage.storing pid i
  | Main.addState _ pid i => Stage.stored pid i
  | Main.addJid _ pid i => Stage.stored pid i
  | Main.addWrap _ pid i => Stage.stored pid i
  | Main.addCmdline _ pid i => Stage.stored pid i
  | _ => Stage.outside

/-- The part of the handler that a statement belongs to. -/
def Reap.removal : Reap → Removal
  | Reap.idle => Removal.idle
  | Reap.delete pid => Removal.reaped pid
  | Reap.clearPid pid i => Removal.clearing pid i
  | _ => Removal.active

/-- The process ID of a child, and whether it is in the table. -/
def Child.entry (c : Child) : ℤ × Bool := (c.pid, c.added)

/-- The roster that a state of the shell shows. -/
def Shell.roster (s : Shell) : Roster :=
  ⟨fun i => (s.table.jobs i).pid, s.children.map Child.entry, s.main.stage, s.reap.removal⟩

/-- The signal mask and the stack of handlers fit the statements that are next. -/
structure Disciplined (s : Shell) : Prop where
  masked : s.masked = true ↔ s.main.stage ≠ Stage.outside
  active : s.reap = Reap.idle ↔ Signal.chld ∉ s.stack
  nodup : s.stack.Nodup

variable {s t : Shell}

lemma roster_eq (hpids : ∀ i, (t.table.jobs i).pid = (s.table.jobs i).pid)
    (hkids : t.children.map Child.entry = s.children.map Child.entry)
    (hstage : t.main.stage = s.main.stage) (hremoval : t.reap.removal = s.reap.removal) :
    t.roster = s.roster := by
  unfold Shell.roster
  rw [hkids, hstage, hremoval]
  congr 1
  funext i
  exact hpids i

/-- One statement or event, seen by the roster. -/
def Refines (s t : Shell) : Prop := t.roster = s.roster ∨ Roster.Step s.roster t.roster

lemma Disciplined.idle (h : Disciplined s) (hstack : s.stack = []) : s.reap = Reap.idle :=
  h.active.mpr (by simp [hstack])

/-- A step of the main program keeps the discipline if it keeps the mask up to date. -/
lemma Disciplined.main (h : Disciplined s) (hreap : t.reap = s.reap) (hstack : t.stack = s.stack)
    (hmasked : t.masked = true ↔ t.main.stage ≠ Stage.outside) : Disciplined t where
  masked := hmasked
  active := by rw [hreap, hstack, h.active]
  nodup := hstack ▸ h.nodup

lemma Child.entry_continued (pid : ℤ) (c : Child) : (c.continued pid).entry = c.entry := by
  unfold Child.continued
  by_cases h : c.inGroup pid
  · rw [if_pos h, Child.resumed]
    split <;> rfl
  · rw [if_neg h]

lemma map_entry {f : Child → Child} (hf : ∀ c, (f c).entry = c.entry) (l : List Child) :
    (l.map f).map Child.entry = l.map Child.entry := by
  rw [List.map_map]
  apply List.map_congr_left
  intro c _
  exact hf c

lemma Child.entry_tracked (pid : ℤ) (c : Child) : (c.tracked pid).entry = mark pid c.entry := by
  by_cases h : c.pid = pid <;> simp [Child.tracked, mark, Child.entry, h]

lemma map_entry_tracked (pid : ℤ) (l : List Child) :
    (l.map (Child.tracked pid)).map Child.entry = (l.map Child.entry).map (mark pid) := by
  rw [List.map_map, List.map_map]
  apply List.map_congr_left
  intro c _
  exact c.entry_tracked pid

/-- An assignment to another field keeps the process IDs. -/
lemma pid_modify (table : Table) (i j : Fin maxJobs) (f : Job → Job)
    (hf : (f (table.jobs i)).pid = (table.jobs i).pid) :
    ((table.modify i f).jobs j).pid = (table.jobs j).pid :=
  Table.modify_field Job.pid hf

/-- What a statement of the handler for `SIGCHLD` does to the process ID and the state of a slot. -/
inductive SlotChange (s t : Shell) (j : Fin maxJobs) : Prop
  | stopped (hreap : s.reap = Reap.setStopped j)
      (hpid : (t.table.jobs j).pid = (s.table.jobs j).pid)
      (hstate : (t.table.jobs j).state = JobState.st)
  | unnamed (pid : ℤ) (hreap : s.reap = Reap.clearPid pid j) (hpid : (t.table.jobs j).pid = 0)
      (hstate : (t.table.jobs j).state = (s.table.jobs j).state)
  | undefined (hreap : s.reap = Reap.clearState j)
      (hpid : (t.table.jobs j).pid = (s.table.jobs j).pid)
      (hstate : (t.table.jobs j).state = JobState.undef)
  | same (hreap : ∀ pid, s.reap ≠ Reap.setStopped j ∧ s.reap ≠ Reap.clearPid pid j ∧
        s.reap ≠ Reap.clearState j)
      (hpid : (t.table.jobs j).pid = (s.table.jobs j).pid)
      (hstate : (t.table.jobs j).state = (s.table.jobs j).state)

lemma reapStep_slot {rest : List Signal} (hstep : reapStep s rest = some t) (j : Fin maxJobs) :
    SlotChange s t j := by
  cases hreap : s.reap with
  | idle | wait => simp [reapStep, hreap] at hstep
  | stopped pid | delete pid =>
    simp only [reapStep, hreap] at hstep
    split at hstep <;>
    · obtain rfl := Option.some.inj hstep
      exact SlotChange.same (by simp [hreap]) rfl rfl
  | setStopped i =>
    simp only [reapStep, hreap, Option.some.injEq] at hstep
    subst hstep
    by_cases hji : j = i
    · subst hji
      exact SlotChange.stopped hreap (by simp) (by simp)
    · refine SlotChange.same (by simp [hreap, Ne.symm hji]) ?_ ?_ <;> rw [Table.modify_of_ne hji]
  | clearPid pid i =>
    simp only [reapStep, hreap, Option.some.injEq] at hstep
    subst hstep
    by_cases hji : j = i
    · subst hji
      exact SlotChange.unnamed pid hreap (by simp) (by simp)
    · refine SlotChange.same (by simp [hreap, Ne.symm hji]) ?_ ?_ <;> rw [Table.modify_of_ne hji]
  | clearState i =>
    simp only [reapStep, hreap, Option.some.injEq] at hstep
    subst hstep
    by_cases hji : j = i
    · subst hji
      exact SlotChange.undefined hreap (by simp) (by simp)
    · refine SlotChange.same (by simp [hreap, Ne.symm hji]) ?_ ?_ <;> rw [Table.modify_of_ne hji]
  | clearJid i | clearCmdline i =>
    simp only [reapStep, hreap, Option.some.injEq] at hstep
    subst hstep
    refine SlotChange.same (by simp [hreap]) ?_ ?_ <;> dsimp only
    · exact pid_modify _ i j _ rfl
    · exact Table.modify_field Job.state rfl
  | renumber =>
    simp only [reapStep, hreap, Option.some.injEq] at hstep
    subst hstep
    exact SlotChange.same (by simp [hreap]) rfl rfl

/-- The handler only clears process IDs. -/
lemma reapStep_pid {rest : List Signal} (hstep : reapStep s rest = some t) (j : Fin maxJobs) :
    (t.table.jobs j).pid = (s.table.jobs j).pid ∨ (t.table.jobs j).pid = 0 := by
  cases reapStep_slot hstep j with
  | unnamed pid hreap hpid hstate => exact Or.inr hpid
  | _ => exact Or.inl ‹_›

lemma pids_update {i : Fin maxJobs} {pid : ℤ} {table : Table} :
    (fun j => ((table.modify i (fun job => { job with pid := pid })).jobs j).pid) =
      Function.update (fun j => (table.jobs j).pid) i pid := by
  funext j
  by_cases hj : j = i
  · subst hj
    simp
  · rw [Table.modify_of_ne hj, Function.update_of_ne hj]

/-- A step that the roster does not see. -/
lemma silent (h : Disciplined s) (hpids : ∀ i, (t.table.jobs i).pid = (s.table.jobs i).pid)
    (hkids : t.children.map Child.entry = s.children.map Child.entry)
    (hstage : t.main.stage = s.main.stage) (hreap : t.reap = s.reap) (hstack : t.stack = s.stack)
    (hmasked : t.masked = s.masked) : Disciplined t ∧ Refines s t := by
  refine ⟨h.main hreap hstack (by rw [hmasked, hstage, h.masked]), Or.inl ?_⟩
  exact roster_eq hpids hkids hstage (by rw [hreap])

/-- The main program follows the roster. -/
lemma main_refines (h : Disciplined s) (hstack : s.stack = []) (hstep : mainStep s = some t) :
    Disciplined t ∧ Refines s t := by
  have hidle := h.idle hstack
  have hm := h.masked
  cases hmain : s.main with
  | prompt => simp [mainStep, hmain] at hstep
  | fork l => simp [mainStep, hmain] at hstep
  | block l =>
    simp only [mainStep, hmain, Option.some.injEq] at hstep
    subst hstep
    refine ⟨h.main rfl rfl (by simp [Main.stage]), Or.inr ?_⟩
    exact Roster.Step.block (by simp [Shell.roster, hmain, Main.stage])
      (by simp [Shell.roster, hidle, Reap.removal])
  | addCheck l pid =>
    simp only [mainStep, hmain, Option.some.injEq] at hstep
    subst hstep
    have hmasked := hm.mpr (by simp [hmain, Main.stage])
    by_cases hpid : pid < 1
    · simp only [if_pos hpid]
      refine ⟨h.main rfl rfl (by simp [hmasked, Main.stage]), Or.inr ?_⟩
      exact Roster.Step.refuse pid (by simp [Shell.roster, hmain, Main.stage])
    · simp only [if_neg hpid]
      exact silent h (fun _ => rfl) rfl (by simp [hmain, Main.stage]) rfl rfl rfl
  | addSearch l pid i =>
    simp only [mainStep, hmain, Option.some.injEq] at hstep
    subst hstep
    have hmasked := hm.mpr (by simp [hmain, Main.stage])
    by_cases hi : i < maxJobs
    · by_cases hfree : (s.table.jobs ⟨i, hi⟩).pid = 0
      · simp only [dif_pos hi, if_pos hfree]
        refine ⟨h.main rfl rfl (by simp [hmasked, Main.stage]), Or.inr ?_⟩
        exact Roster.Step.find pid ⟨i, hi⟩ (by simp [Shell.roster, hmain, Main.stage]) hfree
      · simp only [dif_pos hi, if_neg hfree]
        exact silent h (fun _ => rfl) rfl (by simp [hmain, Main.stage]) rfl rfl rfl
    · simp only [dif_neg hi]
      refine ⟨h.main rfl rfl (by simp [hmasked, Main.stage]), Or.inr ?_⟩
      exact Roster.Step.refuse pid (by simp [Shell.roster, hmain, Main.stage])
  | addPid l pid i =>
    simp only [mainStep, hmain, Option.some.injEq] at hstep
    subst hstep
    have hmasked := hm.mpr (by simp [hmain, Main.stage])
    refine ⟨h.main rfl rfl (by simp [hmasked, Main.stage]), Or.inr ?_⟩
    have := Roster.Step.store (r := s.roster) pid i (by simp [Shell.roster, hmain, Main.stage])
    simpa [Shell.roster, pids_update, Main.stage] using this
  | addState l pid i =>
    simp only [mainStep, hmain, Option.some.injEq] at hstep
    subst hstep
    refine silent h ?_ rfl (by simp [hmain, Main.stage]) rfl rfl rfl
    intro j
    dsimp only
    exact pid_modify _ i j _ rfl
  | addJid l pid i =>
    simp only [mainStep, hmain, Option.some.injEq] at hstep
    subst hstep
    refine silent h ?_ rfl (by simp [hmain, Main.stage]) rfl rfl rfl
    intro j
    dsimp only
    exact pid_modify _ i j _ rfl
  | addWrap l pid i =>
    simp only [mainStep, hmain, Option.some.injEq] at hstep
    subst hstep
    exact silent h (fun _ => rfl) rfl (by simp [hmain, Main.stage]) rfl rfl rfl
  | addCmdline l pid i =>
    simp only [mainStep, hmain, Option.some.injEq] at hstep
    subst hstep
    have hmasked := hm.mpr (by simp [hmain, Main.stage])
    refine ⟨h.main rfl rfl (by simp [hmasked, Main.stage]), Or.inr ?_⟩
    have henter := Roster.Step.enter (r := s.roster) pid i (by simp [Shell.roster, hmain, Main.stage])
    have hpids : (fun j => ((s.table.modify i (fun job => { job with cmdline := l.cmdline })).jobs
        j).pid) = s.roster.pids := by
      funext j
      exact pid_modify _ i j _ rfl
    simpa only [Shell.roster, hpids, map_entry_tracked, Main.stage] using henter
  | unblock l pid =>
    simp only [mainStep, hmain, Option.some.injEq] at hstep
    subst hstep
    have hstage : (if l.background = true then Main.prompt else Main.waitSearch pid 0).stage =
        Stage.outside := by
      split <;> rfl
    refine ⟨h.main rfl rfl (by simp [hstage]), Or.inr ?_⟩
    have hunblock := Roster.Step.unblock (r := s.roster) (by simp [Shell.roster, hmain, Main.stage])
    simpa only [Shell.roster, hstage] using hunblock
  | waitSearch pid i =>
    simp only [mainStep, hmain, Option.some.injEq] at hstep
    subst hstep
    refine silent h (fun _ => rfl) rfl ?_ rfl rfl rfl
    rw [hmain]
    dsimp only
    split
    · rfl
    · split
      · split <;> rfl
      · rfl
  | waiting i =>
    simp only [mainStep, hmain, Option.some.injEq] at hstep
    subst hstep
    refine silent h (fun _ => rfl) rfl ?_ rfl rfl rfl
    rw [hmain]
    dsimp only
    split <;> rfl
  | find fg target i =>
    simp only [mainStep, hmain, Option.some.injEq] at hstep
    subst hstep
    refine silent h (fun _ => rfl) rfl ?_ rfl rfl rfl
    rw [hmain]
    dsimp only
    split
    · rfl
    · split
      · split <;> rfl
      · rfl
  | readPid fg i =>
    simp only [mainStep, hmain, Option.some.injEq] at hstep
    subst hstep
    exact silent h (fun _ => rfl) rfl (by simp [hmain, Main.stage]) rfl rfl rfl
  | sendCont fg i pid =>
    simp only [mainStep, hmain] at hstep
    by_cases hkill : s.canKill pid
    · rw [if_pos hkill] at hstep
      obtain rfl := Option.some.inj hstep
      exact silent h (fun _ => rfl) (map_entry (Child.entry_continued pid) _)
        (by simp [hmain, Main.stage]) rfl rfl rfl
    · rw [if_neg hkill] at hstep
      obtain rfl := Option.some.inj hstep
      exact silent h (fun _ => rfl) rfl (by rw [hmain]) rfl rfl rfl
  | setState fg i pid =>
    simp only [mainStep, hmain, Option.some.injEq] at hstep
    subst hstep
    refine silent h ?_ rfl ?_ rfl rfl rfl
    · intro j
      dsimp only
      exact pid_modify _ i j _ rfl
    · rw [hmain]
      dsimp only
      split <;> rfl
  | listTest i =>
    simp only [mainStep, hmain, Option.some.injEq] at hstep
    subst hstep
    refine silent h (fun _ => rfl) rfl ?_ rfl rfl rfl
    rw [hmain]
    dsimp only
    split
    · split <;> rfl
    · rfl
  | listState i =>
    simp only [mainStep, hmain, Option.some.injEq] at hstep
    subst hstep
    refine silent h (fun _ => rfl) rfl ?_ rfl rfl rfl
    rw [hmain]
    dsimp only
    split <;> rfl
  | listIds i | listError i | listCmdline i =>
    simp only [mainStep, hmain, Option.some.injEq] at hstep
    subst hstep
    exact silent h (fun _ => rfl) rfl (by simp [hmain, Main.stage]) rfl rfl rfl

/-- A step of the running handler keeps the discipline. -/
lemma Disciplined.reap (h : Disciplined s) (hmain : t.main = s.main) (hmasked : t.masked = s.masked)
    (hstack : t.stack = s.stack) (hs : s.reap ≠ Reap.idle) (ht : t.reap ≠ Reap.idle) :
    Disciplined t where
  masked := by rw [hmasked, hmain, h.masked]
  active := by
    rw [hstack, ← h.active]
    exact iff_of_false ht hs
  nodup := hstack ▸ h.nodup

lemma Disciplined.handlerReturns {rest : List Signal} (h : Disciplined s)
    (hrest : s.stack = Signal.chld :: rest) (hmain : t.main = s.main)
    (hmasked : t.masked = s.masked) (hstack : t.stack = rest) (ht : t.reap = Reap.idle) :
    Disciplined t := by
  have hnodup := h.nodup
  rw [hrest, List.nodup_cons] at hnodup
  constructor
  · rw [hmasked, hmain, h.masked]
  · rw [hstack]
    exact iff_of_true ht hnodup.1
  · rw [hstack]
    exact hnodup.2

lemma silent_reap (h : Disciplined s) (hpids : ∀ i, (t.table.jobs i).pid = (s.table.jobs i).pid)
    (hkids : t.children.map Child.entry = s.children.map Child.entry) (hmain : t.main = s.main)
    (hmasked : t.masked = s.masked) (hstack : t.stack = s.stack)
    (hs : s.reap.removal = Removal.active) (ht : t.reap.removal = Removal.active) :
    Disciplined t ∧ Refines s t := by
  have hne : ∀ {r : Reap}, r.removal = Removal.active → r ≠ Reap.idle := by
    rintro r hr rfl
    simp [Reap.removal] at hr
  refine ⟨h.reap hmain hmasked hstack (hne hs) (hne ht), Or.inl ?_⟩
  exact roster_eq hpids hkids (by rw [hmain]) (by rw [hs, ht])

/-- An assignment to a field of a slot other than its process ID. -/
lemma silent_assign (h : Disciplined s) (i : Fin maxJobs) (f : Job → Job)
    (hf : (f (s.table.jobs i)).pid = (s.table.jobs i).pid) (htable : t.table = s.table.modify i f)
    (hkids : t.children = s.children) (hmain : t.main = s.main) (hmasked : t.masked = s.masked)
    (hstack : t.stack = s.stack) (hs : s.reap.removal = Removal.active)
    (ht : t.reap.removal = Removal.active) : Disciplined t ∧ Refines s t := by
  refine silent_reap h ?_ (congrArg _ hkids) hmain hmasked hstack hs ht
  intro j
  rw [htable]
  exact pid_modify _ i j f hf

/-- The handler for `SIGCHLD` follows the roster. -/
lemma reap_refines {rest : List Signal} (h : Disciplined s) (hrest : s.stack = Signal.chld :: rest)
    (hstep : reapStep s rest = some t) : Disciplined t ∧ Refines s t := by
  cases hreap : s.reap with
  | idle => simp [reapStep, hreap] at hstep
  | wait => simp [reapStep, hreap] at hstep
  | stopped pid =>
    simp only [reapStep, hreap] at hstep
    cases hget : getjobpid s.table pid with
    | some i =>
      simp only [hget, Option.some.injEq] at hstep
      subst hstep
      exact silent_reap h (fun _ => rfl) rfl rfl rfl rfl (by simp [hreap, Reap.removal]) rfl
    | none =>
      simp only [hget, Option.some.injEq] at hstep
      subst hstep
      refine ⟨h.handlerReturns hrest rfl rfl rfl rfl, Or.inr ?_⟩
      exact Roster.Step.finish (by simp [Shell.roster, hreap, Reap.removal])
  | setStopped i =>
    simp only [reapStep, hreap, Option.some.injEq] at hstep
    subst hstep
    exact silent_assign h i (fun job => { job with state := JobState.st }) rfl rfl rfl rfl rfl rfl
      (by simp [hreap, Reap.removal]) rfl
  | delete pid =>
    simp only [reapStep, hreap] at hstep
    cases hget : getjobpid s.table pid with
    | some i =>
      simp only [hget, Option.some.injEq] at hstep
      subst hstep
      refine ⟨h.reap rfl rfl rfl (by simp [hreap]) (by simp), Or.inr ?_⟩
      exact Roster.Step.locate pid i (by simp [Shell.roster, hreap, Reap.removal])
        (getjobpid_eq_some hget).2
    | none =>
      simp only [hget, Option.some.injEq] at hstep
      subst hstep
      refine ⟨h.reap rfl rfl rfl (by simp [hreap]) (by simp), Or.inr ?_⟩
      exact Roster.Step.unknown pid (by simp [Shell.roster, hreap, Reap.removal])
        (fun hpos i => getjobpid_eq_none hpos hget i)
  | clearPid pid i =>
    simp only [reapStep, hreap, Option.some.injEq] at hstep
    subst hstep
    refine ⟨h.reap rfl rfl rfl (by simp [hreap]) (by simp), Or.inr ?_⟩
    have hclear := Roster.Step.clear (r := s.roster) pid i
      (by simp [Shell.roster, hreap, Reap.removal])
    simpa [Shell.roster, pids_update, Reap.removal] using hclear
  | clearJid i =>
    simp only [reapStep, hreap, Option.some.injEq] at hstep
    subst hstep
    exact silent_assign h i (fun job => { job with jid := 0 }) rfl rfl rfl rfl rfl rfl
      (by simp [hreap, Reap.removal]) rfl
  | clearState i =>
    simp only [reapStep, hreap, Option.some.injEq] at hstep
    subst hstep
    exact silent_assign h i (fun job => { job with state := JobState.undef }) rfl rfl rfl rfl rfl rfl
      (by simp [hreap, Reap.removal]) rfl
  | clearCmdline i =>
    simp only [reapStep, hreap, Option.some.injEq] at hstep
    subst hstep
    exact silent_assign h i (fun job => { job with cmdline := "" }) rfl rfl rfl rfl rfl rfl
      (by simp [hreap, Reap.removal]) rfl
  | renumber =>
    simp only [reapStep, hreap, Option.some.injEq] at hstep
    subst hstep
    exact silent_reap h (fun _ => rfl) rfl rfl rfl rfl (by simp [hreap, Reap.removal]) rfl

/-- A handler for a keyboard signal returns. -/
lemma Disciplined.keyReturns {k : Key} {rest : List Signal} (h : Disciplined s)
    (hrest : s.stack = Signal.key k :: rest) (hmain : t.main = s.main)
    (hmasked : t.masked = s.masked) (hstack : t.stack = rest) (hreap : t.reap = s.reap) :
    Disciplined t := by
  have hnodup := h.nodup
  rw [hrest, List.nodup_cons] at hnodup
  constructor
  · rw [hmasked, hmain, h.masked]
  · rw [hstack, hreap, h.active, hrest]
    simp
  · rw [hstack]
    exact hnodup.2

/-- The handlers for the keyboard signals only read the table. -/
lemma forward_refines {k : Key} {rest : List Signal} (h : Disciplined s)
    (hrest : s.stack = Signal.key k :: rest) (hstep : forwardStep s k rest = some t) :
    Disciplined t ∧ Refines s t := by
  have hreturn : ∀ f, Disciplined { s with forward := f, stack := rest } ∧
      Refines s { s with forward := f, stack := rest } := fun f =>
    ⟨h.keyReturns hrest rfl rfl rfl rfl, Or.inl rfl⟩
  cases hforward : s.forward k with
  | idle => simp [forwardStep, hforward] at hstep
  | search i =>
    simp only [forwardStep, hforward] at hstep
    by_cases hi : i < maxJobs
    · by_cases hfg : (s.table.jobs ⟨i, hi⟩).state = JobState.fg
      · rw [dif_pos hi, if_pos hfg] at hstep
        obtain rfl := Option.some.inj hstep
        exact silent h (fun _ => rfl) rfl rfl rfl rfl rfl
      · rw [dif_pos hi, if_neg hfg] at hstep
        obtain rfl := Option.some.inj hstep
        exact silent h (fun _ => rfl) rfl rfl rfl rfl rfl
    · rw [dif_neg hi] at hstep
      obtain rfl := Option.some.inj hstep
      exact hreturn _
  | found i =>
    simp only [forwardStep, hforward] at hstep
    obtain rfl := Option.some.inj hstep
    exact silent h (fun _ => rfl) rfl rfl rfl rfl rfl
  | send pid =>
    simp only [forwardStep, hforward] at hstep
    by_cases hkill : s.canKill pid
    · rw [if_pos hkill] at hstep
      obtain rfl := Option.some.inj hstep
      exact hreturn _
    · rw [if_neg hkill] at hstep
      obtain rfl := Option.some.inj hstep
      exact silent h (fun _ => rfl) rfl rfl rfl rfl rfl

/-- The handler reaps a child. -/
lemma reaped_refines {c : Child} (h : Disciplined s) (hreap : s.reap = Reap.wait)
    (hc : c ∈ s.children) (ht : t = { s with
      children := s.children.filter (fun d => d.pid ≠ c.pid)
      reap := Reap.delete c.pid }) : Disciplined t ∧ Refines s t := by
  subst ht
  refine ⟨h.reap rfl rfl rfl (by simp [hreap]) (by simp), Or.inr ?_⟩
  have hstep := Roster.Step.reap (r := s.roster) c.pid (by simp [Shell.roster, hreap, Reap.removal])
    ⟨c.entry, List.mem_map_of_mem hc, rfl⟩
  have hkids : (s.children.filter (fun d => d.pid ≠ c.pid)).map Child.entry =
      (s.children.map Child.entry).filter (fun k => k.1 ≠ c.pid) := by
    rw [List.filter_map]
    rfl
  simpa only [Shell.roster, hkids, Reap.removal] using hstep

lemma Child.entry_next {c c' : Child} {e : ChildEvent} (h : c.next e = some c') :
    c'.entry = c.entry := by
  unfold Child.next at h
  cases e with
  | setpgid | stop | exit | spawn =>
    dsimp only at h
    split at h
    · obtain rfl := Option.some.inj h
      rfl
    · simp at h
  | cont | kill =>
    dsimp only at h
    split at h <;> first | (obtain rfl := Option.some.inj h; rfl) | simp at h

/-- An event of one child. -/
lemma map_entry_next {c c' : Child} {e : ChildEvent} (hsound : s.roster.Sound)
    (hc : c ∈ s.children) (hnext : c.next e = some c') :
    (s.children.map (fun d => if d.pid = c.pid then c' else d)).map Child.entry =
      s.children.map Child.entry := by
  rw [List.map_map]
  apply List.map_congr_left
  intro d hd
  by_cases hpid : d.pid = c.pid
  · have hsame : d.entry = c.entry :=
      List.inj_on_of_nodup_map hsound.nodup (List.mem_map_of_mem hd) (List.mem_map_of_mem hc) hpid
    simp [hpid, Child.entry_next hnext, hsame]
  · simp [hpid]

/-- Every step keeps the discipline and follows the roster. -/
lemma step_refines {e : Event} (h : Disciplined s) (hsound : s.roster.Sound)
    (hstep : step s e = some t) : Disciplined t ∧ Refines s t := by
  cases moved_of_step hstep with
  | main hstack hmain => exact main_refines h hstack hmain
  | reap rest hrest hreap => exact reap_refines h hrest hreap
  | forward k rest hrest hforward => exact forward_refines h hrest hforward
  | command c m exited hstack hmain hm =>
    refine silent h (fun _ => rfl) rfl ?_ rfl rfl rfl
    rw [hmain]
    rcases hm with rfl | rfl | ⟨fg, target, rfl⟩ | ⟨l, rfl⟩ <;> rfl
  | fork l pid hstack hmain hpid hnew =>
    have hmasked := h.masked.mpr (by simp [hmain, Main.stage])
    refine ⟨h.main rfl rfl (by simp [hmasked, Main.stage]), Or.inr ?_⟩
    refine Roster.Step.fork (r := s.roster) pid (by simp [Shell.roster, hmain, Main.stage]) hpid ?_
    intro k hk
    obtain ⟨c, hc, rfl⟩ := List.mem_map.mp hk
    exact hnew c hc
  | forkFails l hstack hmain => exact silent h (fun _ => rfl) rfl rfl rfl rfl rfl
  | chld hsig hmasked =>
    have hidle := h.active.mpr hsig
    have hout : s.main.stage = Stage.outside := by
      by_contra hne
      rw [h.masked.mpr hne] at hmasked
      simp at hmasked
    refine ⟨⟨h.masked, by simp, List.nodup_cons.mpr ⟨hsig, h.nodup⟩⟩, Or.inr ?_⟩
    exact Roster.Step.start hout (by simp [Shell.roster, hidle, Reap.removal])
  | key k hsig =>
    refine ⟨⟨h.masked, ?_, List.nodup_cons.mpr ⟨hsig, h.nodup⟩⟩, Or.inl rfl⟩
    simpa using h.active
  | stopped c rest hrest hreap hc =>
    refine silent_reap h (fun _ => rfl) (map_entry ?_ _) rfl rfl rfl (by simp [hreap, Reap.removal])
      rfl
    intro d
    split <;> rfl
  | ended c rest hrest hreap hc => exact reaped_refines h hreap hc rfl
  | drained rest hrest hreap =>
    refine ⟨h.handlerReturns hrest rfl rfl rfl rfl, Or.inr ?_⟩
    exact Roster.Step.finish (by simp [Shell.roster, hreap, Reap.removal])
  | child c c' e strays hc hnext =>
    exact silent h (fun _ => rfl) (map_entry_next hsound hc hnext) rfl rfl rfl rfl
  | leave pid strays => exact silent h (fun _ => rfl) rfl rfl rfl rfl rfl

/-- What holds of the table in every reachable state. -/
structure Kept (s : Shell) : Prop where
  disciplined : Disciplined s
  sound : s.roster.Sound

lemma kept_start : Kept start where
  disciplined := ⟨by decide, by decide, List.nodup_nil⟩
  sound :=
    { exclusive := Or.inl rfl
      nodup := List.nodup_nil
      positive := by simp [Shell.roster, start]
      unique := by simp [Shell.roster, start, initjobs, clearjob]
      listed := by simp [Shell.roster, start, initjobs, clearjob]
      marked := by simp [Shell.roster, start]
      waiting := by simp [Shell.roster, start, Main.stage, Stage.child]
      storing := by simp [Shell.roster, start, Main.stage]
      stored := by simp [Shell.roster, start, Main.stage]
      reaped := by simp [Shell.roster, start, Reap.removal, Removal.child]
      clearing := by simp [Shell.roster, start, Reap.removal] }

lemma Kept.step {e : Event} (h : Kept s) (hstep : step s e = some t) : Kept t := by
  obtain ⟨hdisciplined, hrefines⟩ := step_refines h.disciplined h.sound hstep
  refine ⟨hdisciplined, ?_⟩
  rcases hrefines with heq | hroster
  · rw [heq]
    exact h.sound
  · exact h.sound.step hroster

/-- Any order of the events. -/
def anyEvent (_ : Shell) (_ : Event) : Prop := True

lemma kept_of_reaches {cond : Shell → Event → Prop} (h : Reaches step cond start s) : Kept s :=
  h.invariant Kept kept_start (fun _ _ _ hk _ hstep => hk.step hstep)

/-- `addjob` returned 1 for an unreaped child. -/
def Shell.tracks (s : Shell) (pid : ℤ) : Prop := ∃ c ∈ s.children, c.pid = pid ∧ c.added = true

/-- `addjob` has stored the process ID and not returned, or the child is reaped and `deletejob` has
not cleared its process ID. -/
def Shell.underway (s : Shell) (pid : ℤ) : Prop :=
  (∃ i, s.main.stage = Stage.stored pid i) ∨ s.reap.removal.child = some pid

/-- The table lists the unreaped children for which `addjob` returned 1, each in one slot. A child
is not reaped before `addjob` returns for it, and the handler does not run between blocking and
unblocking the signals. -/
structure Exact (s : Shell) : Prop where
  listed : ∀ pid, pid ≠ 0 → ¬s.underway pid →
    ((∃ i, (s.table.jobs i).pid = pid) ↔ s.tracks pid)
  once : ∀ i j, (s.table.jobs i).pid ≠ 0 → (s.table.jobs i).pid = (s.table.jobs j).pid → i = j
  unreaped : ∀ pid, s.main.stage.child = some pid → ∃ c ∈ s.children, c.pid = pid ∧ c.added = false
  apart : s.main.stage = Stage.outside ∨ s.reap = Reap.idle

lemma tracks_iff {pid : ℤ} : s.tracks pid ↔ (pid, true) ∈ s.roster.kids := by
  simp only [Shell.tracks, Shell.roster, List.mem_map, Child.entry, Prod.mk.injEq]

lemma Kept.exact (h : Kept s) : Exact s := by
  have hsound := h.sound
  constructor
  case listed =>
    intro pid hpid hunder
    rw [tracks_iff]
    constructor
    · rintro ⟨i, rfl⟩
      rcases hsound.listed i hpid with hmarked | hstored | hreaped | hclearing
      · exact hmarked
      · exact absurd (Or.inl ⟨i, hstored⟩) hunder
      · have hchild := congrArg Removal.child hreaped
        exact absurd (Or.inr hchild) hunder
      · have hchild := congrArg Removal.child hclearing
        exact absurd (Or.inr hchild) hunder
    · exact hsound.marked pid
  case once => exact hsound.unique
  case unreaped =>
    intro pid hpid
    obtain ⟨c, hc, hentry⟩ := List.mem_map.mp (hsound.waiting pid hpid)
    obtain ⟨rfl, hadded⟩ := Prod.mk.inj hentry
    exact ⟨c, hc, rfl, hadded⟩
  case apart =>
    apply hsound.exclusive.imp_right
    intro hidle
    cases hreap : s.reap with
    | idle => rfl
    | _ => simp [Shell.roster, hreap, Reap.removal] at hidle

/-- The table is exact in every reachable state. -/
theorem exact_of_reaches (h : Reaches step anyEvent start s) : Exact s := (kept_of_reaches h).exact

/-- A background job ends before `addjob` returns for it. -/
def backgroundJob : List Event :=
  [Event.command (Command.launch ⟨true, "ls &"⟩), Event.main, Event.fork 7,
    Event.child 7 ChildEvent.setpgid, Event.child 7 ChildEvent.exit] ++
  List.replicate 8 Event.main ++
  [Event.deliver Signal.chld, Event.report 7, Event.handler, Event.handler]

theorem exact_backgroundJob : ∃ s, run step start backgroundJob = some s ∧ Exact s := by
  have hrun : (run step start backgroundJob).isSome := by decide
  obtain ⟨s, hs⟩ := Option.isSome_iff_exists.mp hrun
  exact ⟨s, hs, exact_of_reaches (reaches_of_run (fun _ _ _ => trivial) hs)⟩

end SystemsLabs.Tsh
