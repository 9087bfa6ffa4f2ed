import Mathlib.Data.Fintype.Basic
import Mathlib.Tactic

/-!
# The job table

The shell keeps its jobs in an array of `MAXJOBS` slots. A slot with the process ID zero is
free. The searches return the first slot that matches.
-/

namespace SystemsLabs.Tsh

/-- `MAXJOBS` -/
abbrev maxJobs : ℕ := 16

inductive JobState
  | undef
  | fg
  | bg
  | st
deriving DecidableEq, Repr

structure Job where
  pid : ℤ
  jid : ℤ
  state : JobState
  cmdline : String
deriving DecidableEq, Repr

/-- The array `jobs` and the counter `nextjid`. -/
structure Table where
  jobs : Fin maxJobs → Job
  nextjid : ℤ

def clearjob : Job := ⟨0, 0, JobState.undef, ""⟩

/-- The table at the start of the shell. -/
def initjobs : Table := ⟨fun _ => clearjob, 1⟩

/-- An assignment to fields of one slot. -/
def Table.modify (t : Table) (i : Fin maxJobs) (f : Job → Job) : Table :=
  { t with jobs := Function.update t.jobs i (f (t.jobs i)) }

def maxjid (t : Table) : ℤ :=
  (List.finRange maxJobs).foldl (fun max i => if (t.jobs i).jid > max then (t.jobs i).jid else max) 0

def getjobpid (t : Table) (pid : ℤ) : Option (Fin maxJobs) :=
  if pid < 1 then none else (List.finRange maxJobs).find? (fun i => (t.jobs i).pid = pid)

def getjobjid (t : Table) (jid : ℤ) : Option (Fin maxJobs) :=
  if jid < 1 then none else (List.finRange maxJobs).find? (fun i => (t.jobs i).jid = jid)

/-- The return value says whether there was a free slot. -/
def addjob (t : Table) (pid : ℤ) (state : JobState) (cmdline : String) : Bool × Table :=
  if pid < 1 then (false, t)
  else
    match (List.finRange maxJobs).find? (fun i => (t.jobs i).pid = 0) with
    | some i =>
      (true,
        { t.modify i (fun _ => ⟨pid, t.nextjid, state, cmdline⟩) with
          nextjid := if t.nextjid + 1 > maxJobs then 1 else t.nextjid + 1 })
    | none => (false, t)

/-- The return value says whether the job was in the table. -/
def deletejob (t : Table) (pid : ℤ) : Bool × Table :=
  if pid < 1 then (false, t)
  else
    match (List.finRange maxJobs).find? (fun i => (t.jobs i).pid = pid) with
    | some i =>
      (true,
        { t.modify i (fun _ => clearjob) with
          nextjid := maxjid (t.modify i (fun _ => clearjob)) + 1 })
    | none => (false, t)

/-- The process ID of the first slot in state `FG`, zero if there is none. -/
def fgpid (t : Table) : ℤ :=
  match (List.finRange maxJobs).find? (fun i => (t.jobs i).state = JobState.fg) with
  | some i => (t.jobs i).pid
  | none => 0

variable {t : Table} {i j : Fin maxJobs} {f : Job → Job} {pid : ℤ} {state : JobState}
  {cmdline : String}

@[simp] lemma Table.modify_self : (t.modify i f).jobs i = f (t.jobs i) := by simp [Table.modify]

lemma Table.modify_of_ne (h : j ≠ i) : (t.modify i f).jobs j = t.jobs j := by
  simp [Table.modify, h]

@[simp] lemma Table.modify_nextjid : (t.modify i f).nextjid = t.nextjid := rfl

/-- A field that an assignment does not touch keeps its value in every slot. -/
lemma Table.modify_field {β : Type*} (g : Job → β) (h : g (f (t.jobs i)) = g (t.jobs i)) :
    g ((t.modify i f).jobs j) = g (t.jobs j) := by
  by_cases hj : j = i
  · subst hj
    rw [Table.modify_self, h]
  · rw [Table.modify_of_ne hj]

lemma getjobpid_eq_some (h : getjobpid t pid = some i) : 1 ≤ pid ∧ (t.jobs i).pid = pid := by
  unfold getjobpid at h
  by_cases hpid : pid < 1
  · simp [hpid] at h
  · rw [if_neg hpid] at h
    have := List.find?_some h
    exact ⟨by omega, by simpa using this⟩

lemma getjobpid_eq_none (hpid : 1 ≤ pid) (h : getjobpid t pid = none) (i : Fin maxJobs) :
    (t.jobs i).pid ≠ pid := by
  rw [getjobpid, if_neg (by omega), List.find?_eq_none] at h
  simpa using h i (List.mem_finRange i)

/-- With one foreground job `fgpid` returns its process ID. -/
lemma fgpid_eq (hi : (t.jobs i).state = JobState.fg)
    (hunique : ∀ j, (t.jobs j).state = JobState.fg → j = i) : fgpid t = (t.jobs i).pid := by
  unfold fgpid
  cases h : (List.finRange maxJobs).find? (fun i => (t.jobs i).state = JobState.fg) with
  | none =>
    rw [List.find?_eq_none] at h
    exact absurd (by simpa using hi) (h i (List.mem_finRange i))
  | some j =>
    have hj := List.find?_some h
    rw [hunique j (by simpa using hj)]

/-- What a search over the slots finds. -/
lemma find_slot {p : Fin maxJobs → Prop} [DecidablePred p]
    (h : (List.finRange maxJobs).find? (fun i => p i) = some i) : p i := by
  simpa using List.find?_some h

lemma find_no_slot {p : Fin maxJobs → Prop} [DecidablePred p]
    (h : (List.finRange maxJobs).find? (fun i => p i) = none) (i : Fin maxJobs) : ¬p i := by
  rw [List.find?_eq_none] at h
  simpa using h i (List.mem_finRange i)

/-- `addjob` fills a free slot, or refuses the job. -/
lemma addjob_cases (t : Table) (pid : ℤ) (state : JobState) (cmdline : String) :
    (1 ≤ pid ∧ ∃ i, (t.jobs i).pid = 0 ∧ addjob t pid state cmdline = (true,
      { t.modify i (fun _ => ⟨pid, t.nextjid, state, cmdline⟩) with
        nextjid := if t.nextjid + 1 > maxJobs then 1 else t.nextjid + 1 })) ∨
    ((pid < 1 ∨ ∀ i, (t.jobs i).pid ≠ 0) ∧ addjob t pid state cmdline = (false, t)) := by
  by_cases hpid : pid < 1
  · exact Or.inr ⟨Or.inl hpid, by rw [addjob, if_pos hpid]⟩
  · cases hfind : (List.finRange maxJobs).find? (fun i => (t.jobs i).pid = 0) with
    | some i => exact Or.inl ⟨by omega, i, find_slot hfind, by rw [addjob, if_neg hpid, hfind]⟩
    | none => exact Or.inr ⟨Or.inr (find_no_slot hfind), by rw [addjob, if_neg hpid, hfind]⟩

/-- `deletejob` clears a slot of the job, or leaves the table alone. -/
lemma deletejob_cases (t : Table) (pid : ℤ) :
    (1 ≤ pid ∧ ∃ i, (t.jobs i).pid = pid ∧ deletejob t pid = (true,
      { t.modify i (fun _ => clearjob) with
        nextjid := maxjid (t.modify i (fun _ => clearjob)) + 1 })) ∨
    ((pid < 1 ∨ ∀ i, (t.jobs i).pid ≠ pid) ∧ deletejob t pid = (false, t)) := by
  by_cases hpid : pid < 1
  · exact Or.inr ⟨Or.inl hpid, by rw [deletejob, if_pos hpid]⟩
  · cases hfind : (List.finRange maxJobs).find? (fun i => (t.jobs i).pid = pid) with
    | some i => exact Or.inl ⟨by omega, i, find_slot hfind, by rw [deletejob, if_neg hpid, hfind]⟩
    | none => exact Or.inr ⟨Or.inr (find_no_slot hfind), by rw [deletejob, if_neg hpid, hfind]⟩

/-- `maxjid` bounds the job IDs from above. -/
lemma le_maxjid (t : Table) : 0 ≤ maxjid t ∧ ∀ i, (t.jobs i).jid ≤ maxjid t := by
  have hfold : ∀ (l : List (Fin maxJobs)) (m : ℤ),
      m ≤ l.foldl (fun max i => if (t.jobs i).jid > max then (t.jobs i).jid else max) m ∧
        ∀ i ∈ l, (t.jobs i).jid ≤
          l.foldl (fun max i => if (t.jobs i).jid > max then (t.jobs i).jid else max) m := by
    intro l
    induction l with
    | nil => simp
    | cons i l ih =>
      intro m
      have hmax : m ≤ (if (t.jobs i).jid > m then (t.jobs i).jid else m) ∧
          (t.jobs i).jid ≤ (if (t.jobs i).jid > m then (t.jobs i).jid else m) := by
        split <;> omega
      obtain ⟨hm, hl⟩ := ih (if (t.jobs i).jid > m then (t.jobs i).jid else m)
      rw [List.foldl_cons, List.forall_mem_cons]
      exact ⟨hmax.1.trans hm, hmax.2.trans hm, hl⟩
  obtain ⟨hzero, hmem⟩ := hfold (List.finRange maxJobs) 0
  exact ⟨hzero, fun i => hmem i (List.mem_finRange i)⟩

end SystemsLabs.Tsh
