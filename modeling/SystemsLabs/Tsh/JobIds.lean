import SystemsLabs.Library.Runs
import SystemsLabs.Tsh.Jobs

/-!
# Job IDs

`addjob` counts job IDs up and starts again at 1 after `MAXJOBS`. `deletejob` goes on after the
largest ID in use. Neither asks whether the next ID is free.
-/

namespace SystemsLabs.Tsh
open Library

inductive TableCall
  | addjob (pid : ℤ) (state : JobState) (cmdline : String)
  | deletejob (pid : ℤ)
deriving DecidableEq, Repr

/-- The process ID of a new job is not in the table. -/
def tableStep (t : Table) : TableCall → Option Table
  | TableCall.addjob pid state cmdline =>
    if ∀ i, (t.jobs i).pid ≠ pid then some (addjob t pid state cmdline).2 else none
  | TableCall.deletejob pid => some (deletejob t pid).2

/-- The jobs in the table have different job IDs, and `getjobjid` finds each of them. -/
structure DistinctIds (t : Table) : Prop where
  distinct : ∀ i j, (t.jobs i).pid ≠ 0 → (t.jobs j).pid ≠ 0 → (t.jobs i).jid = (t.jobs j).jid → i = j
  lookup : ∀ i, (t.jobs i).pid ≠ 0 → getjobjid t (t.jobs i).jid = some i

/-- No job in the table has the next job ID when `addjob` finds a free slot. -/
def NextIdFree (t : Table) (call : TableCall) : Prop :=
  ∀ pid state cmdline, call = TableCall.addjob pid state cmdline → 1 ≤ pid →
    (∃ i, (t.jobs i).pid = 0) → ∀ i, (t.jobs i).pid ≠ 0 → (t.jobs i).jid ≠ t.nextjid

/-- The job IDs of the table. Free slots have job ID zero. -/
structure Numbered (t : Table) : Prop where
  nextjid : 1 ≤ t.nextjid
  free : ∀ i, (t.jobs i).pid = 0 → (t.jobs i).jid = 0
  used : ∀ i, (t.jobs i).pid ≠ 0 → 1 ≤ (t.jobs i).jid
  distinct : ∀ i j, (t.jobs i).pid ≠ 0 → (t.jobs j).pid ≠ 0 → (t.jobs i).jid = (t.jobs j).jid → i = j

variable {t u : Table} {call : TableCall} {i : Fin maxJobs} {job : Job} {n : ℤ}

lemma numbered_initjobs : Numbered initjobs where
  nextjid := by simp [initjobs]
  free := by simp [initjobs, clearjob]
  used := by simp [initjobs, clearjob]
  distinct := by simp [initjobs, clearjob]

lemma Numbered.distinctIds (h : Numbered t) : DistinctIds t where
  distinct := h.distinct
  lookup := by
    intro i hi
    have hjid := h.used i hi
    cases hfind : (List.finRange maxJobs).find? (fun j => (t.jobs j).jid = (t.jobs i).jid) with
    | none => exact absurd rfl (find_no_slot hfind i)
    | some j =>
      have hj : (t.jobs j).jid = (t.jobs i).jid := find_slot hfind
      have hused : (t.jobs j).pid ≠ 0 := by
        intro hfree
        have := h.free j hfree
        omega
      rw [getjobjid, if_neg (by omega), hfind, h.distinct j i hused hi hj]

lemma Numbered.fill (h : Numbered t) (hpid : job.pid ≠ 0) (hjid : 1 ≤ job.jid) (hn : 1 ≤ n)
    (hnew : ∀ j, (t.jobs j).pid ≠ 0 → (t.jobs j).jid ≠ job.jid) :
    Numbered { t.modify i (fun _ => job) with nextjid := n } where
  nextjid := hn
  free := by
    intro j hj
    dsimp only at hj ⊢
    by_cases hji : j = i
    · subst hji
      rw [Table.modify_self] at hj
      exact absurd hj hpid
    · rw [Table.modify_of_ne hji] at hj ⊢
      exact h.free j hj
  used := by
    intro j hj
    dsimp only at hj ⊢
    by_cases hji : j = i
    · subst hji
      rwa [Table.modify_self]
    · rw [Table.modify_of_ne hji] at hj ⊢
      exact h.used j hj
  distinct := by
    intro j k hj hk heq
    dsimp only at hj hk heq
    by_cases hji : j = i
    · by_cases hki : k = i
      · rw [hji, hki]
      · rw [hji, Table.modify_self, Table.modify_of_ne hki] at heq
        rw [Table.modify_of_ne hki] at hk
        exact absurd heq.symm (hnew k hk)
    · by_cases hki : k = i
      · rw [hki, Table.modify_self, Table.modify_of_ne hji] at heq
        rw [Table.modify_of_ne hji] at hj
        exact absurd heq (hnew j hj)
      · rw [Table.modify_of_ne hji] at hj heq
        rw [Table.modify_of_ne hki] at hk heq
        exact h.distinct j k hj hk heq

lemma Numbered.clear (h : Numbered t) (hn : 1 ≤ n) :
    Numbered { t.modify i (fun _ => clearjob) with nextjid := n } := by
  have hne : ∀ j, ((t.modify i (fun _ => clearjob)).jobs j).pid ≠ 0 → j ≠ i := by
    rintro j hj rfl
    simp [clearjob] at hj
  constructor
  case nextjid => exact hn
  case free =>
    intro j hj
    dsimp only at hj ⊢
    by_cases hji : j = i
    · subst hji
      simp [clearjob]
    · rw [Table.modify_of_ne hji] at hj ⊢
      exact h.free j hj
  case used =>
    intro j hj
    have hji := hne j hj
    dsimp only at hj ⊢
    rw [Table.modify_of_ne hji] at hj ⊢
    exact h.used j hj
  case distinct =>
    intro j k hj hk heq
    have hji := hne j hj
    have hki := hne k hk
    dsimp only at hj hk heq
    rw [Table.modify_of_ne hji] at hj heq
    rw [Table.modify_of_ne hki] at hk heq
    exact h.distinct j k hj hk heq

lemma Numbered.step (h : Numbered t) (hfree : NextIdFree t call) (hstep : tableStep t call = some u) :
    Numbered u := by
  cases call with
  | addjob pid state cmdline =>
    rw [tableStep, Option.ite_none_right_eq_some] at hstep
    obtain rfl := Option.some.inj hstep.2
    rcases addjob_cases t pid state cmdline with ⟨hpid, i, hi, heq⟩ | ⟨-, heq⟩
    · rw [heq]
      have hnext := h.nextjid
      have hnew := hfree pid state cmdline rfl hpid ⟨i, hi⟩
      apply h.fill
      · exact by dsimp only; omega
      · exact hnext
      · split <;> omega
      · exact hnew
    · rw [heq]
      exact h
  | deletejob pid =>
    obtain rfl := Option.some.inj hstep
    rcases deletejob_cases t pid with ⟨-, i, -, heq⟩ | ⟨-, heq⟩
    · rw [heq]
      have := (le_maxjid (t.modify i (fun _ => clearjob))).1
      exact h.clear (by omega)
    · rw [heq]
      exact h

/-- The next job ID is free right after a job has been deleted. -/
lemma nextIdFree_deletejob {pid : ℤ} (hdeleted : (deletejob t pid).1 = true) :
    NextIdFree (deletejob t pid).2 call := by
  rcases deletejob_cases t pid with ⟨-, i, -, heq⟩ | ⟨-, heq⟩
  · rw [heq]
    intro pid' state cmdline _ _ _ j _
    have := (le_maxjid (t.modify i (fun _ => clearjob))).2 j
    dsimp only
    omega
  · rw [heq] at hdeleted
    simp at hdeleted

/-- `addjob` gives the next job ID to a second job. -/
lemma not_distinctIds (hfree : ¬NextIdFree t call) (hstep : tableStep t call = some u) :
    ¬DistinctIds u := by
  unfold NextIdFree at hfree
  push Not at hfree
  obtain ⟨pid, state, cmdline, rfl, hpid, ⟨k, hk⟩, j, hj, hjid⟩ := hfree
  rw [tableStep, Option.ite_none_right_eq_some] at hstep
  obtain rfl := Option.some.inj hstep.2
  intro hdistinct
  rcases addjob_cases t pid state cmdline with ⟨-, i, hi, heq⟩ | ⟨hrefused, -⟩
  · rw [heq] at hdistinct
    have hji : j ≠ i := by
      rintro rfl
      exact hj hi
    refine hji (hdistinct.distinct j i ?_ ?_ ?_)
    · dsimp only
      rwa [Table.modify_of_ne hji]
    · dsimp only
      rw [Table.modify_self]
      dsimp only
      omega
    · dsimp only
      rw [Table.modify_of_ne hji, Table.modify_self, hjid]
  · rcases hrefused with hneg | hfull
    · omega
    · exact hfull k hk

/-- The job IDs stay different exactly as long as every `addjob` that finds a free slot meets a next
job ID that no job has. -/
theorem distinctIds_iff (calls : List TableCall) :
    Along tableStep DistinctIds initjobs calls ↔ Permitted tableStep NextIdFree initjobs calls := by
  apply along_iff_permitted Numbered
  · exact fun t h => h.distinctIds
  · exact fun t call u h hfree hstep => h.step hfree hstep
  · exact fun t call u _ hfree hstep => not_distinctIds hfree hstep
  · exact numbered_initjobs

/-- Sixteen jobs start, two of them end and two more start. -/
def wrappedIds : List TableCall :=
  (List.range 16).map (fun (n : ℕ) => TableCall.addjob (n + 101) JobState.bg "sleep 9 &") ++
  [TableCall.deletejob 105, TableCall.deletejob 106,
    TableCall.addjob 201 JobState.bg "sleep 9 &", TableCall.addjob 202 JobState.bg "sleep 9 &"]

theorem distinctIds_fails : ¬∀ calls, Along tableStep DistinctIds initjobs calls := by
  intro h
  have hrun : ∃ t, run tableStep initjobs wrappedIds = some t ∧ (t.jobs 0).pid ≠ 0 ∧
      (t.jobs 5).pid ≠ 0 ∧ (t.jobs 0).jid = (t.jobs 5).jid := by
    have hsome : ((run tableStep initjobs wrappedIds).any (fun t => (t.jobs 0).pid ≠ 0 ∧
        (t.jobs 5).pid ≠ 0 ∧ (t.jobs 0).jid = (t.jobs 5).jid)) = true := by
      decide
    simpa [Option.any_eq_true] using hsome
  obtain ⟨t, ht, h0, h5, heq⟩ := hrun
  have := ((h wrappedIds).last ht).distinct 0 5 h0 h5 heq
  simp at this

end SystemsLabs.Tsh
