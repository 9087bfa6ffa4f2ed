import SystemsLabs.Tsh.Jobs

/-!
# The roster of children

The abstract job table knows only process IDs. The main program enters a child between blocking
and unblocking `SIGCHLD`, and the handler removes a child that it has reaped. The two never work
on the table at the same time.
-/

namespace SystemsLabs.Tsh

/-- What the main program does to the table. -/
inductive Stage
  | outside
  | blocked
  | searching (pid : ℤ)
  | storing (pid : ℤ) (i : Fin maxJobs)
  | stored (pid : ℤ) (i : Fin maxJobs)
deriving DecidableEq

/-- What the handler does to the table. -/
inductive Removal
  | idle
  | active
  | reaped (pid : ℤ)
  | clearing (pid : ℤ) (i : Fin maxJobs)
deriving DecidableEq

/-- The child that waits for the end of `addjob`. -/
def Stage.child : Stage → Option ℤ
  | Stage.searching pid => some pid
  | Stage.storing pid _ => some pid
  | Stage.stored pid _ => some pid
  | _ => none

/-- The reaped child that waits for the end of `deletejob`. -/
def Removal.child : Removal → Option ℤ
  | Removal.reaped pid => some pid
  | Removal.clearing pid _ => some pid
  | _ => none

/-- The process IDs of the slots, and the unreaped children with a mark on those for which
`addjob` returned 1. -/
structure Roster where
  pids : Fin maxJobs → ℤ
  kids : List (ℤ × Bool)
  stage : Stage
  removal : Removal

/-- A mark on the child `pid`. -/
def mark (pid : ℤ) (k : ℤ × Bool) : ℤ × Bool := if k.1 = pid then (k.1, true) else k

inductive Roster.Step (r : Roster) : Roster → Prop
  | block (hs : r.stage = Stage.outside) (hr : r.removal = Removal.idle) :
    Step r { r with stage := Stage.blocked }
  | fork (pid : ℤ) (hs : r.stage = Stage.blocked) (hpid : 0 < pid) (hnew : ∀ k ∈ r.kids, k.1 ≠ pid) :
    Step r { r with kids := (pid, false) :: r.kids, stage := Stage.searching pid }
  | refuse (pid : ℤ) (hs : r.stage = Stage.searching pid) : Step r { r with stage := Stage.blocked }
  | find (pid : ℤ) (i : Fin maxJobs) (hs : r.stage = Stage.searching pid) (hi : r.pids i = 0) :
    Step r { r with stage := Stage.storing pid i }
  | store (pid : ℤ) (i : Fin maxJobs) (hs : r.stage = Stage.storing pid i) :
    Step r { r with pids := Function.update r.pids i pid, stage := Stage.stored pid i }
  | enter (pid : ℤ) (i : Fin maxJobs) (hs : r.stage = Stage.stored pid i) :
    Step r { r with kids := r.kids.map (mark pid), stage := Stage.blocked }
  | unblock (hs : r.stage = Stage.blocked) : Step r { r with stage := Stage.outside }
  | start (hs : r.stage = Stage.outside) (hr : r.removal = Removal.idle) :
    Step r { r with removal := Removal.active }
  | reap (pid : ℤ) (hr : r.removal = Removal.active) (hpid : ∃ k ∈ r.kids, k.1 = pid) :
    Step r { r with kids := r.kids.filter (fun k => k.1 ≠ pid), removal := Removal.reaped pid }
  | unknown (pid : ℤ) (hr : r.removal = Removal.reaped pid) (hi : 0 < pid → ∀ i, r.pids i ≠ pid) :
    Step r { r with removal := Removal.active }
  | locate (pid : ℤ) (i : Fin maxJobs) (hr : r.removal = Removal.reaped pid) (hi : r.pids i = pid) :
    Step r { r with removal := Removal.clearing pid i }
  | clear (pid : ℤ) (i : Fin maxJobs) (hr : r.removal = Removal.clearing pid i) :
    Step r { r with pids := Function.update r.pids i 0, removal := Removal.active }
  | finish (hr : r.removal = Removal.active) : Step r { r with removal := Removal.idle }

/-- The table holds the marked children, a child that `addjob` is about to mark, and a reaped
child that `deletejob` is about to clear. -/
structure Roster.Sound (r : Roster) : Prop where
  exclusive : r.stage = Stage.outside ∨ r.removal = Removal.idle
  nodup : (r.kids.map Prod.fst).Nodup
  positive : ∀ k ∈ r.kids, 0 < k.1
  unique : ∀ i j, r.pids i ≠ 0 → r.pids i = r.pids j → i = j
  listed : ∀ i, r.pids i ≠ 0 → (r.pids i, true) ∈ r.kids ∨ r.stage = Stage.stored (r.pids i) i ∨
    r.removal = Removal.reaped (r.pids i) ∨ r.removal = Removal.clearing (r.pids i) i
  marked : ∀ pid, (pid, true) ∈ r.kids → ∃ i, r.pids i = pid
  waiting : ∀ pid, r.stage.child = some pid → (pid, false) ∈ r.kids
  storing : ∀ pid i, r.stage = Stage.storing pid i → r.pids i = 0
  stored : ∀ pid i, r.stage = Stage.stored pid i → r.pids i = pid
  reaped : ∀ pid, r.removal.child = some pid → 0 < pid ∧ ∀ k ∈ r.kids, k.1 ≠ pid
  clearing : ∀ pid i, r.removal = Removal.clearing pid i → r.pids i = pid

variable {r r' : Roster}

/-- A child is not both marked and unmarked. -/
lemma Roster.Sound.not_both (h : r.Sound) {pid : ℤ} (hf : (pid, false) ∈ r.kids) :
    (pid, true) ∉ r.kids := by
  intro ht
  have := List.inj_on_of_nodup_map h.nodup hf ht rfl
  simp at this

/-- A change of the stage alone, while `addjob` has not stored the child. -/
lemma Roster.Sound.withStage (h : r.Sound) {stage : Stage}
    (hex : stage = Stage.outside ∨ r.removal = Removal.idle)
    (hold : ∀ pid i, r.stage ≠ Stage.stored pid i) (hnew : ∀ pid i, stage ≠ Stage.stored pid i)
    (hwaiting : ∀ pid, stage.child = some pid → (pid, false) ∈ r.kids)
    (hstoring : ∀ pid i, stage = Stage.storing pid i → r.pids i = 0) :
    Roster.Sound { r with stage := stage } where
  exclusive := hex
  nodup := h.nodup
  positive := h.positive
  unique := h.unique
  listed := by
    intro i hi
    rcases h.listed i hi with hmarked | hstored | hreap
    · exact Or.inl hmarked
    · exact absurd hstored (hold _ i)
    · exact Or.inr (Or.inr hreap)
  marked := h.marked
  waiting := hwaiting
  storing := hstoring
  stored := fun pid i hs => absurd hs (hnew pid i)
  reaped := h.reaped
  clearing := h.clearing

/-- A change of the removal alone, which forgets no listed process ID. -/
lemma Roster.Sound.withRemoval (h : r.Sound) {removal : Removal}
    (hex : r.stage = Stage.outside ∨ removal = Removal.idle)
    (hlisted : ∀ i, r.pids i ≠ 0 →
      r.removal = Removal.reaped (r.pids i) ∨ r.removal = Removal.clearing (r.pids i) i →
      removal = Removal.reaped (r.pids i) ∨ removal = Removal.clearing (r.pids i) i)
    (hreaped : ∀ pid, removal.child = some pid → 0 < pid ∧ ∀ k ∈ r.kids, k.1 ≠ pid)
    (hclearing : ∀ pid i, removal = Removal.clearing pid i → r.pids i = pid) :
    Roster.Sound { r with removal := removal } where
  exclusive := hex
  nodup := h.nodup
  positive := h.positive
  unique := h.unique
  listed := by
    intro i hi
    rcases h.listed i hi with hmarked | hstored | hreap
    · exact Or.inl hmarked
    · exact Or.inr (Or.inl hstored)
    · exact Or.inr (Or.inr (hlisted i hi hreap))
  marked := h.marked
  waiting := h.waiting
  storing := h.storing
  stored := h.stored
  reaped := hreaped
  clearing := hclearing

lemma Roster.Sound.child_pos (h : r.Sound) {pid : ℤ} (hs : r.stage.child = some pid) : 0 < pid :=
  h.positive _ (h.waiting pid hs)

/-- Every process ID in the table is positive. -/
lemma Roster.Sound.pid_pos (h : r.Sound) {i : Fin maxJobs} (hi : r.pids i ≠ 0) : 0 < r.pids i := by
  rcases h.listed i hi with hmarked | hstored | hreaped | hclearing
  · exact h.positive _ hmarked
  · exact h.child_pos (congrArg Stage.child hstored)
  · exact (h.reaped _ (congrArg Removal.child hreaped)).1
  · exact (h.reaped _ (congrArg Removal.child hclearing)).1

lemma Roster.Sound.outside_of_removal (h : r.Sound) (hr : r.removal ≠ Removal.idle) :
    r.stage = Stage.outside := h.exclusive.resolve_right hr

lemma Roster.Sound.idle_of_stage (h : r.Sound) (hs : r.stage ≠ Stage.outside) :
    r.removal = Removal.idle := h.exclusive.resolve_left hs

/-- A slot that was listed while the handler is idle belongs to a marked child. -/
lemma Roster.Sound.marked_of_listed (h : r.Sound) (hr : r.removal = Removal.idle)
    (hs : ∀ pid i, r.stage ≠ Stage.stored pid i) {i : Fin maxJobs} (hi : r.pids i ≠ 0) :
    (r.pids i, true) ∈ r.kids := by
  rcases h.listed i hi with hmarked | hstored | hreap | hclear
  · exact hmarked
  · exact absurd hstored (hs _ i)
  · simp [hr] at hreap
  · simp [hr] at hclear

lemma Roster.Sound.fork (h : r.Sound) {pid : ℤ} (hs : r.stage = Stage.blocked) (hpid : 0 < pid)
    (hnew : ∀ k ∈ r.kids, k.1 ≠ pid) :
    Roster.Sound { r with kids := (pid, false) :: r.kids, stage := Stage.searching pid } where
  exclusive := Or.inr (h.idle_of_stage (by simp [hs]))
  nodup := by
    rw [List.map_cons, List.nodup_cons]
    refine ⟨?_, h.nodup⟩
    intro hmem
    obtain ⟨k, hk, heq⟩ := List.mem_map.mp hmem
    exact hnew k hk heq
  positive := by
    rw [List.forall_mem_cons]
    exact ⟨hpid, h.positive⟩
  unique := h.unique
  listed := by
    intro i hi
    have := h.marked_of_listed (h.idle_of_stage (by simp [hs])) (by simp [hs]) hi
    exact Or.inl (List.mem_cons_of_mem _ this)
  marked := by
    intro q hq
    rcases List.mem_cons.mp hq with heq | hq
    · simp at heq
    · exact h.marked q hq
  waiting := by
    intro q hq
    obtain rfl := Option.some.inj hq
    exact List.mem_cons_self
  storing := by simp
  stored := by simp
  reaped := by simp [h.idle_of_stage (by simp [hs]), Removal.child]
  clearing := by simp [h.idle_of_stage (by simp [hs])]

lemma Roster.Sound.store (h : r.Sound) {pid : ℤ} {i : Fin maxJobs}
    (hs : r.stage = Stage.storing pid i) :
    Roster.Sound { r with pids := Function.update r.pids i pid, stage := Stage.stored pid i } := by
  have hidle := h.idle_of_stage (by simp [hs])
  have hwait := h.waiting pid (by simp [hs, Stage.child])
  have hzero := h.storing pid i hs
  have hmarked : ∀ j, r.pids j ≠ 0 → (r.pids j, true) ∈ r.kids := fun j hj =>
    h.marked_of_listed hidle (by simp [hs]) hj
  have hfresh : ∀ j, r.pids j ≠ 0 → r.pids j ≠ pid := by
    intro j hj heq
    exact h.not_both hwait (heq ▸ hmarked j hj)
  have hpos := h.positive _ hwait
  constructor
  case exclusive => exact Or.inr hidle
  case nodup => exact h.nodup
  case positive => exact h.positive
  case unique =>
    intro j k hj heq
    simp only [Function.update_apply] at hj heq
    by_cases hji : j = i
    · by_cases hki : k = i
      · rw [hji, hki]
      · rw [if_pos hji, if_neg hki] at heq
        rw [if_pos hji, heq] at hj
        exact absurd heq.symm (hfresh k hj)
    · by_cases hki : k = i
      · rw [if_neg hji, if_pos hki] at heq
        rw [if_neg hji] at hj
        exact absurd heq (hfresh j hj)
      · rw [if_neg hji, if_neg hki] at heq
        rw [if_neg hji] at hj
        exact h.unique j k hj heq
  case listed =>
    intro j hj
    by_cases hji : j = i
    · subst hji
      exact Or.inr (Or.inl (by simp))
    · simp only [Function.update_of_ne hji] at hj ⊢
      exact Or.inl (hmarked j hj)
  case marked =>
    intro q hq
    obtain ⟨j, hj⟩ := h.marked q hq
    have hji : j ≠ i := by
      rintro rfl
      have := h.positive _ hq
      omega
    exact ⟨j, by simp only [Function.update_of_ne hji, hj]⟩
  case waiting =>
    intro q hq
    obtain rfl := Option.some.inj hq
    exact hwait
  case storing => simp
  case stored =>
    intro q j hq
    obtain ⟨rfl, rfl⟩ := Stage.stored.inj hq
    simp
  case reaped => simp [hidle, Removal.child]
  case clearing => simp [hidle]

@[simp] lemma mark_fst (pid : ℤ) (k : ℤ × Bool) : (mark pid k).1 = k.1 := by
  unfold mark
  split <;> rfl

lemma mem_map_mark {pid q : ℤ} {l : List (ℤ × Bool)} :
    (q, true) ∈ l.map (mark pid) ↔ (q, true) ∈ l ∨ q = pid ∧ ∃ k ∈ l, k.1 = pid := by
  rw [List.mem_map]
  constructor
  · rintro ⟨k, hk, heq⟩
    unfold mark at heq
    by_cases hpid : k.1 = pid
    · rw [if_pos hpid] at heq
      exact Or.inr ⟨(Prod.mk.inj heq).1.symm.trans hpid, k, hk, hpid⟩
    · rw [if_neg hpid] at heq
      exact Or.inl (heq ▸ hk)
  · rintro (hq | ⟨rfl, k, hk, hpid⟩)
    · refine ⟨(q, true), hq, ?_⟩
      unfold mark
      split <;> rfl
    · exact ⟨k, hk, by rw [mark, if_pos hpid, hpid]⟩

lemma Roster.Sound.enter (h : r.Sound) {pid : ℤ} {i : Fin maxJobs}
    (hs : r.stage = Stage.stored pid i) :
    Roster.Sound { r with kids := r.kids.map (mark pid), stage := Stage.blocked } := by
  have hidle := h.idle_of_stage (by simp [hs])
  have hwait := h.waiting pid (by simp [hs, Stage.child])
  have hstored := h.stored pid i hs
  constructor
  case exclusive => exact Or.inr hidle
  case nodup =>
    have hfst : (r.kids.map (mark pid)).map Prod.fst = r.kids.map Prod.fst := by
      rw [List.map_map]
      apply List.map_congr_left
      intro k _
      exact mark_fst pid k
    rw [hfst]
    exact h.nodup
  case positive =>
    intro k hk
    obtain ⟨k', hk', rfl⟩ := List.mem_map.mp hk
    rw [mark_fst]
    exact h.positive k' hk'
  case unique => exact h.unique
  case listed =>
    intro j hj
    left
    rw [mem_map_mark]
    rcases h.listed j hj with hmarked | hst | hreap | hclear
    · exact Or.inl hmarked
    · rw [hs] at hst
      obtain ⟨hpid, -⟩ := Stage.stored.inj hst
      exact Or.inr ⟨hpid.symm, _, hwait, rfl⟩
    · simp [hidle] at hreap
    · simp [hidle] at hclear
  case marked =>
    intro q hq
    rcases mem_map_mark.mp hq with hq | ⟨rfl, -⟩
    · exact h.marked q hq
    · exact ⟨i, hstored⟩
  case waiting => simp [Stage.child]
  case storing => simp
  case stored => simp
  case reaped => simp [hidle, Removal.child]
  case clearing => simp [hidle]

lemma Roster.Sound.reap (h : r.Sound) {pid : ℤ} (hr : r.removal = Removal.active)
    (hpid : ∃ k ∈ r.kids, k.1 = pid) :
    Roster.Sound
      { r with kids := r.kids.filter (fun k => k.1 ≠ pid), removal := Removal.reaped pid } := by
  have hout := h.outside_of_removal (by simp [hr])
  constructor
  case exclusive => exact Or.inl hout
  case nodup => exact h.nodup.sublist (List.filter_sublist.map Prod.fst)
  case positive => exact fun k hk => h.positive k (List.mem_of_mem_filter hk)
  case unique => exact h.unique
  case listed =>
    intro i hi
    rcases h.listed i hi with hmarked | hst | hreap | hclear
    · by_cases hq : r.pids i = pid
      · exact Or.inr (Or.inr (Or.inl (by rw [hq])))
      · exact Or.inl (List.mem_filter.mpr ⟨hmarked, by simpa using hq⟩)
    · simp [hout] at hst
    · simp [hr] at hreap
    · simp [hr] at hclear
  case marked => exact fun q hq => h.marked q (List.mem_of_mem_filter hq)
  case waiting => simp [hout, Stage.child]
  case storing => simp [hout]
  case stored => simp [hout]
  case reaped =>
    intro q hq
    obtain rfl := Option.some.inj hq
    obtain ⟨k, hk, rfl⟩ := hpid
    refine ⟨h.positive k hk, ?_⟩
    intro k' hk'
    simpa using (List.mem_filter.mp hk').2
  case clearing => simp

lemma Roster.Sound.clear (h : r.Sound) {pid : ℤ} {i : Fin maxJobs}
    (hr : r.removal = Removal.clearing pid i) :
    Roster.Sound { r with pids := Function.update r.pids i 0, removal := Removal.active } := by
  have hout := h.outside_of_removal (by simp [hr])
  have hi := h.clearing pid i hr
  obtain ⟨hpos, hgone⟩ := h.reaped pid (by simp [hr, Removal.child])
  constructor
  case exclusive => exact Or.inl hout
  case nodup => exact h.nodup
  case positive => exact h.positive
  case unique =>
    intro j k hj heq
    have hji : j ≠ i := by
      rintro rfl
      simp at hj
    have hki : k ≠ i := by
      rintro rfl
      rw [heq] at hj
      simp at hj
    simp only [Function.update_of_ne hji, Function.update_of_ne hki] at hj heq
    exact h.unique j k hj heq
  case listed =>
    intro j hj
    have hji : j ≠ i := by
      rintro rfl
      simp at hj
    simp only [Function.update_of_ne hji] at hj ⊢
    rcases h.listed j hj with hmarked | hst | hreap | hclear
    · exact Or.inl hmarked
    · simp [hout] at hst
    · simp [hr] at hreap
    · rw [hr] at hclear
      exact absurd (Removal.clearing.inj hclear).2.symm hji
  case marked =>
    intro q hq
    obtain ⟨j, hj⟩ := h.marked q hq
    have hji : j ≠ i := by
      rintro rfl
      exact hgone _ hq (hj.symm.trans hi)
    exact ⟨j, by simp only [Function.update_of_ne hji, hj]⟩
  case waiting => simp [hout, Stage.child]
  case storing => simp [hout]
  case stored => simp [hout]
  case reaped => simp [Removal.child]
  case clearing => simp

/-- Every step keeps the table and the children together. -/
theorem Roster.Sound.step (h : r.Sound) (hstep : Roster.Step r r') : r'.Sound := by
  cases hstep with
  | block hs hr =>
    exact h.withStage (Or.inr hr) (by simp [hs]) (by simp) (by simp [Stage.child]) (by simp)
  | fork pid hs hpid hnew => exact h.fork hs hpid hnew
  | refuse pid hs =>
    exact h.withStage (Or.inr (h.idle_of_stage (by simp [hs]))) (by simp [hs]) (by simp)
      (by simp [Stage.child]) (by simp)
  | find pid i hs hi =>
    have hwait := h.waiting pid (by simp [hs, Stage.child])
    apply h.withStage (Or.inr (h.idle_of_stage (by simp [hs]))) (by simp [hs]) (by simp)
    · intro q hq
      obtain rfl := Option.some.inj hq
      exact hwait
    · intro q j hq
      obtain ⟨-, rfl⟩ := Stage.storing.inj hq
      exact hi
  | store pid i hs => exact h.store hs
  | enter pid i hs => exact h.enter hs
  | unblock hs =>
    exact h.withStage (Or.inl rfl) (by simp [hs]) (by simp) (by simp [Stage.child]) (by simp)
  | start hs hr =>
    exact h.withRemoval (Or.inl hs) (by simp [hr]) (by simp [Removal.child]) (by simp)
  | reap pid hr hpid => exact h.reap hr hpid
  | unknown pid hr hi =>
    obtain ⟨hpos, -⟩ := h.reaped pid (by simp [hr, Removal.child])
    apply h.withRemoval (Or.inl (h.outside_of_removal (by simp [hr])))
    · intro j _ hj
      rw [hr] at hj
      rcases hj with hj | hj
      · exact absurd (Removal.reaped.inj hj).symm (hi hpos j)
      · simp at hj
    · simp [Removal.child]
    · simp
  | locate pid i hr hi =>
    have hreaped := h.reaped pid (by simp [hr, Removal.child])
    apply h.withRemoval (Or.inl (h.outside_of_removal (by simp [hr])))
    · intro j hj hold
      rw [hr] at hold
      rcases hold with hold | hold
      · have hpid := Removal.reaped.inj hold
        right
        rw [h.unique j i hj (hpid.symm.trans hi.symm), hi]
      · simp at hold
    · intro q hq
      obtain rfl := Option.some.inj hq
      exact hreaped
    · intro q j hq
      obtain ⟨rfl, rfl⟩ := Removal.clearing.inj hq
      exact hi
  | clear pid i hr => exact h.clear hr
  | finish hr =>
    exact h.withRemoval (Or.inr rfl) (by simp [hr]) (by simp [Removal.child]) (by simp)

end SystemsLabs.Tsh
