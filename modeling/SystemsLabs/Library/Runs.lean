import Mathlib.Logic.Relation
import Mathlib.Tactic

/-!
# Runs of labelled systems

A system steps from a state under a label, or refuses the label. A condition on states and
labels restricts which steps a run may take. An invariant that every permitted step keeps
holds in every state that a permitted run reaches.
-/

namespace SystemsLabs.Library

variable {σ ι : Type*} (step : σ → ι → Option σ) (cond : σ → ι → Prop)

/-- The state after a list of labels, if no label is refused. -/
def run (s : σ) : List ι → Option σ
  | [] => some s
  | i :: is => (step s i).bind (fun t => run t is)

def Next (s t : σ) : Prop := ∃ i, cond s i ∧ step s i = some t

/-- A run all of whose steps are permitted leads from `s` to `t`. -/
def Reaches : σ → σ → Prop := Relation.ReflTransGen (Next step cond)

variable {step cond} {s t : σ}

lemma Reaches.refl (s : σ) : Reaches step cond s s := Relation.ReflTransGen.refl

lemma Reaches.tail {u : σ} {i : ι} (h : Reaches step cond s t) (hc : cond t i)
    (hi : step t i = some u) : Reaches step cond s u :=
  Relation.ReflTransGen.tail h ⟨i, hc, hi⟩

lemma Reaches.mono {cond' : σ → ι → Prop} (hcond : ∀ s i, cond s i → cond' s i)
    (h : Reaches step cond s t) : Reaches step cond' s t := by
  induction h with
  | refl => exact Reaches.refl _
  | tail _ hnext ih =>
    obtain ⟨i, hc, hi⟩ := hnext
    exact ih.tail (hcond _ _ hc) hi

lemma run_append (is js : List ι) :
    run step s (is ++ js) = (run step s is).bind (fun t => run step t js) := by
  induction is generalizing s with
  | nil => rfl
  | cons i is ih =>
    rw [List.cons_append, run, run, Option.bind_assoc]
    simp only [ih]

lemma run_replicate_trans {u : σ} {i : ι} (h : ∃ n, run step s (List.replicate n i) = some t)
    (h' : ∃ n, run step t (List.replicate n i) = some u) :
    ∃ n, run step s (List.replicate n i) = some u := by
  obtain ⟨n, hn⟩ := h
  obtain ⟨m, hm⟩ := h'
  refine ⟨n + m, ?_⟩
  rw [← List.replicate_append_replicate, run_append, hn, Option.bind_some, hm]

/-- What every permitted step keeps, every permitted run keeps. -/
theorem Reaches.invariant (h : Reaches step cond s t) (Inv : σ → Prop) (hs : Inv s)
    (hstep : ∀ s i t, Inv s → cond s i → step s i = some t → Inv t) : Inv t := by
  induction h with
  | refl => exact hs
  | tail _ hnext ih =>
    obtain ⟨i, hc, hi⟩ := hnext
    exact hstep _ _ _ ih hc hi

/-- A list of labels that are permitted in every state is a permitted run if none is refused. -/
lemma reaches_of_run {is : List ι} (hcond : ∀ i ∈ is, ∀ u, cond u i) (h : run step s is = some t) :
    Reaches step cond s t := by
  induction is generalizing s with
  | nil =>
    obtain rfl := Option.some.inj h
    exact Reaches.refl _
  | cons i is ih =>
    rw [run, Option.bind_eq_some_iff] at h
    obtain ⟨u, hu, ht⟩ := h
    exact Relation.ReflTransGen.head ⟨i, hcond i (by simp) _, hu⟩
      (ih (fun j hj => hcond j (List.mem_cons_of_mem i hj)) ht)

/-- Every state of one system shows a state of another one that takes the same steps. -/
theorem run_of_simulation {τ : Type*} {step' : τ → ι → Option τ} {Shows : σ → τ → Prop}
    (hstep : ∀ s k i k', Shows s k → step' k i = some k' → ∃ s', step s i = some s' ∧ Shows s' k')
    {is : List ι} {k k' : τ} (hs : Shows s k) (h : run step' k is = some k') :
    ∃ s', run step s is = some s' ∧ Shows s' k' := by
  induction is generalizing s k with
  | nil =>
    obtain rfl := Option.some.inj h
    exact ⟨s, rfl, hs⟩
  | cons i is ih =>
    rw [run, Option.bind_eq_some_iff] at h
    obtain ⟨u, hu, hrun⟩ := h
    obtain ⟨s', hs', hshow⟩ := hstep s k i u hs hu
    obtain ⟨t', ht', hshow'⟩ := ih hshow hrun
    exact ⟨t', by rw [run, hs', Option.bind_some, ht'], hshow'⟩

variable (step cond) in
/-- The labels that the system does not refuse are permitted, up to the first refusal. -/
def Permitted (s : σ) : List ι → Prop
  | [] => True
  | i :: is => ∀ t, step s i = some t → cond s i ∧ Permitted t is

instance decidablePermitted [∀ s i, Decidable (cond s i)] :
    ∀ (is : List ι) (s : σ), Decidable (Permitted step cond s is)
  | [], _ => isTrue trivial
  | i :: is, s =>
    have := decidablePermitted is
    inferInstanceAs (Decidable (∀ t ∈ step s i, cond s i ∧ Permitted step cond t is))

lemma Permitted.mono {cond' : σ → ι → Prop} {is : List ι} (h : Permitted step cond s is)
    (hcond : ∀ i ∈ is, ∀ u, cond u i → cond' u i) : Permitted step cond' s is := by
  induction is generalizing s with
  | nil => trivial
  | cons i is ih =>
    intro t ht
    obtain ⟨hi, hrest⟩ := h t ht
    exact ⟨hcond i (by simp) s hi, ih hrest fun j hj => hcond j (List.mem_cons_of_mem i hj)⟩

lemma reaches_of_permitted {is : List ι} (h : Permitted step cond s is) (hrun : run step s is = some t) :
    Reaches step cond s t := by
  induction is generalizing s with
  | nil =>
    obtain rfl := Option.some.inj hrun
    exact Reaches.refl _
  | cons i is ih =>
    rw [run, Option.bind_eq_some_iff] at hrun
    obtain ⟨u, hu, ht⟩ := hrun
    obtain ⟨hcond, hrest⟩ := h u hu
    exact Relation.ReflTransGen.head ⟨i, hcond, hu⟩ (ih hrest ht)

variable (step) in
/-- A property holds in every state on the way, up to the first refusal. -/
def Along (P : σ → Prop) (s : σ) : List ι → Prop
  | [] => P s
  | i :: is => P s ∧ ∀ t, step s i = some t → Along P t is

lemma Along.head {P : σ → Prop} {is : List ι} (h : Along step P s is) : P s := by
  cases is with
  | nil => exact h
  | cons i is => exact h.1

lemma Along.last {P : σ → Prop} {is : List ι} (h : Along step P s is) (hrun : run step s is = some t) :
    P t := by
  induction is generalizing s with
  | nil =>
    obtain rfl := Option.some.inj hrun
    exact h
  | cons i is ih =>
    rw [run, Option.bind_eq_some_iff] at hrun
    obtain ⟨u, hu, ht⟩ := hrun
    exact ih (h.2 u hu) ht

/-- A property holds all along exactly the runs of permitted steps if permitted steps keep an
invariant that gives the property, and every other step destroys the property. -/
theorem along_iff_permitted {P : σ → Prop} (Inv : σ → Prop) (hP : ∀ s, Inv s → P s)
    (hstep : ∀ s i t, Inv s → cond s i → step s i = some t → Inv t)
    (hbad : ∀ s i t, Inv s → ¬cond s i → step s i = some t → ¬P t) (hs : Inv s) (is : List ι) :
    Along step P s is ↔ Permitted step cond s is := by
  induction is generalizing s with
  | nil => exact iff_of_true (hP s hs) trivial
  | cons i is ih =>
    constructor
    · intro h t ht
      have hcond : cond s i := by
        by_contra hnot
        exact hbad s i t hs hnot ht (h.2 t ht).head
      exact ⟨hcond, (ih (hstep s i t hs hcond ht)).mp (h.2 t ht)⟩
    · intro h
      refine ⟨hP s hs, ?_⟩
      intro t ht
      obtain ⟨hcond, hrest⟩ := h t ht
      exact (ih (hstep s i t hs hcond ht)).mpr hrest

/-- What an invariant of the permitted steps gives holds all along a permitted run. -/
theorem along_of_permitted {P : σ → Prop} (Inv : σ → Prop) (hP : ∀ s, Inv s → P s)
    (hstep : ∀ s i t, Inv s → cond s i → step s i = some t → Inv t) (hs : Inv s) {is : List ι}
    (h : Permitted step cond s is) : Along step P s is := by
  induction is generalizing s with
  | nil => exact hP s hs
  | cons i is ih =>
    refine ⟨hP s hs, ?_⟩
    intro t ht
    obtain ⟨hcond, hrest⟩ := h t ht
    exact ih (hstep s i t hs hcond ht) hrest

variable (step) in
/-- A property of single steps holds of every step on the way, up to the first refusal. -/
def EveryStep (P : σ → ι → σ → Prop) (s : σ) : List ι → Prop
  | [] => True
  | i :: is => ∀ t, step s i = some t → P s i t ∧ EveryStep P t is

/-- A property holds of every step exactly of the permitted runs if an invariant makes it
equivalent to the condition. -/
theorem everyStep_iff_permitted {P : σ → ι → σ → Prop} (Inv : σ → Prop)
    (hP : ∀ s i t, Inv s → step s i = some t → (P s i t ↔ cond s i))
    (hstep : ∀ s i t, Inv s → step s i = some t → Inv t) (hs : Inv s) (is : List ι) :
    EveryStep step P s is ↔ Permitted step cond s is := by
  induction is generalizing s with
  | nil => exact Iff.rfl
  | cons i is ih =>
    apply forall_congr'
    intro t
    apply forall_congr'
    intro ht
    exact and_congr (hP s i t hs ht) (ih (hstep s i t hs ht))

/-- A run with a last step that lacks the property. -/
lemma EveryStep.last {P : σ → ι → σ → Prop} {is : List ι} {i : ι} {u : σ}
    (h : EveryStep step P s (is ++ [i])) (hrun : run step s is = some t)
    (hi : step t i = some u) : P t i u := by
  induction is generalizing s with
  | nil =>
    obtain rfl := Option.some.inj hrun
    exact (h u hi).1
  | cons j is ih =>
    rw [run, Option.bind_eq_some_iff] at hrun
    obtain ⟨v, hv, ht⟩ := hrun
    exact ih (h v hv).2 ht

/-- Two properties hold along the same runs if an invariant makes them equivalent. -/
theorem along_congr {P Q : σ → Prop} (Inv : σ → Prop) (hPQ : ∀ s, Inv s → (P s ↔ Q s))
    (hstep : ∀ s i t, Inv s → step s i = some t → Inv t) (hs : Inv s) (is : List ι) :
    Along step P s is ↔ Along step Q s is := by
  induction is generalizing s with
  | nil => exact hPQ s hs
  | cons i is ih =>
    apply and_congr (hPQ s hs)
    apply forall_congr'
    intro t
    apply forall_congr'
    intro ht
    exact ih (hstep s i t hs ht)

section Refinement

variable {τ : Type*} {step' : τ → ι → Option τ} {Shows : σ → τ → Prop} {is : List ι} {k k' : τ}

/-- If every step of the second system is a permitted step of the first, so is every run. -/
theorem permitted_of_simulation (hstep : ∀ s k i k', Shows s k → step' k i = some k' →
      cond s i ∧ ∃ s', step s i = some s' ∧ Shows s' k')
    (hs : Shows s k) (h : run step' k is = some k') : Permitted step cond s is := by
  induction is generalizing s k with
  | nil => trivial
  | cons i is ih =>
    rw [run, Option.bind_eq_some_iff] at h
    obtain ⟨l, hl, hrun⟩ := h
    obtain ⟨hcond, t, ht, hshow⟩ := hstep s k i l hs hl
    intro u hu
    obtain rfl := Option.some.inj (ht.symm.trans hu)
    exact ⟨hcond, ih hshow hrun⟩

/-- If the second system follows every permitted step of the first, it follows permitted runs. -/
theorem run_of_permitted (hstep : ∀ s k i s', Shows s k → cond s i → step s i = some s' →
      ∃ k', step' k i = some k' ∧ Shows s' k')
    (hs : Shows s k) (hperm : Permitted step cond s is) (h : run step s is = some t) :
    ∃ k', run step' k is = some k' ∧ Shows t k' := by
  induction is generalizing s k with
  | nil =>
    obtain rfl := Option.some.inj h
    exact ⟨k, rfl, hs⟩
  | cons i is ih =>
    rw [run, Option.bind_eq_some_iff] at h
    obtain ⟨u, hu, hrun⟩ := h
    obtain ⟨hcond, hrest⟩ := hperm u hu
    obtain ⟨l, hl, hshow⟩ := hstep s k i u hs hcond hu
    obtain ⟨k', hk', hshow'⟩ := ih hshow hrest hrun
    exact ⟨k', by rw [run, hl, Option.bind_some, hk'], hshow'⟩

end Refinement

section Record

variable {α : Type*} {write : σ → α → ι → α} {p q : σ × α} {i : ι}

/-- The system with a record that its steps write and no step reads. -/
def recordStep (step : σ → ι → Option σ) (write : σ → α → ι → α) (p : σ × α) (i : ι) :
    Option (σ × α) :=
  (step p.1 i).map (fun t => (t, write p.1 p.2 i))

lemma recordStep_eq_some :
    recordStep step write p i = some q ↔ ∃ t, step p.1 i = some t ∧ (t, write p.1 p.2 i) = q :=
  Option.map_eq_some_iff

theorem run_recordStep (p : σ × α) (is : List ι) :
    (run (recordStep step write) p is).map Prod.fst = run step p.1 is := by
  induction is generalizing p with
  | nil => rfl
  | cons i is ih =>
    rw [run, run, recordStep]
    cases step p.1 i with
    | none => rfl
    | some t => exact ih (t, write p.1 p.2 i)

end Record

end SystemsLabs.Library
