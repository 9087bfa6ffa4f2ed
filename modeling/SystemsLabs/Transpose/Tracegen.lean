import SystemsLabs.Transpose.Guarantees

/-!
# Checking the transpositions

`tracegen` calls the registered functions one after the other on the same two arrays and compares `B`
with the result of a plain transposition after each call. What a function leaves in `B` is there when
the next one is called.
-/

namespace SystemsLabs.Transpose
open Library

variable {α : Type*} {M N : ℕ}

def correctTrans (M N : ℕ) : StateM (Arrays α) PUnit :=
  (upTo 0 N).forM (fun i =>
    (upTo 0 M).forM (fun j => do
      let tmp ← load M i j
      store N j i tmp))

section Validate

variable [Zero α] [DecidableEq α]

/-- The comparison with the array `C`, which is cleared first. -/
def validate (M N : ℕ) (A B : ℕ → α) : Bool :=
  let C := (correctTrans M N ⟨A, fun _ => 0, []⟩).2.B
  (upTo 0 M).all (fun i => (upTo 0 N).all (fun j => B (i * N + j) = C (i * N + j)))

/-- The functions in the order of their registration. -/
def funcList (M N : ℕ) : List (StateM (Arrays α) PUnit) := [transposeSubmit M N, trans M N]

/-- The loop over the functions, from number `i` on. -/
def validateAll (M N : ℕ) : ℕ → List (StateM (Arrays α) PUnit) → Arrays α → ℕ × Arrays α
  | _, [], s => (0, s)
  | i, f :: fs, s =>
    let t := (f s).2
    if validate M N t.A t.B then validateAll M N (i + 1) fs t else (i + 1, t)

/-- The exit code and the arrays at the end. A number with no function calls anything. -/
def tracegen (selectedFunc : Option ℕ) (M N : ℕ) (s : Arrays α) : Option (ℕ × Arrays α) :=
  match selectedFunc with
  | none => some (validateAll M N 0 (funcList M N) s)
  | some k => (funcList M N)[k]?.map (fun f =>
      let t := (f s).2
      if validate M N t.A t.B then (0, t) else (k + 1, t))

/-- `B` holds the transpose of `A`. -/
def Transposed (M N : ℕ) (s : Arrays α) : Prop :=
  ∀ i j, i < M → j < N → s.B (i * N + j) = s.A (j * M + i)

lemma validate_iff {s : Arrays α} : validate M N s.A s.B = true ↔ Transposed M N s := by
  have hcorrect := leaves_trans (M := M) (N := N) ⟨s.A, fun _ => 0, []⟩ rfl
  have hcell : ∀ i j, i < M → j < N →
      (correctTrans M N ⟨s.A, fun _ => 0, []⟩).2.B (i * N + j) = s.A (j * M + i) :=
    fun i j hi hj => hcorrect.written i j hi hj ⟨j, i, hj, hi, by simp⟩
  simp only [validate, List.all_eq_true, mem_upTo, decide_eq_true_eq]
  constructor
  · intro h i j hi hj
    rw [h i ⟨Nat.zero_le i, hi⟩ j ⟨Nat.zero_le j, hj⟩, hcell i j hi hj]
  · rintro h i ⟨-, hi⟩ j ⟨-, hj⟩
    rw [h i j hi hj, hcell i j hi hj]

/-- The calls change `B` to the transpose and keep `A`. -/
structure Transposes (M N : ℕ) (s t : Arrays α) : Prop where
  source : t.A = s.A
  transposed : Transposed M N t
  places : ∀ x ∈ t.trace, x ∈ s.trace ∨ x.place M N < 256 * 256

/-- The loop goes on as long as the functions transpose. -/
lemma validateAll_accepts {fs : List (StateM (Arrays α) PUnit)} {i : ℕ} {s : Arrays α}
    (hfs : ∀ f ∈ fs, ∀ s, Transposes M N s (f s).2) (hne : fs ≠ []) :
    ∃ t, validateAll M N i fs s = (0, t) ∧ Transposes M N s t := by
  induction fs generalizing i s with
  | nil => exact absurd rfl hne
  | cons f fs ih =>
    obtain ⟨hf, hfs⟩ := List.forall_mem_cons.mp hfs
    have hfirst := hf s
    rw [validateAll]
    simp only [if_pos (validate_iff.mpr hfirst.transposed)]
    cases fs with
    | nil => exact ⟨_, rfl, hfirst⟩
    | cons g fs =>
      obtain ⟨t, heq, ht⟩ := ih (i := i + 1) (s := (f s).2) hfs (List.cons_ne_nil g fs)
      refine ⟨t, heq, ht.source.trans hfirst.source, ht.transposed, fun x hx => ?_⟩
      exact (ht.places x hx).elim (hfirst.places x) Or.inr

end Validate

section Registered

variable {s : Arrays α}

lemma transposes_transposeSubmit (hM : M ≤ 256) (hN : N ≤ 256) (s : Arrays α) :
    Transposes M N s (transposeSubmit M N s).2 := by
  have heffect := leaves_transposeSubmit (M := M) (N := N) s rfl
  constructor
  case source => exact heffect.source
  case transposed =>
    intro i j hi hj
    rw [heffect.written i j hi hj ⟨j, i, hj, Or.inl hi, by simp⟩, heffect.source]
  case places =>
    intro x hx
    refine ((heffect.trace x).mp hx).imp_right ?_
    rintro ⟨i, j, hi, hj, hcopy⟩
    have hj' : j < 256 := by
      rcases hj with hj | ⟨rfl, -⟩ <;> omega
    exact place_copy hM hN (by omega) hj' hcopy

lemma transposes_trans (hM : M ≤ 256) (hN : N ≤ 256) (s : Arrays α) :
    Transposes M N s (trans M N s).2 := by
  have heffect := leaves_trans (M := M) (N := N) s rfl
  constructor
  case source => exact heffect.source
  case transposed =>
    intro i j hi hj
    rw [heffect.written i j hi hj ⟨j, i, hj, hi, by simp⟩, heffect.source]
  case places =>
    intro x hx
    refine ((heffect.trace x).mp hx).imp_right ?_
    rintro ⟨i, j, hi, hj, hcopy⟩
    exact place_copy hM hN (by omega) (by omega) hcopy

end Registered

/-- For every size that the arrays have room for, and whatever they hold, `tracegen` finds no fault
with any of the registered functions, and no access is outside the arrays. -/
theorem tracegen_accepts [Zero α] [DecidableEq α] (hM : M ≤ 256) (hN : N ≤ 256)
    {selectedFunc : Option ℕ} (hselected : ∀ k ∈ selectedFunc, k < 2) (a b : ℕ → α) :
    ∃ t, tracegen selectedFunc M N ⟨a, b, []⟩ = some (0, t) ∧ t.A = a ∧ Transposed M N t ∧
      ∀ x ∈ t.trace, x.place M N < 256 * 256 := by
  have hfuncs : ∀ f ∈ funcList (α := α) M N, ∀ s, Transposes M N s (f s).2 := by
    intro f hf
    simp only [funcList, List.mem_cons, List.not_mem_nil, or_false] at hf
    rcases hf with rfl | rfl
    · exact transposes_transposeSubmit hM hN
    · exact transposes_trans hM hN
  have hplaces : ∀ t : Arrays α, Transposes M N ⟨a, b, []⟩ t → ∀ x ∈ t.trace, x.place M N < 256 * 256 :=
    fun t ht x hx => (ht.places x hx).resolve_left (by simp)
  cases selectedFunc with
  | none =>
    obtain ⟨t, heq, ht⟩ := validateAll_accepts (i := 0) (s := ⟨a, b, []⟩) hfuncs (by simp [funcList])
    exact ⟨t, by rw [tracegen, heq], ht.source, ht.transposed, hplaces t ht⟩
  | some k =>
    have hk : k < (funcList (α := α) M N).length := hselected k rfl
    have ht := hfuncs _ (List.getElem_mem hk) ⟨a, b, []⟩
    refine ⟨_, ?_, ht.source, ht.transposed, hplaces _ ht⟩
    rw [tracegen, List.getElem?_eq_getElem hk]
    simp only [Option.map_some, if_pos (validate_iff.mpr ht.transposed)]

theorem tracegen_accepts_ragged : ∃ t : Arrays ℤ,
    tracegen none 3 10 ⟨fun k : ℕ => (k : ℤ), fun _ => 7, []⟩ = some (0, t) ∧
      t.A = (fun k : ℕ => (k : ℤ)) ∧ Transposed 3 10 t ∧
      ∀ x ∈ t.trace, x.place 3 10 < 256 * 256 :=
  tracegen_accepts (by decide) (by decide) (by simp) (fun k : ℕ => (k : ℤ)) (fun _ => 7)

end SystemsLabs.Transpose
