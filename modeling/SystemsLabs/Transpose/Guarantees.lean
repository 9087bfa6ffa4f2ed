import SystemsLabs.Transpose.Accesses

/-!
# What the transposition does

The blocks cover every element. On the diagonal the last block of a matrix with fewer columns than
rows goes on below the last column, outside both matrices.
-/

namespace SystemsLabs.Transpose
open Library

variable {α : Type*} {M N : ℕ} {A : ℕ → α}

/-- The index expressions stay within the declared dimensions. -/
def Access.InRange (M N : ℕ) : Access → Prop
  | Access.readA i j => i < N ∧ j < M
  | Access.writeB i j => i < M ∧ j < N

/-- The place in the array. -/
def Access.place (M N : ℕ) : Access → ℕ
  | Access.readA i j => i * M + j
  | Access.writeB i j => i * N + j

/-- A row below the last column, in a block that contains the last column. -/
def Stray (M i : ℕ) : Prop := M ≤ i ∧ i / 8 * 8 < M

def submitSet (M N : ℕ) : Set Access :=
  {x | ∃ i j, i < N ∧ (j < M ∨ i = j ∧ Stray M i) ∧ x ∈ copy i j}

def transSet (M N : ℕ) : Set Access := {x | ∃ i j, i < N ∧ j < M ∧ x ∈ copy i j}

lemma leaves_block {ROW COL : ℕ} (hROW : 8 ∣ ROW ∧ ROW < N) (hCOL : 8 ∣ COL ∧ COL < M) :
    Leaves (EffectOn M N A) ((if M = 64 ∧ N = 64 then blocking64 else blocking) M N ROW COL)
      (blockSet M N ROW COL) := by
  by_cases h64 : M = 64 ∧ N = 64
  · rw [if_pos h64]
    exact leaves_blocking64 (by omega) (by omega)
  · rw [if_neg h64]
    by_cases hdiag : ROW = COL
    · subst hdiag
      rw [blocking, if_pos rfl]
      exact leaves_blockingDiag
    · exact leaves_blocking_off hdiag

/-- The blocks together copy the matrix, and the stray elements of the diagonal. -/
theorem leaves_transposeSubmit :
    Leaves (EffectOn M N A) (transposeSubmit M N) (submitSet M N) := by
  have hloop : Leaves (EffectOn M N A) (transposeSubmit M N)
      (⋃ row ∈ byEight N, ⋃ col ∈ byEight M, blockSet M N row col) := by
    apply (footprint M N A).forM
    intro row hrow
    apply (footprint M N A).forM
    intro col hcol
    exact leaves_block (mem_byEight.mp hrow) (mem_byEight.mp hcol)
  apply hloop.congr
  ext x
  simp only [Set.mem_iUnion, mem_byEight, exists_prop]
  constructor
  · rintro ⟨row, hrow, col, hcol, i, j, hi, hi', hN, hj, hj', hM, hx⟩
    refine ⟨i, j, hN, ?_, hx⟩
    by_cases hjM : j < M
    · exact Or.inl hjM
    · obtain ⟨rfl, rfl⟩ := hM.resolve_left hjM
      exact Or.inr ⟨rfl, by omega, by omega⟩
  · rintro ⟨i, j, hN, hM, hx⟩
    have hcol : j / 8 * 8 < M := by
      rcases hM with hM | ⟨rfl, -, hM⟩
      · omega
      · exact hM
    refine ⟨i / 8 * 8, by omega, j / 8 * 8, ⟨Nat.dvd_mul_left 8 _, hcol⟩, i, j, by omega, by omega,
      hN, by omega, by omega, ?_, hx⟩
    exact hM.imp_right (fun h => ⟨by rw [h.1], h.1⟩)

theorem leaves_trans : Leaves (EffectOn M N A) (trans M N) (transSet M N) := by
  have hloop : Leaves (EffectOn M N A) (trans M N) (⋃ i ∈ upTo 0 N, ⋃ j ∈ upTo 0 M, copy i j) := by
    apply (footprint M N A).forM
    intro i hi
    apply (footprint M N A).forM
    intro j _
    exact leaves_copy (mem_upTo.mp hi).2
  apply hloop.congr
  ext x
  simp only [Set.mem_iUnion, mem_upTo, exists_prop]
  constructor
  · rintro ⟨i, hi, j, hj, hx⟩
    exact ⟨i, j, hi.2, hj.2, hx⟩
  · rintro ⟨i, j, hi, hj, hx⟩
    exact ⟨i, ⟨Nat.zero_le i, hi⟩, j, ⟨Nat.zero_le j, hj⟩, hx⟩

/-- There is a stray row exactly if the last column ends inside a block that has more rows. -/
lemma stray_iff : (∃ i < N, Stray M i) ↔ ¬(8 ∣ M ∨ N ≤ M) := by
  unfold Stray
  constructor
  · rintro ⟨i, hi, hM, hblock⟩
    omega
  · intro h
    exact ⟨M, by omega, le_rfl, by omega⟩

lemma place_copy {i j : ℕ} {x : Access} (hM : M ≤ 256) (hN : N ≤ 256) (hi : i < 256) (hj : j < 256)
    (hx : x ∈ copy i j) : x.place M N < 256 * 256 := by
  have hrow : i * M ≤ 255 * 256 := Nat.mul_le_mul (by omega) hM
  have hcol : j * N ≤ 255 * 256 := Nat.mul_le_mul (by omega) hN
  rcases hx with rfl | rfl
  · simp only [Access.place]
    omega
  · simp only [Access.place]
    omega

section Claims

variable {a b : ℕ → α}

lemma mem_trace {x : Access} :
    x ∈ (transposeSubmit M N ⟨a, b, []⟩).2.trace ↔ x ∈ submitSet M N := by
  rw [(leaves_transposeSubmit ⟨a, b, []⟩ rfl).trace]
  simp

/-- Every index expression stays in range exactly if the number of columns is a multiple of 8 or
there are at least as many columns as rows. -/
theorem inRange_iff (M N : ℕ) (a b : ℕ → α) :
    (∀ x ∈ (transposeSubmit M N ⟨a, b, []⟩).2.trace, x.InRange M N) ↔ 8 ∣ M ∨ N ≤ M := by
  constructor
  · intro h
    by_contra hnot
    obtain ⟨i, hi, hstray⟩ := stray_iff.mpr hnot
    have := h (Access.readA i i) (mem_trace.mpr ⟨i, i, hi, Or.inr ⟨rfl, hstray⟩, by simp⟩)
    have hM := hstray.1
    simp only [Access.InRange] at this
    omega
  · intro h x hx
    obtain ⟨i, j, hi, hj, hcopy⟩ := mem_trace.mp hx
    have hjM : j < M := by
      rcases hj with hj | ⟨-, hstray⟩
      · exact hj
      · exact absurd h (stray_iff.mp ⟨i, hi, hstray⟩)
    rcases hcopy with rfl | rfl
    · exact ⟨hi, hjM⟩
    · exact ⟨hjM, hi⟩

/-- The graded matrix of 61 columns and 67 rows has stray rows. -/
theorem inRange_fails : ¬∀ (M N : ℕ) (a b : ℕ → ℤ), 1 ≤ M → 1 ≤ N →
    ∀ x ∈ (transposeSubmit M N ⟨a, b, []⟩).2.trace, x.InRange M N := by
  intro h
  have hstray : Stray 61 61 := by
    unfold Stray
    omega
  have := h 61 67 (fun _ => 0) (fun _ => 0) (by omega) (by omega) (Access.readA 61 61)
    (mem_trace.mpr ⟨61, 61, by omega, Or.inr ⟨rfl, hstray⟩, by simp⟩)
  simp [Access.InRange] at this

/-- The submitted transposition agrees with the plain one on the cells of the result and leaves `A`
as it is. All accesses stay in arrays of 256 x 256 elements. -/
theorem transposeSubmit_agrees (hM : 1 ≤ M ∧ M ≤ 256) (hN : 1 ≤ N ∧ N ≤ 256) (a b : ℕ → α) :
    (∀ i j, i < M → j < N →
      (transposeSubmit M N ⟨a, b, []⟩).2.B (i * N + j) = (trans M N ⟨a, b, []⟩).2.B (i * N + j) ∧
        (transposeSubmit M N ⟨a, b, []⟩).2.B (i * N + j) = a (j * M + i)) ∧
      (transposeSubmit M N ⟨a, b, []⟩).2.A = a ∧
      ∀ x ∈ (transposeSubmit M N ⟨a, b, []⟩).2.trace, x.place M N < 256 * 256 := by
  have hsubmit := leaves_transposeSubmit (M := M) (N := N) ⟨a, b, []⟩ rfl
  have htrans := leaves_trans (M := M) (N := N) ⟨a, b, []⟩ rfl
  refine ⟨?_, hsubmit.source, ?_⟩
  · intro i j hi hj
    have hcell := hsubmit.written i j hi hj ⟨j, i, hj, Or.inl hi, by simp⟩
    rw [hcell, htrans.written i j hi hj ⟨j, i, hj, hi, by simp⟩]
    exact ⟨rfl, rfl⟩
  · intro x hx
    obtain ⟨i, j, hi, hj, hcopy⟩ := mem_trace.mp hx
    have hj' : j < 256 := by
      rcases hj with hj | ⟨rfl, -⟩ <;> omega
    exact place_copy hM.2 hN.2 (by omega) hj' hcopy

theorem transposeSubmit_agrees_ragged :
    (∀ i j, i < 3 → j < 10 →
      (transposeSubmit 3 10 ⟨fun k => k, fun _ => 0, []⟩).2.B (i * 10 + j) =
          (trans 3 10 ⟨fun k => k, fun _ => 0, []⟩).2.B (i * 10 + j) ∧
        (transposeSubmit 3 10 ⟨fun k => k, fun _ => 0, []⟩).2.B (i * 10 + j) = j * 3 + i) ∧
      (transposeSubmit 3 10 ⟨fun k => k, fun _ => 0, []⟩).2.A = (fun k => k) ∧
      ∀ x ∈ (transposeSubmit 3 10 ⟨fun k => k, fun _ => 0, []⟩).2.trace,
        x.place 3 10 < 256 * 256 :=
  transposeSubmit_agrees (by decide) (by decide) (fun k => k) (fun _ => 0)

end Claims

end SystemsLabs.Transpose
