import SystemsLabs.Transpose.Kernels

/-!
# The accesses of the kernels

Every kernel copies elements from `A` to `B`. A copy inside the matrices reaches its own cell of
`B`, and one outside them no cell at all, so only the set of the copies matters.
-/

namespace SystemsLabs.Transpose
open Library

variable {α : Type*} {M N i j : ℕ} {A : ℕ → α} {S T : Set Access}

/-- What the accesses `S` do to the arrays. -/
structure Effect (M N : ℕ) (S : Set Access) (s s' : Arrays α) : Prop where
  source : s'.A = s.A
  trace : ∀ x, x ∈ s'.trace ↔ x ∈ s.trace ∨ x ∈ S
  written : ∀ i j, i < M → j < N → Access.writeB i j ∈ S → s'.B (i * N + j) = s.A (j * M + i)
  kept : ∀ i j, i < M → j < N → Access.writeB i j ∉ S → s'.B (i * N + j) = s.B (i * N + j)

/-- The effect of a program that starts with the matrix `A`. -/
def EffectOn (M N : ℕ) (A : ℕ → α) (S : Set Access) (s s' : Arrays α) : Prop :=
  s.A = A → Effect M N S s s'

lemma footprint (M N : ℕ) (A : ℕ → α) : Footprint (EffectOn M N A) where
  refl s _ := ⟨rfl, by simp, by simp, fun _ _ _ _ _ => rfl⟩
  trans := by
    intro S T s t u hst htu hs
    have h := hst hs
    have h' := htu (h.source.trans hs)
    constructor
    case source => exact h'.source.trans h.source
    case trace =>
      intro x
      rw [h'.trace, h.trace, Set.mem_union, or_assoc]
    case written =>
      intro i j hi hj hmem
      by_cases hT : Access.writeB i j ∈ T
      · rw [h'.written i j hi hj hT, h.source]
      · rw [h'.kept i j hi hj hT, h.written i j hi hj (hmem.resolve_right hT)]
    case kept =>
      intro i j hi hj hmem
      rw [Set.mem_union, not_or] at hmem
      rw [h'.kept i j hi hj hmem.2, h.kept i j hi hj hmem.1]

/-- Two cells of a row-major matrix have different places. -/
lemma place_inj {i i' j' : ℕ} (hj : j < N) (hj' : j' < N) (h : i * N + j = i' * N + j') :
    i = i' ∧ j = j' := by
  have hmod : ∀ {i j : ℕ}, j < N → (i * N + j) % N = j := by
    intro i j hj
    rw [Nat.mul_comm, Nat.mul_add_mod, Nat.mod_eq_of_lt hj]
  have heq : j = j' := by rw [← hmod (i := i) hj, h, hmod hj']
  subst heq
  exact ⟨Nat.eq_of_mul_eq_mul_right (by omega) (Nat.add_right_cancel h), rfl⟩

lemma leaves_load {p : α → StateM (Arrays α) PUnit}
    (h : Leaves (EffectOn M N A) (p (A (i * M + j))) S) :
    Leaves (EffectOn M N A) (load M i j >>= p) ({Access.readA i j} ∪ S) := by
  intro s hs
  have hload : (load M i j >>= p) s =
      p (A (i * M + j)) { s with trace := Access.readA i j :: s.trace } := by
    rw [← hs]
    rfl
  rw [hload]
  have heffect := h { s with trace := Access.readA i j :: s.trace } hs
  constructor
  case source => exact heffect.source
  case trace =>
    intro x
    rw [heffect.trace]
    simp only [List.mem_cons, Set.mem_union, Set.mem_singleton_iff]
    tauto
  case written =>
    intro i' j' hi' hj' hmem
    exact heffect.written i' j' hi' hj' (hmem.resolve_left (by simp))
  case kept =>
    intro i' j' hi' hj' hmem
    exact heffect.kept i' j' hi' hj' (fun h => hmem (Or.inr h))

lemma leaves_store (hj : j < N) :
    Leaves (EffectOn M N A) (store N i j (A (j * M + i))) {Access.writeB i j} := by
  intro s hs
  constructor
  case source => rfl
  case trace =>
    intro x
    simp [store, or_comm]
  case written =>
    intro i' j' hi' hj' hmem
    obtain ⟨rfl, rfl⟩ := Access.writeB.inj hmem
    simp [store, hs]
  case kept =>
    intro i' j' hi' hj' hmem
    have hne : i' * N + j' ≠ i * N + j := by
      intro heq
      obtain ⟨rfl, rfl⟩ := place_inj hj' hj heq
      exact hmem rfl
    simp [store, Function.update_of_ne hne]

/-- The accesses that copy `A[i][j]`. -/
def copy (i j : ℕ) : Set Access := {Access.readA i j} ∪ {Access.writeB j i}

lemma leaves_copy (hi : i < N) :
    Leaves (EffectOn M N A) (load M i j >>= fun v => store N j i v) (copy i j) :=
  leaves_load (leaves_store hi)

/-- The accesses of an 8 x 8 block. On the diagonal `blockingDiag` does not look at `M`. -/
def blockSet (M N ROW COL : ℕ) : Set Access :=
  {x | ∃ i j, ROW ≤ i ∧ i < ROW + 8 ∧ i < N ∧ COL ≤ j ∧ j < COL + 8 ∧
    (j < M ∨ ROW = COL ∧ i = j) ∧ x ∈ copy i j}

lemma mem_upTo {lo hi x : ℕ} : x ∈ upTo lo hi ↔ lo ≤ x ∧ x < hi := by
  rw [upTo, List.mem_range'_1]
  omega

lemma mem_byEight {hi x : ℕ} : x ∈ byEight hi ↔ 8 ∣ x ∧ x < hi := by
  rw [byEight, List.mem_range']
  constructor
  · rintro ⟨k, hk, rfl⟩
    omega
  · rintro ⟨⟨k, rfl⟩, hk⟩
    exact ⟨k, by omega, by omega⟩

section Kernels

variable {ROW COL p q : ℕ}

@[simp] lemma mem_copy_read : Access.readA p q ∈ copy i j ↔ p = i ∧ q = j := by
  simp [copy]

@[simp] lemma mem_copy_write : Access.writeB q p ∈ copy i j ↔ p = i ∧ q = j := by
  simp [copy, and_comm]

lemma mem_blockSet_read : Access.readA p q ∈ blockSet M N ROW COL ↔
    ROW ≤ p ∧ p < ROW + 8 ∧ p < N ∧ COL ≤ q ∧ q < COL + 8 ∧ (q < M ∨ ROW = COL ∧ p = q) := by
  constructor
  · rintro ⟨i, j, hi, hi', hN, hj, hj', hM, hx⟩
    obtain ⟨rfl, rfl⟩ := mem_copy_read.mp hx
    exact ⟨hi, hi', hN, hj, hj', hM⟩
  · rintro ⟨hi, hi', hN, hj, hj', hM⟩
    exact ⟨p, q, hi, hi', hN, hj, hj', hM, mem_copy_read.mpr ⟨rfl, rfl⟩⟩

lemma mem_blockSet_write : Access.writeB q p ∈ blockSet M N ROW COL ↔
    ROW ≤ p ∧ p < ROW + 8 ∧ p < N ∧ COL ≤ q ∧ q < COL + 8 ∧ (q < M ∨ ROW = COL ∧ p = q) := by
  constructor
  · rintro ⟨i, j, hi, hi', hN, hj, hj', hM, hx⟩
    obtain ⟨rfl, rfl⟩ := mem_copy_write.mp hx
    exact ⟨hi, hi', hN, hj, hj', hM⟩
  · rintro ⟨hi, hi', hN, hj, hj', hM⟩
    exact ⟨p, q, hi, hi', hN, hj, hj', hM, mem_copy_write.mpr ⟨rfl, rfl⟩⟩

/-- A block off the diagonal. -/
lemma leaves_blocking_off (hne : ROW ≠ COL) :
    Leaves (EffectOn M N A) (blocking M N ROW COL) (blockSet M N ROW COL) := by
  rw [blocking, if_neg hne]
  have hloop := (footprint M N A).forM (l := upTo COL (min (COL + 8) M))
    (fun row _ => (footprint M N A).forM (l := upTo ROW (min (ROW + 8) N))
      (fun col hcol => leaves_copy (M := M) (i := col) (j := row) (by
        have := (mem_upTo.mp hcol).2
        omega)))
  apply hloop.congr
  ext x
  simp only [Set.mem_iUnion, mem_upTo, exists_prop]
  constructor
  · rintro ⟨row, hrow, col, hcol, hx⟩
    exact ⟨col, row, by omega, by omega, by omega, by omega, by omega, by omega, hx⟩
  · rintro ⟨i, j, hi, hi', hN, hj, hj', hM, hx⟩
    exact ⟨j, by omega, i, by omega, hx⟩

/-- A block on the diagonal. -/
lemma leaves_blockingDiag :
    Leaves (EffectOn M N A) (blockingDiag M N ROW ROW) (blockSet M N ROW ROW) := by
  rw [blockingDiag]
  have hrow : ∀ row ∈ upTo ROW (min N (ROW + 8)), Leaves (EffectOn M N A)
      (load M row row >>= fun tmp => (upTo ROW (min M (ROW + 8))).forM (fun col =>
        if row = col then pure ⟨⟩ else load M row col >>= fun v => store N col row v) >>=
          fun _ => store N row row tmp)
      ({Access.readA row row} ∪ ((⋃ col ∈ upTo ROW (min M (ROW + 8)),
        if row = col then ∅ else copy row col) ∪ {Access.writeB row row})) := by
    intro row hrow
    have hN : row < N := by
      have := (mem_upTo.mp hrow).2
      omega
    apply leaves_load
    apply (footprint M N A).seq
    · apply (footprint M N A).forM
      intro col _
      by_cases heq : row = col
      · rw [if_pos heq, if_pos heq]
        exact (footprint M N A).pure
      · rw [if_neg heq, if_neg heq]
        exact leaves_copy hN
    · exact leaves_store hN
  apply ((footprint M N A).forM hrow).congr
  ext x
  simp only [Set.mem_iUnion, mem_upTo, exists_prop, Set.mem_union, Set.mem_singleton_iff]
  constructor
  · rintro ⟨row, hrow, hx | ⟨col, hcol, hx⟩ | hx⟩
    · exact ⟨row, row, by omega, by omega, by omega, by omega, by omega, Or.inr ⟨rfl, rfl⟩, Or.inl hx⟩
    · by_cases heq : row = col
      · simp [heq] at hx
      · rw [if_neg heq] at hx
        exact ⟨row, col, by omega, by omega, by omega, by omega, by omega, by omega, hx⟩
    · exact ⟨row, row, by omega, by omega, by omega, by omega, by omega, Or.inr ⟨rfl, rfl⟩, Or.inr hx⟩
  · rintro ⟨i, j, hi, hi', hN, hj, hj', hM, hx⟩
    refine ⟨i, by omega, ?_⟩
    by_cases heq : i = j
    · subst heq
      rcases hx with hx | hx
      · exact Or.inl hx
      · exact Or.inr (Or.inr hx)
    · exact Or.inr (Or.inl ⟨j, by omega, by rwa [if_neg heq]⟩)

/-- Four elements of a row. -/
def fourSet (i c : ℕ) : Set Access := {x | ∃ j, c ≤ j ∧ j < c + 4 ∧ x ∈ copy i j}

lemma leaves_four (hi : i < N) (c : ℕ) : Leaves (EffectOn M N A) (do
    let t0 ← load M i (c + 0)
    let t1 ← load M i (c + 1)
    let t2 ← load M i (c + 2)
    let t3 ← load M i (c + 3)
    store N (c + 0) i t0
    store N (c + 1) i t1
    store N (c + 2) i t2
    store N (c + 3) i t3) (fourSet i c) := by
  have hstore : ∀ j, Leaves (EffectOn M N A) (store N j i (A (i * M + j))) {Access.writeB j i} :=
    fun j => leaves_store hi
  apply Leaves.congr
  · apply leaves_load
    apply leaves_load
    apply leaves_load
    apply leaves_load
    apply (footprint M N A).seq (hstore (c + 0))
    apply (footprint M N A).seq (hstore (c + 1))
    exact (footprint M N A).seq (hstore (c + 2)) (hstore (c + 3))
  ext x
  simp only [Set.mem_union, Set.mem_singleton_iff, fourSet, Set.mem_ofPred_eq, copy]
  constructor
  · rintro (hx | hx | hx | hx | hx | hx | hx | hx)
    · exact ⟨c + 0, by omega, by omega, Or.inl hx⟩
    · exact ⟨c + 1, by omega, by omega, Or.inl hx⟩
    · exact ⟨c + 2, by omega, by omega, Or.inl hx⟩
    · exact ⟨c + 3, by omega, by omega, Or.inl hx⟩
    · exact ⟨c + 0, by omega, by omega, Or.inr hx⟩
    · exact ⟨c + 1, by omega, by omega, Or.inr hx⟩
    · exact ⟨c + 2, by omega, by omega, Or.inr hx⟩
    · exact ⟨c + 3, by omega, by omega, Or.inr hx⟩
  · rintro ⟨j, hj, hj', hx⟩
    obtain rfl | rfl | rfl | rfl : j = c + 0 ∨ j = c + 1 ∨ j = c + 2 ∨ j = c + 3 := by omega
    all_goals tauto

@[simp] lemma mem_fourSet_read {c : ℕ} :
    Access.readA p q ∈ fourSet i c ↔ p = i ∧ c ≤ q ∧ q < c + 4 := by
  constructor
  · rintro ⟨j, hj, hj', hx⟩
    obtain ⟨rfl, rfl⟩ := mem_copy_read.mp hx
    exact ⟨rfl, hj, hj'⟩
  · rintro ⟨rfl, hq, hq'⟩
    exact ⟨q, hq, hq', mem_copy_read.mpr ⟨rfl, rfl⟩⟩

@[simp] lemma mem_fourSet_write {c : ℕ} :
    Access.writeB q p ∈ fourSet i c ↔ p = i ∧ c ≤ q ∧ q < c + 4 := by
  constructor
  · rintro ⟨j, hj, hj', hx⟩
    obtain ⟨rfl, rfl⟩ := mem_copy_write.mp hx
    exact ⟨rfl, hj, hj'⟩
  · rintro ⟨rfl, hq, hq'⟩
    exact ⟨q, hq, hq', mem_copy_write.mpr ⟨rfl, rfl⟩⟩

/-- A block inside the matrices. -/
lemma leaves_blocking64 (hROW : ROW + 8 ≤ N) (hCOL : COL + 8 ≤ M) :
    Leaves (EffectOn M N A) (blocking64 M N ROW COL) (blockSet M N ROW COL) := by
  have hstore : ∀ j, Leaves (EffectOn M N A) (store N j ROW (A (ROW * M + j)))
      {Access.writeB j ROW} := fun j => leaves_store (by omega)
  have hleft : Leaves (EffectOn M N A) ((upTo 0 8).forM _) _ :=
    (footprint M N A).forM (fun i hi => leaves_four (M := M) (i := ROW + i) (A := A) (by
      have := (mem_upTo.mp hi).2
      omega) COL)
  have hright : Leaves (EffectOn M N A) ((upTo 1 8).reverse.forM _) _ :=
    (footprint M N A).forM (fun i hi => leaves_four (M := M) (i := ROW + i) (A := A) (by
      have := (mem_upTo.mp (List.mem_reverse.mp hi)).2
      omega) (COL + 4))
  apply Leaves.congr
  · apply leaves_load
    apply leaves_load
    apply leaves_load
    apply leaves_load
    apply (footprint M N A).seq hleft
    apply (footprint M N A).seq hright
    apply (footprint M N A).seq (hstore (COL + 4))
    apply (footprint M N A).seq (hstore (COL + 5))
    exact (footprint M N A).seq (hstore (COL + 6)) (hstore (COL + 7))
  ext x
  cases x with
  | readA p q =>
    rw [mem_blockSet_read]
    simp only [Set.mem_union, Set.mem_singleton_iff, Set.mem_iUnion, mem_upTo, List.mem_reverse,
      exists_prop, mem_fourSet_read, Access.readA.injEq, reduceCtorEq, or_false]
    constructor
    · rintro (h | h | h | h | ⟨i, h⟩ | ⟨i, h⟩) <;> omega
    · intro h
      by_cases hleft : q < COL + 4
      · exact Or.inr (Or.inr (Or.inr (Or.inr (Or.inl ⟨p - ROW, by omega⟩))))
      · by_cases hrow : p = ROW
        · omega
        · exact Or.inr (Or.inr (Or.inr (Or.inr (Or.inr ⟨p - ROW, by omega⟩))))
  | writeB q p =>
    rw [mem_blockSet_write]
    simp only [Set.mem_union, Set.mem_singleton_iff, Set.mem_iUnion, mem_upTo, List.mem_reverse,
      exists_prop, mem_fourSet_write, Access.writeB.injEq, reduceCtorEq, false_or]
    constructor
    · rintro (⟨i, h⟩ | ⟨i, h⟩ | h | h | h | h) <;> omega
    · intro h
      by_cases hleft : q < COL + 4
      · exact Or.inl ⟨p - ROW, by omega⟩
      · by_cases hrow : p = ROW
        · omega
        · exact Or.inr (Or.inl ⟨p - ROW, by omega⟩)

end Kernels

end SystemsLabs.Transpose
