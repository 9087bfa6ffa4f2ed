import SystemsLabs.Transpose.Guarantees

/-!
# Every access once

In whatever order the blocks go through the matrices, no element is read twice and no cell is written
twice. So the submitted transposition does what the plain one does in another order, and besides it
copies the elements of the diagonal below the last column.
-/

namespace SystemsLabs.Transpose
open Library

variable {α : Type*} {M N i j ROW COL k r r' c c' : ℕ} {S : Set Access} {v : α}

/-- The element of `A` that an access is about. -/
def Access.element : Access → ℕ × ℕ
  | Access.readA i j => (i, j)
  | Access.writeB i j => (j, i)

/-- The accesses to the elements in some rows and columns. -/
def region (r r' c c' : ℕ) : Set Access :=
  {x | (r ≤ x.element.1 ∧ x.element.1 < r') ∧ c ≤ x.element.2 ∧ x.element.2 < c'}

abbrev Once (p : StateM (Arrays α) PUnit) (S : Set Access) : Prop := Prepends Arrays.trace p S

lemma once_load {p : α → StateM (Arrays α) PUnit} (h : ∀ v, Once (p v) S)
    (hS : Access.readA i j ∉ S) : Once (load M i j >>= p) ({Access.readA i j} ∪ S) := by
  intro s
  obtain ⟨l, heq, hl, hlS⟩ :=
    h (s.A (i * M + j)) { s with trace := Access.readA i j :: s.trace }
  refine ⟨l ++ [Access.readA i j], ?_, ?_, ?_⟩
  · rw [List.append_assoc]
    exact heq
  · apply hl.append (List.nodup_singleton _)
    intro x hx hx'
    exact hS (List.mem_singleton.mp hx' ▸ hlS x hx)
  · intro x hx
    exact (List.mem_append.mp hx).elim (fun h => Or.inr (hlS x h))
      (fun h => Or.inl (List.mem_singleton.mp h))

lemma once_store : Once (store N i j v) {Access.writeB i j} :=
  fun _ => ⟨[Access.writeB i j], rfl, by simp, by simp⟩

lemma once_copy : Once (load (α := α) M i j >>= fun v => store N j i v)
    (region i (i + 1) j (j + 1)) := by
  apply (once_load (fun _ => once_store) (by simp)).mono
  rintro x (rfl | rfl)
  · exact ⟨⟨le_rfl, Nat.lt_succ_self i⟩, le_rfl, Nat.lt_succ_self j⟩
  · exact ⟨⟨le_rfl, Nat.lt_succ_self i⟩, le_rfl, Nat.lt_succ_self j⟩

/-! ### Loops -/

lemma multiples_apart {x : ℕ} (hi : k ∣ i) (hj : k ∣ j) (hx : i ≤ x ∧ x < i + k)
    (hx' : j ≤ x ∧ x < j + k) : i = j := by
  have hdiv : ∀ i, k ∣ i → i ≤ x ∧ x < i + k → x / k * k = i := by
    rintro _ ⟨a, rfl⟩ ⟨hle, hlt⟩
    rw [mul_comm k a] at *
    rw [Nat.div_eq_of_lt_le hle (by rwa [Nat.succ_mul])]
  rw [← hdiv i hi hx, hdiv j hj hx']

/-- A loop over groups of `k` rows. -/
lemma once_rows {l : List ℕ} {body : ℕ → StateM (Arrays α) PUnit} (hl : l.Nodup)
    (hk : ∀ i ∈ l, k ∣ i ∧ r ≤ i ∧ i + k ≤ r')
    (h : ∀ i ∈ l, Once (body i) (region i (i + k) c c')) : Once (l.forM body) (region r r' c c') := by
  apply (Prepends.forM hl h ?_).mono
  · rintro x ⟨i, hi, hrow, hcol⟩
    have := hk i hi
    exact ⟨by omega, hcol⟩
  · rintro i hi j hj hne x ⟨hx, -⟩ ⟨hx', -⟩
    exact hne (multiples_apart (hk i hi).1 (hk j hj).1 hx hx')

/-- A loop over groups of `k` columns. -/
lemma once_columns {l : List ℕ} {body : ℕ → StateM (Arrays α) PUnit} (hl : l.Nodup)
    (hk : ∀ j ∈ l, k ∣ j ∧ c ≤ j ∧ j + k ≤ c')
    (h : ∀ j ∈ l, Once (body j) (region r r' j (j + k))) : Once (l.forM body) (region r r' c c') := by
  apply (Prepends.forM hl h ?_).mono
  · rintro x ⟨j, hj, hrow, hcol⟩
    have := hk j hj
    exact ⟨hrow, by omega⟩
  · rintro i hi j hj hne x ⟨-, hx⟩ ⟨-, hx'⟩
    exact hne (multiples_apart (hk i hi).1 (hk j hj).1 hx hx')

lemma nodup_upTo {lo hi : ℕ} : (upTo lo hi).Nodup := List.nodup_range' ..

lemma nodup_byEight {hi : ℕ} : (byEight hi).Nodup := List.nodup_range' 8 (by norm_num)

/-! ### The kernels -/

lemma once_blocking_off (hne : ROW ≠ COL) :
    Once (blocking (α := α) M N ROW COL) (region ROW (ROW + 8) COL (COL + 8)) := by
  rw [blocking, if_neg hne]
  apply once_columns nodup_upTo (k := 1)
  · intro row hrow
    have := mem_upTo.mp hrow
    omega
  · intro row _
    apply once_rows nodup_upTo (k := 1)
    · intro col hcol
      have := mem_upTo.mp hcol
      omega
    · exact fun col _ => once_copy

lemma once_blockingDiag :
    Once (blockingDiag (α := α) M N ROW ROW) (region ROW (ROW + 8) ROW (ROW + 8)) := by
  apply once_rows nodup_upTo (k := 1)
  · intro row hrow
    have := mem_upTo.mp hrow
    omega
  · intro row hrow
    have hrow := mem_upTo.mp hrow
    have hcols : Once (α := α) ((upTo ROW (min M (ROW + 8))).forM fun col =>
        if row = col then pure ⟨⟩ else load M row col >>= fun v => store N col row v)
        {x | x ∈ region row (row + 1) ROW (ROW + 8) ∧ row ≠ x.element.2} := by
      apply (Prepends.forM nodup_upTo (P := fun col =>
        {x | x ∈ region row (row + 1) col (col + 1) ∧ row ≠ col}) ?_ ?_).mono
      · rintro x ⟨col, hcol, ⟨hx, hx'⟩, hne⟩
        have := mem_upTo.mp hcol
        exact ⟨⟨hx, by omega⟩, by omega⟩
      · intro col _
        by_cases heq : row = col
        · rw [if_pos heq]
          exact prepends_pure
        · rw [if_neg heq]
          exact once_copy.mono fun x hx => ⟨hx, heq⟩
      · rintro col _ col' _ hne x ⟨⟨-, hx⟩, -⟩ ⟨⟨-, hx'⟩, -⟩
        omega
    have hstore : ∀ v : α, Once (store N row row v) {Access.writeB row row} := fun _ => once_store
    have hrest := fun v => hcols.seq (hstore v) (by
      rintro _ ⟨-, hne⟩ rfl
      exact hne rfl)
    apply (once_load hrest ?_).mono
    · rintro x (rfl | ⟨hx, -⟩ | rfl)
      · exact ⟨⟨le_rfl, Nat.lt_succ_self row⟩, by simp only [Access.element]; omega⟩
      · exact hx
      · exact ⟨⟨le_rfl, Nat.lt_succ_self row⟩, by simp only [Access.element]; omega⟩
    · rintro (⟨-, hne⟩ | hx)
      · exact hne rfl
      · cases hx

lemma once_stores (i c : ℕ) (v0 v1 v2 v3 : α) : Once (store N (c + 0) i v0 >>= fun _ =>
    store N (c + 1) i v1 >>= fun _ => store N (c + 2) i v2 >>= fun _ => store N (c + 3) i v3)
    {x | ∃ j, x = Access.writeB j i ∧ c ≤ j ∧ j < c + 4} := by
  have hstore : ∀ j (v : α), Once (store N j i v) {Access.writeB j i} := fun _ _ => once_store
  have h23 := (hstore (c + 2) v2).seq (hstore (c + 3) v3) (by simp)
  have h123 := (hstore (c + 1) v1).seq h23 (by simp)
  apply ((hstore (c + 0) v0).seq h123 (by simp)).mono
  rintro x (rfl | rfl | rfl | rfl)
  · exact ⟨c + 0, rfl, by omega⟩
  · exact ⟨c + 1, rfl, by omega⟩
  · exact ⟨c + 2, rfl, by omega⟩
  · exact ⟨c + 3, rfl, by omega⟩

lemma once_four (i c : ℕ) : Once (α := α) (do
    let t0 ← load M i (c + 0)
    let t1 ← load M i (c + 1)
    let t2 ← load M i (c + 2)
    let t3 ← load M i (c + 3)
    store N (c + 0) i t0
    store N (c + 1) i t1
    store N (c + 2) i t2
    store N (c + 3) i t3) (region i (i + 1) c (c + 4)) := by
  apply Prepends.mono
  · apply once_load
    · intro v0
      apply once_load
      · intro v1
        apply once_load
        · intro v2
          apply once_load
          · exact once_stores i c v0 v1 v2
          · simp
        · simp
      · simp
    · simp
  · rintro x (rfl | rfl | rfl | rfl | ⟨j, rfl, hj⟩) <;>
    · simp only [region, Access.element, Set.mem_ofPred_eq]
      omega

lemma once_blocking64 :
    Once (blocking64 (α := α) M N ROW COL) (region ROW (ROW + 8) COL (COL + 8)) := by
  have hleft := (Prepends.forM (@nodup_upTo 0 8)
    (fun i _ => once_four (α := α) (M := M) (N := N) (ROW + i) COL) (by
      rintro i _ j _ hne x ⟨hx, -⟩ ⟨hx', -⟩
      omega)).mono (T := region ROW (ROW + 8) COL (COL + 4)) (by
    rintro x ⟨i, hi, hx, hx'⟩
    have := mem_upTo.mp hi
    exact ⟨by omega, hx'⟩)
  have hright := (Prepends.forM (List.nodup_reverse.mpr (@nodup_upTo 1 8))
    (fun i _ => once_four (α := α) (M := M) (N := N) (ROW + i) (COL + 4)) (by
      rintro i _ j _ hne x ⟨hx, -⟩ ⟨hx', -⟩
      omega)).mono (T := region (ROW + 1) (ROW + 8) (COL + 4) (COL + 8)) (by
    rintro x ⟨i, hi, hx, hx'⟩
    have := mem_upTo.mp (List.mem_reverse.mp hi)
    exact ⟨by omega, by omega⟩)
  -- the first row of the right half is stored last
  have hbody := fun v0 v1 v2 v3 : α => hleft.seq
    (hright.seq (once_stores (N := N) ROW (COL + 4) v0 v1 v2 v3) (by
      rintro _ ⟨hx, -⟩ ⟨j, rfl, -⟩
      simp only [Access.element] at hx
      omega)) (by
    rintro x ⟨-, hx⟩ (⟨-, hx'⟩ | ⟨j, rfl, hj⟩)
    · omega
    · simp only [Access.element] at hx
      omega)
  have hread : ∀ j, COL + 4 ≤ j → Access.readA ROW j ∉ region ROW (ROW + 8) COL (COL + 4) ∪
      (region (ROW + 1) (ROW + 8) (COL + 4) (COL + 8) ∪
        {x | ∃ j, x = Access.writeB j ROW ∧ COL + 4 ≤ j ∧ j < COL + 4 + 4}) := by
    rintro j hj (⟨-, hx⟩ | ⟨hx, -⟩ | ⟨j, hx, -⟩)
    · simp only [Access.element] at hx
      omega
    · simp only [Access.element] at hx
      omega
    · cases hx
  apply Prepends.mono
  · apply once_load
    · intro v0
      apply once_load
      · intro v1
        apply once_load
        · intro v2
          apply once_load
          · exact hbody v0 v1 v2
          · exact hread (COL + 7) (by omega)
        · simp [hread (COL + 6) (by omega)]
      · simp [hread (COL + 5) (by omega)]
    · simp [hread (COL + 4) (by omega)]
  · have hfirst : ∀ j, COL ≤ j → j < COL + 8 →
        (ROW ≤ ROW ∧ ROW < ROW + 8) ∧ COL ≤ j ∧ j < COL + 8 := fun j hj hj' =>
      ⟨⟨le_rfl, by omega⟩, hj, hj'⟩
    rintro x (rfl | rfl | rfl | rfl | ⟨hx, hx'⟩ | ⟨hx, hx'⟩ | ⟨j, rfl, hj⟩)
    · exact hfirst (COL + 4) (by omega) (by omega)
    · exact hfirst (COL + 5) (by omega) (by omega)
    · exact hfirst (COL + 6) (by omega) (by omega)
    · exact hfirst (COL + 7) (by omega) (by omega)
    · exact ⟨hx, by omega⟩
    · exact ⟨by omega, by omega⟩
    · exact hfirst j (by omega) (by omega)

/-- The blocks are apart, on the diagonal too. -/
lemma once_block : Once ((if M = 64 ∧ N = 64 then blocking64 (α := α) else blocking) M N ROW COL)
    (region ROW (ROW + 8) COL (COL + 8)) := by
  by_cases h64 : M = 64 ∧ N = 64
  · rw [if_pos h64]
    exact once_blocking64
  · rw [if_neg h64]
    by_cases hdiag : ROW = COL
    · subst hdiag
      rw [blocking, if_pos rfl]
      exact once_blockingDiag
    · exact once_blocking_off hdiag

lemma once_transposeSubmit : Once (transposeSubmit (α := α) M N) (region 0 (N + 8) 0 (M + 8)) := by
  apply once_rows nodup_byEight (k := 8)
  · intro row hrow
    have := mem_byEight.mp hrow
    omega
  · intro row _
    apply once_columns nodup_byEight (k := 8)
    · intro col hcol
      have := mem_byEight.mp hcol
      omega
    · exact fun col _ => once_block

lemma once_trans : Once (trans (α := α) M N) (region 0 N 0 M) := by
  apply once_rows nodup_upTo (k := 1)
  · intro i hi
    have := mem_upTo.mp hi
    omega
  · intro i _
    apply once_columns nodup_upTo (k := 1)
    · intro j hj
      have := mem_upTo.mp hj
      omega
    · exact fun j _ => once_copy

/-! ### The accesses together -/

instance (M i : ℕ) : Decidable (Stray M i) := inferInstanceAs (Decidable (_ ∧ _))

def strays (M N : ℕ) : List ℕ := (List.range N).filter (fun i => Stray M i)

def strayCopies (M N : ℕ) : List Access :=
  (strays M N).flatMap (fun i => [Access.readA i i, Access.writeB i i])

lemma mem_strays : i ∈ strays M N ↔ i < N ∧ Stray M i := by simp [strays]

lemma mem_strayCopies {x : Access} : x ∈ strayCopies M N ↔ ∃ i, i < N ∧ Stray M i ∧ x ∈ copy i i := by
  simp only [strayCopies, List.mem_flatMap, mem_strays, and_assoc]
  constructor
  · rintro ⟨i, hi, hstray, hx⟩
    have hcopy : x = Access.readA i i ∨ x = Access.writeB i i := by simpa using hx
    exact ⟨i, hi, hstray, hcopy⟩
  · rintro ⟨i, hi, hstray, hx⟩
    have hcopy : x = Access.readA i i ∨ x = Access.writeB i i := hx
    exact ⟨i, hi, hstray, by simpa using hcopy⟩

lemma nodup_strayCopies : (strayCopies M N).Nodup := by
  rw [strayCopies, List.nodup_flatMap]
  constructor
  · intro i _
    simp
  · apply ((List.nodup_range).filter _).imp
    intro i j hne x hx hx'
    simp only [List.mem_cons, List.not_mem_nil, or_false] at hx hx'
    rcases hx with rfl | rfl <;> rcases hx' with hx' | hx' <;> simp_all

lemma length_strayCopies : (strayCopies M N).length = 2 * (strays M N).length := by
  rw [strayCopies, List.length_flatMap]
  simp [mul_comm]

section Trace

variable {a b : ℕ → α}

lemma Once.nodup {p : StateM (Arrays α) PUnit} (h : Once p S) : (p ⟨a, b, []⟩).2.trace.Nodup := by
  obtain ⟨l, heq, hl, -⟩ := h ⟨a, b, []⟩
  rw [heq]
  simpa using hl

lemma mem_trans_trace {x : Access} : x ∈ (trans M N ⟨a, b, []⟩).2.trace ↔ x ∈ transSet M N := by
  rw [(leaves_trans ⟨a, b, []⟩ rfl).trace]
  simp

/-- A loop adds the accesses of its rounds. -/
lemma length_forM {l : List ℕ} {body : ℕ → StateM (Arrays α) PUnit} {n : ℕ}
    (h : ∀ k s, (body k s).2.trace.length = s.trace.length + n) (s : Arrays α) :
    (l.forM body s).2.trace.length = s.trace.length + l.length * n := by
  induction l generalizing s with
  | nil => exact (Nat.zero_mul n).symm ▸ rfl
  | cons k l ih =>
    have hrest := ih (body k s).2
    rw [h] at hrest
    rw [List.length_cons, Nat.succ_mul, Nat.add_comm (l.length * n), ← Nat.add_assoc]
    exact hrest

lemma length_trans_trace : (trans M N ⟨a, b, []⟩).2.trace.length = 2 * (N * M) := by
  have hrow : ∀ i (s : Arrays α), ((upTo 0 M).forM (fun j => load M i j >>= fun tmp =>
      store N j i tmp) s).2.trace.length = s.trace.length + M * 2 := by
    intro i s
    have hlength : (upTo 0 M).length = M := by simp [upTo]
    rw [length_forM (n := 2) (fun j s => rfl), hlength]
  have hlength : (upTo 0 N).length = N := by simp [upTo]
  rw [trans, length_forM hrow, hlength]
  simp only [List.length_nil]
  ring

lemma mem_submit_trace {x : Access} : x ∈ (transposeSubmit M N ⟨a, b, []⟩).2.trace ↔
    x ∈ (trans M N ⟨a, b, []⟩).2.trace ++ strayCopies M N := by
  rw [mem_trace, List.mem_append, mem_trans_trace, mem_strayCopies]
  constructor
  · rintro ⟨i, j, hi, hj | ⟨rfl, hstray⟩, hx⟩
    · exact Or.inl ⟨i, j, hi, hj, hx⟩
    · exact Or.inr ⟨i, hi, hstray, hx⟩
  · rintro (⟨i, j, hi, hj, hx⟩ | ⟨i, hi, hstray, hx⟩)
    · exact ⟨i, j, hi, Or.inl hj, hx⟩
    · exact ⟨i, i, hi, Or.inr ⟨rfl, hstray⟩, hx⟩

/-- The stray elements are in none of the columns of `A`. -/
lemma disjoint_strayCopies : List.Disjoint (trans M N ⟨a, b, []⟩).2.trace (strayCopies M N) := by
  intro x hx hx'
  obtain ⟨i, j, -, hj, hcopy⟩ := mem_trans_trace.mp hx
  obtain ⟨k, -, hstray, hcopy'⟩ := mem_strayCopies.mp hx'
  have hM := hstray.1
  rcases hcopy with rfl | rfl
  · obtain ⟨rfl, rfl⟩ := mem_copy_read.mp hcopy'
    omega
  · obtain ⟨rfl, rfl⟩ := mem_copy_write.mp hcopy'
    omega

lemma submit_trace_perm : ((transposeSubmit M N ⟨a, b, []⟩).2.trace).Perm
    ((trans M N ⟨a, b, []⟩).2.trace ++ strayCopies M N) := by
  have hsubmit : (transposeSubmit M N ⟨a, b, []⟩).2.trace.Nodup := once_transposeSubmit.nodup
  have hplain : (trans M N ⟨a, b, []⟩).2.trace.Nodup := once_trans.nodup
  have hboth := hplain.append nodup_strayCopies disjoint_strayCopies
  exact (List.perm_ext_iff_of_nodup hsubmit hboth).mpr fun _ => mem_submit_trace

lemma length_submit_trace : (transposeSubmit M N ⟨a, b, []⟩).2.trace.length =
    2 * (N * M + (strays M N).length) := by
  rw [submit_trace_perm.length_eq, List.length_append, length_trans_trace, length_strayCopies]
  ring

end Trace

/-- The submitted transposition accesses what the plain one does, in another order, and the stray
elements of the diagonal; it makes no access twice. -/
theorem trace_perm (M N : ℕ) (a b : ℕ → α) :
    (transposeSubmit M N ⟨a, b, []⟩).2.trace.Nodup ∧
      ((transposeSubmit M N ⟨a, b, []⟩).2.trace).Perm
        ((trans M N ⟨a, b, []⟩).2.trace ++ strayCopies M N) ∧
      (transposeSubmit M N ⟨a, b, []⟩).2.trace.length = 2 * (N * M + (strays M N).length) :=
  ⟨once_transposeSubmit.nodup, submit_trace_perm, length_submit_trace⟩

end SystemsLabs.Transpose
