import SystemsLabs.Csim.Distance

/-!
# Misses that cannot be avoided

There are as many misses as blocks, and more if a set is too small. Where the sets have room for
their blocks there is at most one more: the block of the first access is evicted by the next access
to its set if that is to another block, and may be loaded again.
-/

namespace SystemsLabs.Csim
open Library

/-- The number of the block of an address. -/
def blockOf (b : ℕ) (a : BitVec 64) : BitVec 64 := a >>> b

/-- The number of blocks that are accessed. -/
def blocks (b : ℕ) (as : List (BitVec 64)) : ℕ := (as.map (blockOf b)).dedup.length

/-- Every set has room for its blocks. -/
def Fits (s E b : ℕ) (as : List (BitVec 64)) : Prop :=
  ∀ j < 2 ^ s, (tagsAt s b j as).dedup.length ≤ E

instance (s E b : ℕ) (as : List (BitVec 64)) : Decidable (Fits s E b as) :=
  inferInstanceAs (Decidable (∀ j < 2 ^ s, _))

/-- The second miss on the block of the first access, if it is used again and the next access to its
set is to another block. -/
def reload (s b : ℕ) : List (BitVec 64) → ℕ
  | [] => 0
  | a :: as =>
    let ts := tagsAt s b (index s b a) as
    if ts.contains (tag s b a) ∧ ts.head? ≠ some (tag s b a) then 1 else 0

/-- The eviction of the block of the first access, if the next access to its set is to another
block. -/
def spill (s b : ℕ) : List (BitVec 64) → ℕ
  | [] => 0
  | a :: as =>
    match (tagsAt s b (index s b a) as).head? with
    | some t => if t = tag s b a then 0 else 1
    | none => 0

/-- An access to `a` behind the accesses `as` does not find its block although it was used before. -/
def lostAt (s E b : ℕ) (as : List (BitVec 64)) (a : BitVec 64) : Bool :=
  !hitsAt s E b as a && (as.map (blockOf b)).contains (blockOf b a)

section Blocks

variable {s E b j : ℕ} {as as' : List (BitVec 64)} {a x : BitVec 64}

lemma mem_tagsAt_iff (hs : s < 64) :
    tag s b a ∈ tagsAt s b (index s b a) as ↔ blockOf b a ∈ as.map (blockOf b) := by
  rw [mem_tagsAt, List.mem_map]
  apply exists_congr
  intro x
  rw [← block_eq_iff hs, ← toNat_shiftRight, ← toNat_shiftRight, BitVec.toNat_inj, blockOf, blockOf]

lemma blocks_concat :
    blocks b (as ++ [a]) = blocks b as + (decide (blockOf b a ∉ as.map (blockOf b))).toNat := by
  rw [blocks, List.map_append, List.map_singleton, length_dedup_concat, blocks]
  by_cases ha : blockOf b a ∈ as.map (blockOf b)
  · rw [if_pos ha, decide_eq_false (not_not.mpr ha), Bool.toNat_false]
  · rw [if_neg ha, decide_eq_true ha, Bool.toNat_true]

/-- A miss is the first access to the block, or the block was lost. -/
lemma toNat_not_hitsAt (hs : s < 64) : (!hitsAt s E b as a).toNat =
    (decide (blockOf b a ∉ as.map (blockOf b))).toNat + (lostAt s E b as a).toNat := by
  rw [lostAt]
  by_cases ha : blockOf b a ∈ as.map (blockOf b)
  · rw [List.contains_iff_mem.mpr ha, decide_eq_false (not_not.mpr ha), Bool.and_true, Bool.toNat_false,
      Nat.zero_add]
  · have hmiss : hitsAt s E b as a = false :=
      decide_eq_false fun h => ha ((mem_tagsAt_iff hs).mp h.1)
    have hnew : (as.map (blockOf b)).contains (blockOf b a) = false := by
      rw [← Bool.not_eq_true, List.contains_iff_mem]
      exact ha
    rw [hmiss, decide_eq_true ha, hnew]
    rfl

lemma misses_eq (hs : s < 64) : countAlong (fun as a => !hitsAt s E b as a) [] as =
    blocks b as + countAlong (lostAt s E b) [] as := by
  induction as using List.reverseRecOn with
  | nil => rfl
  | append_singleton as a ih =>
    rw [countAlong_concat, ih, List.nil_append, toNat_not_hitsAt hs, blocks_concat,
      countAlong_concat, List.nil_append]
    omega

/-- A set with room for its blocks has seen fewer than `E` others since the last use of one. -/
lemma length_since_lt_room {ts us : List (BitVec 64)} {t : BitVec 64} (ht : t ∈ ts) (hsub : ts ⊆ us)
    (hroom : us.dedup.length ≤ E) : (since t ts).dedup.length < E := by
  have hnotMem : t ∉ since t ts := by
    intro h
    simpa using List.mem_rtakeWhile_imp h
  have hsubset : t :: since t ts ⊆ us :=
    List.cons_subset.mpr ⟨hsub ht, fun u hu => hsub ((List.rtakeWhile_suffix _ _).subset hu)⟩
  have hle := length_dedup_le hsubset
  rw [List.dedup_cons_of_notMem hnotMem, List.length_cons] at hle
  omega

/-- In a trace that fits, only the block of the first access is lost. -/
lemma lostAt_iff (hs : s < 64) (hfits : Fits s E b as) (hsub : x :: as' ⊆ as) :
    lostAt s E b (x :: as') a = true ↔ index s b a = index s b x ∧ tag s b a = tag s b x ∧
      tag s b x ∉ tagsAt s b (index s b x) as' ∧ tagsAt s b (index s b x) as' ≠ [] := by
  have hroom : tag s b a ∈ tagsAt s b (index s b a) (x :: as') →
      (since (tag s b a) (tagsAt s b (index s b a) (x :: as'))).dedup.length < E := by
    intro hmem
    refine length_since_lt_room hmem ?_ (hfits _ (index_lt hs b a))
    intro t ht
    obtain ⟨y, hy, hytag⟩ := mem_tagsAt.mp ht
    exact mem_tagsAt.mpr ⟨y, hsub hy, hytag⟩
  rw [lostAt, Bool.and_eq_true, Bool.not_eq_true', hitsAt, decide_eq_false_iff_not,
    List.contains_iff_mem, ← mem_tagsAt_iff hs, Reuses, isFirst]
  by_cases hindex : index s b x = index s b a
  · rw [hindex]
    rw [tagsAt_cons, if_pos hindex] at hroom ⊢
    by_cases hlater : tag s b a ∈ tagsAt s b (index s b a) as'
    · have hlt := length_since_lt hlater
      have hmem : tag s b a ∈ tag s b x :: tagsAt s b (index s b a) as' := List.mem_cons_of_mem _ hlater
      apply iff_of_false
      · rintro ⟨hlost, -⟩
        apply hlost
        refine ⟨hmem, hroom hmem, fun _ _ => ?_⟩
        rw [since_cons_of_mem hlater, List.length_cons]
        omega
      · rintro ⟨-, htag, hnever, -⟩
        exact hnever (htag ▸ hlater)
    · by_cases htag : tag s b a = tag s b x
      · rw [← htag] at hroom ⊢
        rw [since_cons_self hlater] at hroom ⊢
        have hmem : tag s b a ∈ tag s b a :: tagsAt s b (index s b a) as' := List.mem_cons_self
        simp [hroom hmem, hlater]
      · have hmem : tag s b a ∉ tag s b x :: tagsAt s b (index s b a) as' := by
          simp [htag, hlater]
        simp [hmem, htag]
  · apply iff_of_false
    · rintro ⟨hlost, hmem⟩
      exact hlost ⟨hmem, hroom hmem, fun hfirst => absurd (of_decide_eq_true hfirst) hindex⟩
    · rintro ⟨heq, -⟩
      exact hindex heq.symm

/-- It is lost at most once. -/
lemma countAlong_reload (j : ℕ) (t : BitVec 64) : countAlong (fun l a => decide
    (index s b a = j ∧ tag s b a = t ∧ t ∉ tagsAt s b j l ∧ tagsAt s b j l ≠ [])) [] as =
      if t ∈ tagsAt s b j as ∧ (tagsAt s b j as).head? ≠ some t then 1 else 0 := by
  induction as using List.reverseRecOn with
  | nil => rfl
  | append_singleton as a ih =>
    rw [countAlong_concat, ih, List.nil_append]
    by_cases hj : index s b a = j
    · subst hj
      rw [tagsAt_concat_self]
      generalize tagsAt s b (index s b a) as = ts
      cases ts with
      | nil => simp [eq_comm]
      | cons u ts =>
        by_cases ht : t ∈ u :: ts
        · have hmem : t ∈ u :: (ts ++ [tag s b a]) := List.mem_append_left [tag s b a] ht
          simp only [ht, hmem, List.cons_append, List.head?_cons, not_true_eq_false, false_and,
            and_false, decide_false, Bool.toNat_false, Nat.add_zero]
        · have hu : u ≠ t := fun h => ht (h ▸ List.mem_cons_self)
          have hmem : t ∈ u :: (ts ++ [tag s b a]) ↔ tag s b a = t := by
            rw [← List.cons_append, List.mem_append, or_iff_right ht, List.mem_singleton, eq_comm]
          by_cases htag : tag s b a = t <;> simp only [ht, hmem, htag, List.cons_append] <;> simp [hu]
    · rw [tagsAt_concat_of_ne hj]
      simp [hj]

lemma countAlong_lostAt (hs : s < 64) (hfits : Fits s E b as) :
    countAlong (lostAt s E b) [] as = reload s b as := by
  cases as with
  | nil => rfl
  | cons x as =>
    have hhead : lostAt s E b [] x = false := by simp [lostAt]
    rw [countAlong, hhead, Bool.toNat_false, Nat.zero_add, List.nil_append, reload]
    simp only [List.contains_iff_mem]
    rw [← countAlong_reload]
    apply countAlong_congr
    rintro l a r rfl
    rw [List.singleton_append, List.nil_append, Bool.eq_iff_iff, decide_eq_true_iff]
    refine lostAt_iff hs hfits ?_
    intro y hy
    simp only [List.mem_cons, List.mem_append] at hy ⊢
    tauto

/-- In a trace that fits, the second access to the set of the first one may evict a block. -/
lemma evictsAt_iff (hs : s < 64) (hfits : Fits s E b as) (hsub : x :: as' ⊆ as)
    (ha : a ∈ as) : evictsAt s E b (x :: as') a = true ↔ index s b a = index s b x ∧
      tagsAt s b (index s b x) as' = [] ∧ tag s b a ≠ tag s b x := by
  have hlost := lostAt_iff (E := E) (a := a) hs hfits hsub
  have hroom : (tag s b a :: tagsAt s b (index s b a) (x :: as')).dedup.length ≤ E := by
    refine le_trans (length_dedup_le ?_) (hfits _ (index_lt hs b a))
    intro t ht
    rcases List.mem_cons.mp ht with rfl | ht
    · exact mem_tagsAt.mpr ⟨a, ha, rfl, rfl⟩
    · obtain ⟨y, hy, hytag⟩ := mem_tagsAt.mp ht
      exact mem_tagsAt.mpr ⟨y, hsub hy, hytag⟩
  rw [lostAt, Bool.and_eq_true, Bool.not_eq_true', List.contains_iff_mem, ← mem_tagsAt_iff hs] at hlost
  rw [evictsAt, Bool.and_eq_true, Bool.not_eq_true', decide_eq_true_iff, Full, isFirst]
  by_cases hmem : tag s b a ∈ tagsAt s b (index s b a) (x :: as')
  · constructor
    · rintro ⟨hmiss, hfull⟩
      obtain ⟨hindex, htag, hnever, hne⟩ := hlost.mp ⟨hmiss, hmem⟩
      rw [hindex, tagsAt_cons, if_pos rfl] at hroom hfull
      rw [htag, List.dedup_cons_of_mem List.mem_cons_self, List.dedup_cons_of_notMem hnever,
        List.length_cons] at hroom
      obtain ⟨u, us, hus⟩ := List.exists_cons_of_ne_nil hne
      rw [hus] at hroom hfull
      simp only [counting, decide_true, List.length_cons] at hfull
      omega
    · rintro ⟨hindex, hnone, hne⟩
      rw [hindex, tagsAt_cons, if_pos rfl, hnone] at hmem
      exact absurd (List.mem_singleton.mp hmem) hne
  · have hmiss : hitsAt s E b (x :: as') a = false := decide_eq_false fun h => hmem h.1
    have hfew : ∀ first, ¬E ≤ (counting first (tagsAt s b (index s b a) (x :: as'))).dedup.length := by
      intro first
      have hsubset : counting first (tagsAt s b (index s b a) (x :: as')) ⊆
          tagsAt s b (index s b a) (x :: as') := counting_subset
      have hle := length_dedup_le hsubset
      rw [List.dedup_cons_of_notMem hmem, List.length_cons] at hroom
      omega
    rw [or_iff_right (hfew _), and_iff_right hmiss, decide_eq_true_iff]
    constructor
    · rintro ⟨hindex, hone⟩
      rw [tagsAt_cons, if_pos hindex] at hmem hone
      rw [hindex]
      exact ⟨rfl, List.length_eq_zero_iff.mp (Nat.succ.inj hone),
        fun heq => hmem (heq ▸ List.mem_cons_self)⟩
    · rintro ⟨hindex, hnone, -⟩
      rw [hindex, tagsAt_cons, if_pos rfl, hnone]
      exact ⟨rfl, rfl⟩

lemma countAlong_spill (j : ℕ) (t : BitVec 64) : countAlong (fun l a => decide
    (index s b a = j ∧ tagsAt s b j l = [] ∧ tag s b a ≠ t)) [] as =
      match (tagsAt s b j as).head? with
      | some u => if u = t then 0 else 1
      | none => 0 := by
  induction as using List.reverseRecOn with
  | nil => rfl
  | append_singleton as a ih =>
    rw [countAlong_concat, ih, List.nil_append]
    by_cases hj : index s b a = j
    · subst hj
      rw [tagsAt_concat_self]
      cases tagsAt s b (index s b a) as with
      | nil => by_cases htag : tag s b a = t <;> simp [htag]
      | cons u ts => simp
    · rw [tagsAt_concat_of_ne hj]
      simp [hj]

lemma countAlong_evictsAt (hs : s < 64) (hE : 0 < E) (hfits : Fits s E b as) :
    countAlong (evictsAt s E b) [] as = spill s b as := by
  cases as with
  | nil => rfl
  | cons x as =>
    have hhead : evictsAt s E b [] x = false := by
      simp [evictsAt, Full, tagsAt, isFirst, hE.ne']
    rw [countAlong, hhead, Bool.toNat_false, Nat.zero_add, List.nil_append, spill, ← countAlong_spill]
    apply countAlong_congr
    rintro l a r rfl
    rw [List.singleton_append, List.nil_append, Bool.eq_iff_iff, decide_eq_true_iff]
    refine evictsAt_iff hs hfits ?_ (by simp)
    intro y hy
    simp only [List.mem_cons, List.mem_append] at hy ⊢
    tauto

/-! ### Other orders -/

lemma blocks_le (h : as ⊆ as') : blocks b as ≤ blocks b as' :=
  length_dedup_le (List.map_subset _ h)

lemma blocks_append_le : blocks b (as ++ as') ≤ blocks b as + as'.length := by
  induction as' using List.reverseRecOn with
  | nil => simp
  | append_singleton as' a ih =>
    have hle : (decide (blockOf b a ∉ (as ++ as').map (blockOf b))).toNat ≤ 1 := Bool.toNat_le _
    rw [← List.append_assoc, blocks_concat, List.length_append, List.length_singleton]
    omega

lemma Fits.mono (hfits : Fits s E b as') (h : as ⊆ as') : Fits s E b as := by
  intro j hj
  refine le_trans (length_dedup_le (List.map_subset _ ?_)) (hfits j hj)
  exact List.filter_subset _ h

lemma reload_le (s b : ℕ) (as : List (BitVec 64)) : reload s b as ≤ 1 := by
  cases as with
  | nil => exact Nat.zero_le 1
  | cons a as =>
    rw [reload]
    split <;> omega

lemma simulate_misses {file : List (Op × BitVec 64)} (hs : s ≤ 30) (hE : 1 ≤ E)
    (hbound : (accesses file).length < 2 ^ 31) : (simulate s b (initCache s E) file).misses =
      blocks b (accesses file) + countAlong (lostAt s E b) [] (accesses file) := by
  have hs' : s < 64 := by omega
  rw [simulate_initCache, (counters_eq hs' hE (by omega)).2.1, misses_eq hs']

end Blocks

example : Fits 1 2 1 [0, 4, 0, 0] ∧ reload 1 1 [0, 4, 0, 0] = 1 ∧ spill 1 1 [0, 4, 0, 0] = 1 := by
  decide

end SystemsLabs.Csim
