import SystemsLabs.Csim.Reference

/-!
# What the simulator counts

The totals are those of the reference cache unless the first access of the trace is forgotten
too early. More blocks for every set never lose a hit.
-/

namespace SystemsLabs.Csim
open Library

/-- The totals that the simulator prints are those of the reference. -/
def SameTotals (c : Cache) (r : Reference) : Prop :=
  c.hits = r.hits ∧ c.misses = r.misses ∧ c.evictions = r.evictions

instance (c : Cache) (r : Reference) : Decidable (SameTotals c r) :=
  inferInstanceAs (Decidable (_ ∧ _ ∧ _))

/-- The number of different tags that the set of the first access sees before the tag of that
access returns. -/
def othersOfFirst (s b : ℕ) : List (BitVec 64) → ℕ
  | [] => 0
  | a :: as => others (tag s b a) (tagsAt s b (index s b a) as)

section Totals

variable {s E b : ℕ} {file : List (Op × BitVec 64)}

/-- The simulator prints the totals of the reference exactly if the set of the first access sees
no other tag before the first one returns, or as many as it has blocks. -/
theorem sameTotals_iff (hs : s ≤ 30) (hE : 1 ≤ E) (hbound : (accesses file).length < 2 ^ 31) :
    SameTotals (simulate s b (initCache s E) file) (Reference.after s E b (accesses file)) ↔
      othersOfFirst s b (accesses file) = 0 ∨ E ≤ othersOfFirst s b (accesses file) := by
  rw [simulate_initCache]
  have hs' : s < 64 := by omega
  have hcode := (counters_afterAccesses (b := b) (accesses file) hs' hE (by omega)).1
  have href := (Reference.counters_after (b := b) (accesses file) hs' hE).1
  cases has : accesses file with
  | nil => simp [SameTotals, othersOfFirst, initCache, Reference.init]
  | cons a as =>
    rw [has] at hcode href hbound
    rw [List.length_cons] at hbound
    have hlen : as.length < 2 ^ 64 := by omega
    have hmisses := misses_after (b := b) (a := a) hs' hE hlen
    have hevictions := evictions_after (b := b) (a := a) hs' hE hlen
    rw [SameTotals, othersOfFirst]
    by_cases hbad : 0 < others (tag s b a) (tagsAt s b (index s b a) as) ∧
        others (tag s b a) (tagsAt s b (index s b a) as) < E
    · rw [if_pos hbad] at hevictions
      constructor
      · rintro ⟨-, -, heq⟩
        omega
      · intro h
        omega
    · have hforgotten : ¬Forgotten E (tag s b a) (tagsAt s b (index s b a) as) := fun h => hbad h.2
      rw [if_neg hbad] at hevictions
      rw [if_neg hforgotten] at hmisses
      constructor
      · intro _
        omega
      · intro _
        refine ⟨?_, ?_, ?_⟩ <;> omega

/-- Two blocks hold the two tags that follow the first one. -/
theorem sameTotals_two_blocks :
    SameTotals (simulate 1 1 (initCache 1 2) [(Op.L, 0), (Op.M, 4), (Op.S, 8)])
      (Reference.after 1 2 1 (accesses [(Op.L, 0), (Op.M, 4), (Op.S, 8)])) :=
  (sameTotals_iff (by decide) (by decide) (by decide)).mpr (Or.inr (by decide))

/-- Two loads of different tags in one set of two blocks already print an eviction. -/
theorem totals_differ : ¬∀ (s E b : ℕ) (file : List (Op × BitVec 64)), 1 ≤ s → 1 ≤ E → 1 ≤ b →
    s ≤ 30 → s + b < 64 → (accesses file).length < 2 ^ 31 →
    SameTotals (simulate s b (initCache s E) file) (Reference.after s E b (accesses file)) := by
  intro h
  have := h 1 2 1 [(Op.L, 0), (Op.L, 4)] (by decide) (by decide) (by decide) (by decide) (by decide)
    (by decide)
  exact absurd this (by decide)

end Totals

section Inclusion

variable {s E E' b : ℕ} {as : List (BitVec 64)}

/-- What a set of fewer blocks holds, a set of more blocks holds. -/
lemma holds_mono (hs : s < 64) (hE : 0 < E) (hle : E ≤ E') (hbound : as.length ≤ 2 ^ 64) {j : ℕ}
    {t : BitVec 64} (h : Holds ((afterAccesses s E b as).setList.getD j []) t) :
    Holds ((afterAccesses s E' b as).setList.getD j []) t := by
  by_cases hj : j < 2 ^ s
  · rw [holds_afterAccesses hs (lt_of_lt_of_le hE hle) hbound hj]
    exact recent_subset hle ((holds_afterAccesses hs hE hbound hj).mp h)
  · have hlen := (cacheAfter (b := b) hs hE hbound).length
    rw [List.getD_eq_getElem?_getD, List.getElem?_eq_none (by omega)] at h
    obtain ⟨p, hp, -⟩ := h
    simp at hp

lemma hits_mono (hs : s < 64) (hE : 0 < E) (hle : E ≤ E') (hbound : as.length ≤ 2 ^ 64) :
    (afterAccesses s E b as).hits ≤ (afterAccesses s E' b as).hits := by
  induction as using List.reverseRecOn with
  | nil => exact le_rfl
  | append_singleton as a ih =>
    rw [List.length_append, List.length_singleton] at hbound
    have hhits := ih (by omega)
    have hmono : isHit ((afterAccesses s E b as).setAt s b a) (tag s b a) = true →
        isHit ((afterAccesses s E' b as).setAt s b a) (tag s b a) = true := by
      rw [isHit_iff, isHit_iff]
      exact holds_mono hs hE hle (by omega)
    rw [afterAccesses_concat, afterAccesses_concat, cacheAccess_hits, cacheAccess_hits]
    cases h : isHit ((afterAccesses s E b as).setAt s b a) (tag s b a) with
    | false =>
      rw [Bool.toNat_false]
      omega
    | true =>
      rw [hmono h]
      omega

/-- With more blocks in each set the simulator counts at least as many hits, and after every
access each set holds at least the same tags. -/
theorem more_blocks_keep_hits {file : List (Op × BitVec 64)} (hs : s ≤ 30) (hE : 1 ≤ E)
    (hle : E ≤ E') (hbound : (accesses file).length < 2 ^ 31) :
    (simulate s b (initCache s E) file).hits ≤ (simulate s b (initCache s E') file).hits ∧
      ∀ as, as <+: accesses file → ∀ (j : ℕ) (t : BitVec 64),
        Holds ((afterAccesses s E b as).setList.getD j []) t →
          Holds ((afterAccesses s E' b as).setList.getD j []) t := by
  constructor
  · rw [simulate_initCache, simulate_initCache]
    exact hits_mono (by omega) hE hle (by omega)
  · intro as hprefix j t
    have := hprefix.length_le
    exact holds_mono (by omega) hE hle (by omega)

theorem two_blocks_keep_hits :
    (simulate 1 1 (initCache 1 1) [(Op.L, 0), (Op.L, 4), (Op.M, 0)]).hits ≤
        (simulate 1 1 (initCache 1 2) [(Op.L, 0), (Op.L, 4), (Op.M, 0)]).hits ∧
      ∀ as, as <+: accesses [(Op.L, 0), (Op.L, 4), (Op.M, 0)] → ∀ (j : ℕ) (t : BitVec 64),
        Holds ((afterAccesses 1 1 1 as).setList.getD j []) t →
          Holds ((afterAccesses 1 2 1 as).setList.getD j []) t :=
  more_blocks_keep_hits (by decide) (by decide) (by decide) (by decide)

end Inclusion

section Accounts

variable {s E b : ℕ} {as : List (BitVec 64)} {a : BitVec 64}

/-- What the counters say about the cache `c` after the accesses `as`. -/
structure Accounts (s E b : ℕ) (as : List (BitVec 64)) (c : Cache) : Prop where
  count : c.hits + c.misses = as.length
  balance : c.evictions + validLines c = c.misses
  bounded : c.misses - c.evictions ≤ E * 2 ^ s
  distinct : ∀ set ∈ c.setList, ((set.filter Block.valid).map Block.tag).Nodup
  holds : ∀ (as' : List (BitVec 64)) a, as = as' ++ [a] → Holds (c.setAt s b a) (tag s b a)
  again : ∀ (as' : List (BitVec 64)) (a a' : BitVec 64), as = as' ++ [a] → a' >>> b = a >>> b →
    (cacheAccess s b c a').hits = c.hits + 1 ∧ (cacheAccess s b c a').misses = c.misses

/-- Two addresses in one block have the same index and the same tag. -/
lemma same_block {a' : BitVec 64} (h : a' >>> b = a >>> b) :
    index s b a' = index s b a ∧ tag s b a' = tag s b a := by
  refine ⟨by rw [index, index, h], ?_⟩
  rw [tag, tag, Nat.add_comm, BitVec.shiftRight_add, BitVec.shiftRight_add, h]

lemma holds_last (hs : s < 64) (hE : 0 < E) (hbound : (as ++ [a]).length ≤ 2 ^ 64) :
    Holds ((afterAccesses s E b (as ++ [a])).setAt s b a) (tag s b a) := by
  rw [List.length_append, List.length_singleton] at hbound
  have hafter := cacheAfter (b := b) hs hE (Nat.le_of_succ_le hbound)
  rw [afterAccesses_concat, Cache.setAt, cacheAccess_getD hafter.length hs, if_pos rfl]
  exact holds_accessSet ((hafter.sets _ (index_lt hs b a)).ne_nil hE)

lemma accounts (hs : s < 64) (hE : 0 < E) (hbound : as.length ≤ 2 ^ 64) :
    Accounts s E b as (afterAccesses s E b as) := by
  obtain ⟨hcount, hbalance⟩ := counters_afterAccesses (b := b) as hs hE hbound
  have hafter := cacheAfter (b := b) hs hE hbound
  have hroom := validLines_le (b := b) hs hE hbound
  constructor
  case count => exact hcount
  case balance => exact hbalance
  case bounded => omega
  case distinct =>
    intro set hset
    obtain ⟨j, hj, rfl⟩ := List.mem_iff_getElem.mp hset
    have := hafter.sets j (by rwa [← hafter.length])
    rw [List.getD_eq_getElem?_getD, List.getElem?_eq_getElem hj, Option.getD_some] at this
    exact this.tags_nodup
  case holds =>
    rintro as' a rfl
    exact holds_last hs hE hbound
  case again =>
    rintro as' a a' rfl hsame
    obtain ⟨hindex, htag⟩ := same_block (s := s) hsame
    have hhit : isHit ((afterAccesses s E b (as' ++ [a])).setAt s b a') (tag s b a') = true := by
      rw [isHit_iff, Cache.setAt, hindex, htag]
      exact holds_last hs hE hbound
    rw [cacheAccess_hits, cacheAccess_misses, hhit]
    simp

/-- The number of calls of `cacheAccess` for one record. -/
def Op.calls : Op → ℕ
  | Op.I => 0
  | Op.L => 1
  | Op.S => 1
  | Op.M => 2

lemma length_accesses (file : List (Op × BitVec 64)) :
    (accesses file).length = (file.map (fun r => r.1.calls)).sum := by
  induction file with
  | nil => rfl
  | cons r file ih =>
    obtain ⟨opt, addr⟩ := r
    rw [accesses, List.flatMap_cons, List.length_append, ← accesses, ih, List.map_cons, List.sum_cons]
    cases opt <;> rfl

/-- The counters and the cache agree after every access of a trace, and after the trace every record
has counted its calls. -/
theorem accounts_of_trace {file : List (Op × BitVec 64)} (hs : s ≤ 30) (hE : 1 ≤ E)
    (hbound : (accesses file).length < 2 ^ 31) :
    (∀ as, as <+: accesses file → Accounts s E b as (afterAccesses s E b as)) ∧
      simulate s b (initCache s E) file = afterAccesses s E b (accesses file) ∧
      (accesses file).length = (file.map (fun r => r.1.calls)).sum := by
  refine ⟨?_, simulate_initCache s E b file, length_accesses file⟩
  intro as hprefix
  have := hprefix.length_le
  exact accounts (by omega) hE (by omega)

theorem accounts_three_records :
    (∀ as, as <+: accesses [(Op.L, 0), (Op.I, 2), (Op.M, 4)] →
      Accounts 1 2 1 as (afterAccesses 1 2 1 as)) ∧
      simulate 1 1 (initCache 1 2) [(Op.L, 0), (Op.I, 2), (Op.M, 4)] =
        afterAccesses 1 2 1 (accesses [(Op.L, 0), (Op.I, 2), (Op.M, 4)]) ∧
      (accesses [(Op.L, 0), (Op.I, 2), (Op.M, 4)]).length =
        ([(Op.L, 0), (Op.I, 2), (Op.M, (4 : BitVec 64))].map (fun r => r.1.calls)).sum :=
  accounts_of_trace (by decide) (by decide) (by decide)

end Accounts

end SystemsLabs.Csim
