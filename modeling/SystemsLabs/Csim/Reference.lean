import Mathlib.Data.List.TakeWhile
import SystemsLabs.Csim.Counters

/-!
# The reference cache

The reference keeps the tags of each set in the order of their last uses. The simulator differs
from it only in the set of the very first access, and only by forgetting that access too early.
-/

namespace SystemsLabs.Csim
open Library

/-- A cache whose sets are lists of tags, the most recently used one first. -/
structure Reference where
  sets : List (List (BitVec 64))
  hits : ℕ
  misses : ℕ
  evictions : ℕ
deriving DecidableEq

def Reference.init (s : ℕ) : Reference := ⟨List.replicate (2 ^ s) [], 0, 0, 0⟩

/-- The tags in the set of an address. -/
def Reference.setAt (r : Reference) (s b : ℕ) (addr : BitVec 64) : List (BitVec 64) :=
  r.sets.getD (index s b addr) []

/-- A hit moves the tag to the front, and a miss in a full set evicts the last tag. -/
def Reference.access (s E b : ℕ) (r : Reference) (addr : BitVec 64) : Reference :=
  let tags := r.setAt s b addr
  let t := tag s b addr
  if t ∈ tags then
    { r with sets := r.sets.set (index s b addr) (t :: tags.erase t), hits := r.hits + 1 }
  else if tags.length = E then
    { r with
      sets := r.sets.set (index s b addr) (t :: tags.dropLast)
      misses := r.misses + 1
      evictions := r.evictions + 1 }
  else
    { r with sets := r.sets.set (index s b addr) (t :: tags), misses := r.misses + 1 }

/-- The reference after a list of accesses. -/
def Reference.after (s E b : ℕ) (as : List (BitVec 64)) : Reference :=
  as.foldl (Reference.access s E b) (Reference.init s)

/-- The number of tags in all sets. -/
def Reference.stored (r : Reference) : ℕ := (r.sets.map List.length).sum

variable {s E b j : ℕ} {r : Reference} {as : List (BitVec 64)} {a : BitVec 64}

@[simp] lemma Reference.after_nil : Reference.after s E b [] = Reference.init s := rfl

@[simp] lemma Reference.after_concat :
    Reference.after s E b (as ++ [a]) = Reference.access s E b (Reference.after s E b as) a := by
  simp [Reference.after]

/-- An access uses its tag in the list of its set. -/
lemma Reference.access_sets (hE : 0 < E) (hle : (r.setAt s b a).length ≤ E) :
    (Reference.access s E b r a).sets =
      r.sets.set (index s b a) (touch E (r.setAt s b a) (tag s b a)) := by
  unfold Reference.access
  by_cases ht : tag s b a ∈ r.setAt s b a
  · rw [touch_of_mem ht hle]
    simp [ht]
  · rw [touch_of_notMem ht]
    by_cases hfull : (r.setAt s b a).length = E
    · have htake : (tag s b a :: r.setAt s b a).take E = tag s b a :: (r.setAt s b a).dropLast := by
        obtain ⟨k, rfl⟩ := Nat.exists_eq_succ_of_ne_zero hE.ne'
        rw [List.take_succ_cons, List.dropLast_eq_take, hfull]
        rfl
      simp [ht, hfull, htake]
    · have htake : (tag s b a :: r.setAt s b a).take E = tag s b a :: r.setAt s b a := by
        apply List.take_of_length_le
        rw [List.length_cons]
        omega
      simp [ht, hfull, htake]

lemma Reference.access_hits : (Reference.access s E b r a).hits =
    r.hits + if tag s b a ∈ r.setAt s b a then 1 else 0 := by
  unfold Reference.access
  by_cases ht : tag s b a ∈ r.setAt s b a
  · simp [ht]
  · by_cases hfull : (r.setAt s b a).length = E <;> simp [ht, hfull]

lemma Reference.access_misses : (Reference.access s E b r a).misses =
    r.misses + if tag s b a ∈ r.setAt s b a then 0 else 1 := by
  unfold Reference.access
  by_cases ht : tag s b a ∈ r.setAt s b a
  · simp [ht]
  · by_cases hfull : (r.setAt s b a).length = E <;> simp [ht, hfull]

lemma Reference.access_evictions : (Reference.access s E b r a).evictions =
    r.evictions + if tag s b a ∉ r.setAt s b a ∧ (r.setAt s b a).length = E then 1 else 0 := by
  unfold Reference.access
  by_cases ht : tag s b a ∈ r.setAt s b a
  · simp [ht]
  · by_cases hfull : (r.setAt s b a).length = E <;> simp [ht, hfull]

/-- The sets of the reference after a trace. -/
theorem Reference.sets_after (hs : s < 64) (hE : 0 < E) :
    (Reference.after s E b as).sets = (List.range (2 ^ s)).map (fun j => recent E (tagsAt s b j as)) := by
  induction as using List.reverseRecOn with
  | nil =>
    rw [Reference.after_nil, Reference.init]
    simp [tagsAt, List.map_const']
  | append_singleton as a ih =>
    have hj := index_lt hs b a
    have hset : (Reference.after s E b as).setAt s b a = recent E (tagsAt s b (index s b a) as) := by
      rw [Reference.setAt, ih, List.getD_eq_getElem?_getD]
      simp [hj]
    rw [Reference.after_concat, Reference.access_sets hE (by rw [hset]; exact length_recent_le),
      hset, ih, ← recent_concat, ← tagsAt_concat_self]
    apply List.ext_getElem (by simp)
    intro i h1 h2
    rw [List.getElem_set]
    by_cases hi : index s b a = i
    · simp [hi]
    · simp [hi, tagsAt_concat_of_ne hi]

lemma Reference.setAt_after (hs : s < 64) (hE : 0 < E) :
    (Reference.after s E b as).setAt s b a = recent E (tagsAt s b (index s b a) as) := by
  rw [Reference.setAt, Reference.sets_after hs hE, List.getD_eq_getElem?_getD]
  simp [index_lt hs b a]

/-- One access keeps the balance of misses, evictions and stored tags. -/
lemma Reference.stored_access (hE : 0 < E) (hlen : r.sets.length = 2 ^ s) (hs : s < 64)
    (hle : (r.setAt s b a).length ≤ E) :
    (Reference.access s E b r a).stored +
        (if tag s b a ∉ r.setAt s b a ∧ (r.setAt s b a).length = E then 1 else 0) =
      r.stored + if tag s b a ∈ r.setAt s b a then 0 else 1 := by
  have hindex : index s b a < r.sets.length := by
    rw [hlen]
    exact index_lt hs b a
  have hsum := sum_set (l := r.sets.map List.length) (i := index s b a)
    (by rwa [List.length_map]) (touch E (r.setAt s b a) (tag s b a)).length
  have hat : r.setAt s b a = r.sets[index s b a] := by
    rw [Reference.setAt, List.getD_eq_getElem?_getD, List.getElem?_eq_getElem hindex,
      Option.getD_some]
  have htouch : (touch E (r.setAt s b a) (tag s b a)).length +
      (if tag s b a ∉ r.setAt s b a ∧ (r.setAt s b a).length = E then 1 else 0) =
      (r.setAt s b a).length + if tag s b a ∈ r.setAt s b a then 0 else 1 := by
    by_cases ht : tag s b a ∈ r.setAt s b a
    · have := List.length_erase_add_one ht
      rw [touch_of_mem ht hle, List.length_cons, this, if_neg (by simp [ht]), if_pos ht]
    · rw [touch_of_notMem ht, List.length_take, List.length_cons]
      by_cases hfull : (r.setAt s b a).length = E
      · simp [ht, hfull]
      · simp [ht, hfull]
        omega
  rw [List.getElem_map, ← hat] at hsum
  rw [Reference.stored, Reference.access_sets hE hle, List.map_set, Reference.stored]
  omega

/-- Every access counts once, and the stored tags are the misses that evicted nothing. -/
theorem Reference.counters_after (as : List (BitVec 64)) (hs : s < 64) (hE : 0 < E) :
    (Reference.after s E b as).hits + (Reference.after s E b as).misses = as.length ∧
    (Reference.after s E b as).evictions + (Reference.after s E b as).stored =
      (Reference.after s E b as).misses := by
  induction as using List.reverseRecOn with
  | nil => simp [Reference.init, Reference.stored]
  | append_singleton as a ih =>
    have hlen : (Reference.after s E b as).sets.length = 2 ^ s := by
      rw [Reference.sets_after hs hE, List.length_map, List.length_range]
    have hle : ((Reference.after s E b as).setAt s b a).length ≤ E := by
      rw [Reference.setAt_after hs hE]
      exact length_recent_le
    have hstored := Reference.stored_access hE hlen hs hle
    obtain ⟨hcount, hmisses⟩ := ih
    rw [Reference.after_concat, Reference.access_hits, Reference.access_misses,
      Reference.access_evictions, List.length_append, List.length_singleton]
    constructor
    · by_cases ht : tag s b a ∈ (Reference.after s E b as).setAt s b a <;> simp [ht] <;> omega
    · omega

section Comparison

/-- The number of different tags in front of the first occurrence of `t₀`. -/
def others (t₀ : BitVec 64) (ts : List (BitVec 64)) : ℕ :=
  (ts.takeWhile (· ≠ t₀)).dedup.length

/-- The first use of `t₀` is forgotten although its next use would still find it. -/
def Forgotten (E : ℕ) (t₀ : BitVec 64) (ts : List (BitVec 64)) : Prop :=
  t₀ ∈ ts ∧ 0 < others t₀ ts ∧ others t₀ ts < E

instance (E : ℕ) (t₀ : BitVec 64) (ts : List (BitVec 64)) : Decidable (Forgotten E t₀ ts) :=
  inferInstanceAs (Decidable (_ ∧ _ ∧ _))

variable {t₀ t : BitVec 64} {ts : List (BitVec 64)}

lemma takeWhile_of_notMem (h : t₀ ∉ ts) : ts.takeWhile (· ≠ t₀) = ts := by
  rw [List.takeWhile_eq_self_iff]
  intro t ht
  simp only [ne_eq, decide_not, Bool.not_eq_true', decide_eq_false_iff_not]
  rintro rfl
  exact h ht

lemma others_of_notMem (h : t₀ ∉ ts) : others t₀ ts = ts.dedup.length := by
  rw [others, takeWhile_of_notMem h]

lemma others_concat_of_mem (h : t₀ ∈ ts) : others t₀ (ts ++ [t]) = others t₀ ts := by
  have hne : (ts.takeWhile (· ≠ t₀)).length ≠ ts.length := by
    intro heq
    have hself := (List.takeWhile_prefix (· ≠ t₀)).eq_of_length heq
    have := List.takeWhile_eq_self_iff.mp hself t₀ h
    simp at this
  rw [others, List.takeWhile_append, if_neg hne, others]

lemma others_concat_self (h : t₀ ∉ ts) : others t₀ (ts ++ [t₀]) = ts.dedup.length := by
  rw [others, List.takeWhile_append, takeWhile_of_notMem h, if_pos rfl]
  simp

lemma counting_of_ne_nil (h : ts ≠ []) : counting true (t₀ :: ts) = ts := by
  cases ts with
  | nil => exact absurd rfl h
  | cons t ts => rfl

/-- A miss of the simulator that the reference does not have is a use of the forgotten tag. -/
lemma forgotten_concat (t₀ t : BitVec 64) (ts : List (BitVec 64)) (hE : 0 < E) :
    (if Forgotten E t₀ ts then 1 else 0) +
        (if t ∈ recent E (counting true (t₀ :: ts)) then 0 else 1) =
      (if Forgotten E t₀ (ts ++ [t]) then 1 else 0) +
        if t ∈ recent E (t₀ :: ts) then 0 else 1 := by
  by_cases h₀ : t₀ ∈ ts
  · -- the tag came back already, and both caches hold the same tags
    have hcounting : counting true (t₀ :: ts) = ts := counting_of_ne_nil (List.ne_nil_of_mem h₀)
    have hsame : Forgotten E t₀ (ts ++ [t]) ↔ Forgotten E t₀ ts := by
      simp [Forgotten, others_concat_of_mem h₀, h₀]
    simp only [hcounting, hsame, recent_cons_of_mem h₀]
  · have hfalse : ¬Forgotten E t₀ ts := fun h => h₀ h.1
    rw [if_neg hfalse, Nat.zero_add]
    by_cases ht : t = t₀
    · subst ht
      have hback : Forgotten E t (ts ++ [t]) ↔ 0 < ts.dedup.length ∧ ts.dedup.length < E := by
        simp [Forgotten, others_concat_self h₀]
      have href := mem_recent_cons_self (n := E) h₀
      by_cases hts : ts = []
      · subst hts
        have hself : t ∈ recent E [t] := by rw [recent_singleton hE]; simp
        have hcounting : counting true [t] = [t] := rfl
        rw [hcounting, if_pos hself, if_neg (by rw [hback]; simp)]
      · have hmiss : t ∉ recent E ts := fun h => h₀ (mem_of_mem_recent h)
        have hpos : 0 < ts.dedup.length := List.length_pos_iff.mpr (by simpa using hts)
        rw [counting_of_ne_nil hts, if_neg hmiss]
        by_cases hfit : ts.dedup.length < E
        · rw [if_pos (hback.mpr ⟨hpos, hfit⟩), if_pos (href.mpr hfit)]
        · rw [if_neg (fun h => hfit (hback.mp h).2), if_neg (fun h => hfit (href.mp h))]
    · have hfalse' : ¬Forgotten E t₀ (ts ++ [t]) := by
        intro h
        have := h.1
        simp [h₀, Ne.symm ht] at this
      have hsame : t ∈ recent E (counting true (t₀ :: ts)) ↔ t ∈ recent E (t₀ :: ts) := by
        by_cases hts : ts = []
        · subst hts
          rfl
        · rw [counting_of_ne_nil hts, mem_recent_cons_of_ne ht]
      rw [if_neg hfalse', Nat.zero_add]
      simp only [hsame]

lemma tagsAt_cons : tagsAt s b j (a :: as) =
    if index s b a = j then tag s b a :: tagsAt s b j as else tagsAt s b j as := by
  by_cases hj : index s b a = j <;> simp [tagsAt, hj]

lemma misses_concat (as : List (BitVec 64)) (a : BitVec 64) (hs : s < 64) (hE : 0 < E)
    (hbound : as.length ≤ 2 ^ 64) : (afterAccesses s E b (as ++ [a])).misses = (afterAccesses s E b as).misses +
      if tag s b a ∈ recent E (counting (isFirst s b (index s b a) as)
        (tagsAt s b (index s b a) as)) then 0 else 1 := by
  have hhit := isHit_afterAccesses (b := b) (a := a) hs hE hbound
  rw [afterAccesses_concat, cacheAccess_misses]
  cases h : isHit ((afterAccesses s E b as).setAt s b a) (tag s b a) with
  | true => rw [if_pos (hhit.mp h)]; rfl
  | false => rw [if_neg (fun hmem => by simp [hhit.mpr hmem] at h)]; rfl

lemma Reference.misses_concat (as : List (BitVec 64)) (a : BitVec 64) (hs : s < 64) (hE : 0 < E) :
    (Reference.after s E b (as ++ [a])).misses = (Reference.after s E b as).misses +
      if tag s b a ∈ recent E (tagsAt s b (index s b a) as) then 0 else 1 := by
  rw [Reference.after_concat, Reference.access_misses, Reference.setAt_after hs hE]

/-- The simulator has one more miss than the reference if it forgot the first access. -/
theorem misses_after (hs : s < 64) (hE : 0 < E) (hbound : as.length < 2 ^ 64) :
    (afterAccesses s E b (a :: as)).misses = (Reference.after s E b (a :: as)).misses +
      if Forgotten E (tag s b a) (tagsAt s b (index s b a) as) then 1 else 0 := by
  induction as using List.reverseRecOn with
  | nil =>
    have hcode := misses_concat (E := E) (b := b) [] a hs hE (by simp)
    have href := Reference.misses_concat (E := E) (b := b) [] a hs hE
    rw [List.nil_append] at hcode href
    rw [hcode, href]
    simp [tagsAt, isFirst, counting, initCache, Reference.init, Forgotten]
  | append_singleton as a' ih =>
    rw [List.length_append, List.length_singleton] at hbound
    have hih := ih (by omega)
    rw [← List.cons_append, misses_concat _ _ hs hE (by rw [List.length_cons]; omega),
      Reference.misses_concat _ _ hs hE, hih]
    rw [tagsAt_cons, isFirst]
    by_cases hj : index s b a = index s b a'
    · have hdiff := forgotten_concat (tag s b a) (tag s b a') (tagsAt s b (index s b a') as) hE
      rw [if_pos hj, decide_eq_true hj, hj, tagsAt_concat_self]
      omega
    · rw [if_neg hj, decide_eq_false hj, counting_false, tagsAt_concat_of_ne (Ne.symm hj)]
      omega

/-- The numbers of valid blocks of the sets after a trace. -/
lemma countP_afterAccesses (as : List (BitVec 64)) (hs : s < 64) (hE : 0 < E)
    (hbound : as.length ≤ 2 ^ 64) :
    (afterAccesses s E b as).setList.map (fun set => set.countP Block.valid) =
      (List.range (2 ^ s)).map
        (fun j => (recent E (counting (isFirst s b j as) (tagsAt s b j as))).length) := by
  have hafter := cacheAfter (b := b) hs hE hbound
  apply List.ext_getElem
  · rw [List.length_map, List.length_map, List.length_range, hafter.length]
  · intro j hj hj'
    rw [List.length_map, List.length_range] at hj'
    rw [List.length_map] at hj
    have hset := hafter.sets j hj'
    rw [List.getD_eq_getElem?_getD, List.getElem?_eq_getElem hj, Option.getD_some] at hset
    rw [List.getElem_map, List.getElem_map, List.getElem_range, hset.countP_valid hE]

/-- The reference stores as many tags as there are valid blocks, but for the set of the first
access. -/
lemma stored_after (hs : s < 64) (hE : 0 < E) (hbound : as.length < 2 ^ 64) :
    (Reference.after s E b (a :: as)).stored +
        (recent E (counting true (tag s b a :: tagsAt s b (index s b a) as))).length =
      validLines (afterAccesses s E b (a :: as)) +
        (recent E (tag s b a :: tagsAt s b (index s b a) as)).length := by
  have hj := index_lt hs b a
  have hcode := countP_afterAccesses (E := E) (b := b) (a :: as) hs hE hbound
  have href : (Reference.after s E b (a :: as)).sets.map List.length =
      ((afterAccesses s E b (a :: as)).setList.map (fun set => set.countP Block.valid)).set
        (index s b a) (recent E (tag s b a :: tagsAt s b (index s b a) as)).length := by
    rw [Reference.sets_after hs hE, hcode]
    apply List.ext_getElem
    · simp
    · intro j h1 h2
      rw [List.getElem_set]
      by_cases hja : index s b a = j
      · subst hja
        simp [tagsAt_cons]
      · simp [tagsAt_cons, hja, isFirst, counting_false]
  have hlt : index s b a <
      ((afterAccesses s E b (a :: as)).setList.map (fun set => set.countP Block.valid)).length := by
    rw [hcode]
    simpa using hj
  have hat : ((afterAccesses s E b (a :: as)).setList.map
      (fun set => set.countP Block.valid))[index s b a] =
        (recent E (counting true (tag s b a :: tagsAt s b (index s b a) as))).length := by
    simp only [hcode, List.getElem_map, List.getElem_range, isFirst, tagsAt_cons, decide_true,
      if_true]
  have hsum := sum_set hlt (recent E (tag s b a :: tagsAt s b (index s b a) as)).length
  rw [← href, hat] at hsum
  exact hsum

/-- The simulator has one more eviction than the reference if the set of the first access sees
some other tags, but fewer than `E`, before the first tag returns. -/
theorem evictions_after (hs : s < 64) (hE : 0 < E) (hbound : as.length < 2 ^ 64) :
    (afterAccesses s E b (a :: as)).evictions = (Reference.after s E b (a :: as)).evictions +
      if 0 < others (tag s b a) (tagsAt s b (index s b a) as) ∧
        others (tag s b a) (tagsAt s b (index s b a) as) < E then 1 else 0 := by
  have hcode := (counters_afterAccesses (E := E) (b := b) (a :: as) hs hE hbound).2
  have href := (Reference.counters_after (E := E) (b := b) (a :: as) hs hE).2
  have hmisses := misses_after (b := b) (a := a) hs hE hbound
  have hstored := stored_after (b := b) (a := a) hs hE hbound
  generalize tagsAt s b (index s b a) as = ts at hmisses hstored ⊢
  generalize tag s b a = t₀ at hmisses hstored ⊢
  by_cases h₀ : t₀ ∈ ts
  · have hforgotten : Forgotten E t₀ ts ↔ 0 < others t₀ ts ∧ others t₀ ts < E := by
      simp [Forgotten, h₀]
    rw [counting_of_ne_nil (List.ne_nil_of_mem h₀), recent_cons_of_mem h₀] at hstored
    simp only [hforgotten] at hmisses
    omega
  · have hforgotten : ¬Forgotten E t₀ ts := fun h => h₀ h.1
    rw [if_neg hforgotten] at hmisses
    rw [others_of_notMem h₀]
    by_cases hts : ts = []
    · subst hts
      have hcounting : counting true [t₀] = [t₀] := rfl
      rw [hcounting] at hstored
      simp
      omega
    · have hpos : 0 < ts.dedup.length := List.length_pos_iff.mpr (by simpa using hts)
      have hcons : (recent E (t₀ :: ts)).length = min E (ts.dedup.length + 1) := by
        rw [length_recent, List.dedup_cons_of_notMem h₀, List.length_cons]
      rw [counting_of_ne_nil hts, hcons, length_recent] at hstored
      split <;> omega

end Comparison

end SystemsLabs.Csim
