import SystemsLabs.Csim.Lines

/-!
# What the simulator holds after a trace

Every set holds the tags that its accesses used last, with one exception. The very first access
of the trace stops counting as soon as its set is accessed again.
-/

namespace SystemsLabs.Csim
open Library

/-- The tags of the accesses to set `j`, in order. -/
def tagsAt (s b j : ℕ) (as : List (BitVec 64)) : List (BitVec 64) :=
  (as.filter (fun a => index s b a = j)).map (tag s b)

/-- The first access of the trace is to set `j`. -/
def isFirst (s b j : ℕ) : List (BitVec 64) → Bool
  | [] => false
  | a :: _ => index s b a = j

/-- The accesses of a set that count. -/
def counting : Bool → List (BitVec 64) → List (BitVec 64)
  | true, _ :: t :: ts => t :: ts
  | _, ts => ts

@[simp] lemma counting_false (ts : List (BitVec 64)) : counting false ts = ts := by
  simp [counting]

/-- A set after the accesses `ts`, the first one of which may be the first one of the trace. -/
inductive SetAfter (E now : ℕ) (set : List Block) : Bool → List (BitVec 64) → Prop
  | plain {us ts} (h : Ordered E now set us) (hts : us.map Block.tag = recent E ts) :
    SetAfter E now set false ts
  | first {t₀} (h : set = firstSet E t₀) : SetAfter E now set true [t₀]
  | settled {us t₀ t ts} (h : Ordered E now set us)
    (hts : us.map Block.tag = recent E (t :: ts)) : SetAfter E now set true (t₀ :: t :: ts)

section Sets

variable {E now : ℕ} {set : List Block} {first : Bool} {ts : List (BitVec 64)} {t : BitVec 64}

lemma SetAfter.later (h : SetAfter E now set first ts) {now' : ℕ} (hle : now ≤ now') :
    SetAfter E now' set first ts := by
  cases h with
  | plain h hts => exact SetAfter.plain (h.later hle) hts
  | first h => exact SetAfter.first h
  | settled h hts => exact SetAfter.settled (h.later hle) hts

/-- Any bound above zero keeps a single value. -/
lemma recent_singleton (hE : 0 < E) : recent E [t] = [t] := by
  obtain ⟨k, rfl⟩ := Nat.exists_eq_succ_of_ne_zero hE.ne'
  simp [recent, touch]

lemma SetAfter.holds_iff (h : SetAfter E now set first ts) (hE : 0 < E) :
    Holds set t ↔ t ∈ recent E (counting first ts) := by
  cases h with
  | plain h hts =>
    rw [← h.mem_tags, hts, counting_false]
  | @first t₀ h =>
    have hcounting : counting true [t₀] = [t₀] := rfl
    rw [← isHit_iff, h, isHit_firstSet, hcounting, recent_singleton hE, List.mem_singleton]
  | settled h hts => rw [← h.mem_tags, hts, counting]

lemma SetAfter.isHit_iff (h : SetAfter E now set first ts) (hE : 0 < E) :
    isHit set t = true ↔ t ∈ recent E (counting first ts) := by
  rw [Csim.isHit_iff, h.holds_iff hE]

/-- The accesses to a set decide what it holds. -/
lemma SetAfter.access (h : SetAfter E now set first ts) (hE : 0 < E) (hnow : 0 < now)
    (hbound : now < 2 ^ 64) :
    SetAfter E (now + 1) (accessSet now t set) first (ts ++ [t]) := by
  cases h with
  | plain h hts =>
    obtain ⟨us', hus', htags, -⟩ := h.access hE hnow hbound
    exact SetAfter.plain hus' (by rw [htags, hts, recent_concat])
  | first h =>
    rw [h]
    exact SetAfter.settled (access_firstSet hE hnow).1 (recent_singleton hE).symm
  | settled h hts =>
    obtain ⟨us', hus', htags, -⟩ := h.access hE hnow hbound
    exact SetAfter.settled hus' (by rw [htags, hts, ← recent_concat]; rfl)

end Sets

section Runs

variable {s E b j : ℕ} {as : List (BitVec 64)} {a : BitVec 64}

lemma tagsAt_concat_self : tagsAt s b (index s b a) (as ++ [a]) =
    tagsAt s b (index s b a) as ++ [tag s b a] := by
  simp [tagsAt]

lemma tagsAt_concat_of_ne (h : index s b a ≠ j) : tagsAt s b j (as ++ [a]) = tagsAt s b j as := by
  simp [tagsAt, h]

lemma isFirst_concat (h : as ≠ []) : isFirst s b j (as ++ [a]) = isFirst s b j as := by
  cases as with
  | nil => exact absurd rfl h
  | cons a₀ as => rfl

/-- What holds of the cache after the accesses `as`. -/
structure CacheAfter (s E b : ℕ) (as : List (BitVec 64)) (c : Cache) : Prop where
  lru : c.lru = as.length
  length : c.setList.length = 2 ^ s
  sets : ∀ j < 2 ^ s, SetAfter E as.length (c.setList.getD j []) (isFirst s b j as) (tagsAt s b j as)

lemma initCache_getD (hj : j < 2 ^ s) :
    (initCache s E).setList.getD j [] = List.replicate E emptyBlock := by
  rw [initCache, List.getD_eq_getElem?_getD, List.getElem?_replicate_of_lt hj, Option.getD_some]

/-- The access of a set leaves the other sets as they are. -/
lemma cacheAccess_getD {c : Cache} (hlen : c.setList.length = 2 ^ s) (hs : s < 64) :
    (cacheAccess s b c a).setList.getD j [] =
      if index s b a = j then accessSet c.lru (tag s b a) (c.setAt s b a)
      else c.setList.getD j [] := by
  have hindex : index s b a < c.setList.length := by
    rw [hlen]
    exact index_lt hs b a
  rw [cacheAccess_setList, List.getD_eq_getElem?_getD, List.getElem?_set]
  by_cases hj : index s b a = j
  · rw [if_pos hj, if_pos hj, if_pos hindex, Option.getD_some]
  · rw [if_neg hj, if_neg hj, List.getD_eq_getElem?_getD]

lemma CacheAfter.nil : CacheAfter s E b [] (initCache s E) where
  lru := rfl
  length := List.length_replicate
  sets := by
    intro j hj
    rw [initCache_getD hj]
    exact SetAfter.plain Ordered.of_replicate rfl

lemma CacheAfter.singleton (hs : s < 64) (hE : 0 < E) :
    CacheAfter s E b [a] (cacheAccess s b (initCache s E) a) where
  lru := cacheAccess_lru
  length := by rw [cacheAccess_setList, List.length_set, CacheAfter.nil.length (b := b)]
  sets := by
    intro j hj
    rw [cacheAccess_getD (CacheAfter.nil (b := b)).length hs]
    by_cases hj' : index s b a = j
    · subst hj'
      rw [if_pos rfl, Cache.setAt, initCache_getD hj, isFirst, decide_eq_true rfl]
      have htags : tagsAt s b (index s b a) ([] ++ [a]) = [tag s b a] := tagsAt_concat_self
      rw [List.nil_append] at htags
      rw [htags]
      exact SetAfter.first (access_empty hE).1
    · have htags : tagsAt s b j ([] ++ [a]) = [] := tagsAt_concat_of_ne hj'
      rw [List.nil_append] at htags
      rw [if_neg hj', initCache_getD hj, isFirst, decide_eq_false hj', htags]
      exact SetAfter.plain Ordered.of_replicate rfl

/-- A later access extends the history of its set. -/
lemma CacheAfter.concat {c : Cache} (h : CacheAfter s E b as c) (hs : s < 64) (hE : 0 < E)
    (has : as ≠ []) (hbound : as.length < 2 ^ 64) :
    CacheAfter s E b (as ++ [a]) (cacheAccess s b c a) where
  lru := by rw [cacheAccess_lru, h.lru, List.length_append, List.length_singleton]
  length := by rw [cacheAccess_setList, List.length_set, h.length]
  sets := by
    intro j hj
    rw [List.length_append, List.length_singleton, cacheAccess_getD h.length hs,
      isFirst_concat has]
    by_cases hj' : index s b a = j
    · subst hj'
      rw [if_pos rfl, tagsAt_concat_self, h.lru, Cache.setAt]
      exact (h.sets _ hj).access hE (List.length_pos_iff.mpr has) hbound
    · rw [if_neg hj', tagsAt_concat_of_ne hj']
      exact (h.sets j hj).later (Nat.le_succ as.length)

/-- What every set holds after a trace. -/
theorem cacheAfter (hs : s < 64) (hE : 0 < E) (hbound : as.length ≤ 2 ^ 64) :
    CacheAfter s E b as (afterAccesses s E b as) := by
  induction as using List.reverseRecOn with
  | nil => exact CacheAfter.nil
  | append_singleton as a ih =>
    rw [List.length_append, List.length_singleton] at hbound
    rw [afterAccesses_concat]
    by_cases has : as = []
    · subst has
      exact CacheAfter.singleton hs hE
    · exact (ih (by omega)).concat hs hE has (by omega)

/-- The tags in a set are the last ones that count among those of its accesses. -/
theorem holds_afterAccesses (hs : s < 64) (hE : 0 < E) (hbound : as.length ≤ 2 ^ 64)
    (hj : j < 2 ^ s) {t : BitVec 64} :
    Holds ((afterAccesses s E b as).setList.getD j []) t ↔
      t ∈ recent E (counting (isFirst s b j as) (tagsAt s b j as)) :=
  ((cacheAfter hs hE hbound).sets j hj).holds_iff hE

lemma isHit_afterAccesses (hs : s < 64) (hE : 0 < E) (hbound : as.length ≤ 2 ^ 64) :
    isHit ((afterAccesses s E b as).setAt s b a) (tag s b a) = true ↔
      tag s b a ∈ recent E (counting (isFirst s b (index s b a) as)
        (tagsAt s b (index s b a) as)) :=
  ((cacheAfter hs hE hbound).sets _ (index_lt hs b a)).isHit_iff hE

end Runs

end SystemsLabs.Csim
