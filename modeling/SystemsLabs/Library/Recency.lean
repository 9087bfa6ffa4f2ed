import Mathlib.Data.List.Dedup
import Mathlib.Data.List.DropRight
import Mathlib.Tactic

/-!
# Least recently used lists

A bounded list keeps the values used last, the most recent one in front. It is a prefix of
the list of all values in the order of their last uses, so a longer bound keeps more.
-/

namespace SystemsLabs.Library

variable {α : Type*} [DecidableEq α]

/-- The list of at most `n` values after a use of `t`. -/
def touch (n : ℕ) (l : List α) (t : α) : List α := (t :: l.erase t).take n

/-- The at most `n` values that `ts` used last, the most recent one first. -/
def recent (n : ℕ) (ts : List α) : List α := ts.foldl (touch n) []

variable {n m : ℕ} {l ts : List α} {t u : α}

lemma touch_of_mem (h : t ∈ l) (hl : l.length ≤ n) : touch n l t = t :: l.erase t := by
  apply List.take_of_length_le
  have := List.length_erase_add_one h
  rw [List.length_cons]
  omega

lemma touch_of_notMem (h : t ∉ l) : touch n l t = (t :: l).take n := by
  rw [touch, List.erase_of_not_mem h]

@[simp] lemma recent_nil : recent n ([] : List α) = [] := rfl

@[simp] lemma recent_concat : recent n (ts ++ [t]) = touch n (recent n ts) t := by
  simp [recent]

/-- A new last value is the only one of its kind in the list of last occurrences. -/
lemma dedup_concat : (ts ++ [t]).dedup = ts.dedup.filter (· != t) ++ [t] := by
  induction ts with
  | nil => simp
  | cons a ts ih =>
    rw [List.cons_append]
    by_cases ha : a ∈ ts
    · rw [List.dedup_cons_of_mem (List.mem_append_left _ ha), List.dedup_cons_of_mem ha, ih]
    · rw [List.dedup_cons_of_notMem ha]
      by_cases hat : a = t
      · rw [List.dedup_cons_of_mem (by simp [hat]), ih, List.filter_cons_of_neg (by simp [hat])]
      · rw [List.dedup_cons_of_notMem (by simp [ha, hat]), ih,
          List.filter_cons_of_pos (by simp [hat]), List.cons_append]

lemma length_dedup_concat :
    (ts ++ [t]).dedup.length = ts.dedup.length + if t ∈ ts then 0 else 1 := by
  rw [dedup_concat, List.length_append, List.length_singleton,
    ← (List.nodup_dedup ts).erase_eq_filter]
  by_cases ht : t ∈ ts
  · rw [if_pos ht, List.length_erase_add_one (List.mem_dedup.mpr ht), Nat.add_zero]
  · rw [if_neg ht, List.erase_of_not_mem (fun h => ht (List.mem_dedup.mp h))]

lemma length_dedup_le {us : List α} (h : ts ⊆ us) : ts.dedup.length ≤ us.dedup.length := by
  apply ((List.nodup_dedup ts).subperm ?_).length_le
  intro u hu
  exact List.mem_dedup.mpr (h (List.mem_dedup.mp hu))

/-- What leaves a prefix that one value enters does not depend on the rest of the list. -/
lemma take_erase_take : ((l.take (n + 1)).erase t).take n = (l.erase t).take n := by
  induction l generalizing n with
  | nil => simp
  | cons a l ih =>
    rw [List.take_succ_cons]
    by_cases ha : a = t
    · rw [ha, List.erase_cons_head, List.erase_cons_head, List.take_take, Nat.min_self]
    · rw [List.erase_cons_tail (by simpa using ha), List.erase_cons_tail (by simpa using ha)]
      cases n with
      | zero => rfl
      | succ n => rw [List.take_succ_cons, List.take_succ_cons, ih]

/-- The values used last are those that occur last. -/
theorem recent_eq : recent n ts = ts.dedup.reverse.take n := by
  induction ts using List.reverseRecOn with
  | nil => simp
  | append_singleton ts t ih =>
    have hnodup : ts.dedup.reverse.Nodup := List.nodup_reverse.mpr (List.nodup_dedup ts)
    rw [recent_concat, ih, dedup_concat, List.reverse_append, List.reverse_singleton,
      List.singleton_append, ← List.filter_reverse, touch]
    cases n with
    | zero => rfl
    | succ n =>
      rw [List.take_succ_cons, List.take_succ_cons, take_erase_take, hnodup.erase_eq_filter]

lemma length_recent : (recent n ts).length = min n ts.dedup.length := by
  rw [recent_eq, List.length_take, List.length_reverse]

lemma length_recent_le : (recent n ts).length ≤ n := by
  rw [length_recent]
  exact Nat.min_le_left _ _

/-- The list of a smaller bound is a prefix of the list of a larger one. -/
theorem take_recent (h : n ≤ m) : (recent m ts).take n = recent n ts := by
  rw [recent_eq, recent_eq, List.take_take, Nat.min_eq_left h]

lemma recent_subset (h : n ≤ m) : recent n ts ⊆ recent m ts := by
  rw [← take_recent h]
  exact List.take_subset _ _

/-- The value used first does not count when it is used again. -/
lemma recent_cons_of_mem (h : t ∈ ts) : recent n (t :: ts) = recent n ts := by
  rw [recent_eq, recent_eq, List.dedup_cons_of_mem h]

/-- The value used first and never again is the least recent one. -/
lemma recent_cons_of_notMem (h : t ∉ ts) :
    recent n (t :: ts) = (ts.dedup.reverse ++ [t]).take n := by
  rw [recent_eq, List.dedup_cons_of_notMem h, List.reverse_cons]

/-- Another value is found with the first use and without it. -/
lemma mem_recent_cons_of_ne (h : u ≠ t) : u ∈ recent n (t :: ts) ↔ u ∈ recent n ts := by
  by_cases ht : t ∈ ts
  · rw [recent_cons_of_mem ht]
  · rw [recent_cons_of_notMem ht, recent_eq, List.take_append, List.mem_append, or_iff_left]
    intro hu
    exact h (List.mem_singleton.mp (List.mem_of_mem_take hu))

lemma mem_of_mem_recent (h : t ∈ recent n ts) : t ∈ ts := by
  rw [recent_eq] at h
  exact List.mem_dedup.mp (List.mem_reverse.mp (List.mem_of_mem_take h))

/-- A value that is not used again stays until `n` others were used. -/
lemma mem_recent_cons_self (h : t ∉ ts) : t ∈ recent n (t :: ts) ↔ ts.dedup.length < n := by
  rw [recent_cons_of_notMem h, List.take_append, List.mem_append, List.length_reverse]
  constructor
  · rintro (ht | ht)
    · exact absurd (List.mem_dedup.mp (List.mem_reverse.mp (List.mem_of_mem_take ht))) h
    · by_contra hlt
      rw [Nat.sub_eq_zero_of_le (by omega)] at ht
      simp at ht
  · intro hlt
    right
    rw [List.take_of_length_le (by rw [List.length_singleton]; omega)]
    simp

section Since

/-- The values used after the last use of `t`, and all values if there is none. -/
def since (t : α) (ts : List α) : List α := ts.rtakeWhile (· ≠ t)

lemma since_cons_of_mem (h : t ∈ ts) : since t (u :: ts) = since t ts := by
  have hne : (ts.reverse.takeWhile (· ≠ t)).length ≠ ts.reverse.length := by
    intro heq
    have hself := (List.takeWhile_prefix (· ≠ t)).eq_of_length heq
    have := List.takeWhile_eq_self_iff.mp hself t (List.mem_reverse.mpr h)
    simp at this
  rw [since, since, List.rtakeWhile, List.rtakeWhile, List.reverse_cons, List.takeWhile_append,
    if_neg hne]

lemma since_cons_self (h : t ∉ ts) : since t (t :: ts) = ts := by
  have hself : (ts.reverse.takeWhile (· ≠ t)) = ts.reverse := by
    rw [List.takeWhile_eq_self_iff]
    intro u hu
    simpa using ne_of_mem_of_not_mem (List.mem_reverse.mp hu) h
  rw [since, List.rtakeWhile, List.reverse_cons, List.takeWhile_append, if_pos (by rw [hself])]
  simp

lemma length_since_lt (h : t ∈ ts) : (since t ts).length < ts.length := by
  induction ts with
  | nil => simp at h
  | cons u ts ih =>
    by_cases hts : t ∈ ts
    · rw [since_cons_of_mem hts, List.length_cons]
      exact Nat.lt_succ_of_lt (ih hts)
    · obtain rfl := (List.mem_cons.mp h).resolve_right hts
      rw [since_cons_self hts, List.length_cons]
      exact Nat.lt_succ_self _

/-- A value is among the `n` that were used last if it was used, and fewer than `n` others since. -/
theorem mem_recent_iff : t ∈ recent n ts ↔ t ∈ ts ∧ (since t ts).dedup.length < n := by
  induction ts with
  | nil => simp
  | cons u ts ih =>
    by_cases hts : t ∈ ts
    · have hrecent : t ∈ recent n (u :: ts) ↔ t ∈ recent n ts := by
        by_cases hu : t = u
        · rw [recent_cons_of_mem (hu ▸ hts)]
        · exact mem_recent_cons_of_ne hu
      rw [hrecent, ih, since_cons_of_mem hts]
      simp [hts]
    · by_cases hu : t = u
      · subst hu
        rw [mem_recent_cons_self hts, since_cons_self hts]
        simp
      · have hnot : t ∉ u :: ts := by simp [hu, hts]
        exact iff_of_false (fun h => hnot (mem_of_mem_recent h)) (fun h => hnot h.1)

lemma since_append_cons (h : t ∉ ts) (l : List α) : since t (l ++ t :: ts) = ts := by
  induction l with
  | nil => exact since_cons_self h
  | cons u l ih => rw [List.cons_append, since_cons_of_mem (by simp), ih]

end Since

section Patterns

variable {β γ : Type*} [DecidableEq β] {f : γ → α} {g : γ → β} {x : γ} {xs : List γ}

/-- The number of different values depends only on which of them are equal. -/
lemma length_dedup_map (h : ∀ y ∈ xs, ∀ z ∈ xs, f y = f z ↔ g y = g z) :
    (xs.map f).dedup.length = (xs.map g).dedup.length := by
  induction xs with
  | nil => rfl
  | cons x xs ih =>
    have hrest := ih fun y hy z hz => h y (List.mem_cons_of_mem x hy) z (List.mem_cons_of_mem x hz)
    have hmem : f x ∈ xs.map f ↔ g x ∈ xs.map g := by
      simp only [List.mem_map]
      constructor
      · rintro ⟨y, hy, heq⟩
        exact ⟨y, hy, (h y (by simp [hy]) x (by simp)).mp heq⟩
      · rintro ⟨y, hy, heq⟩
        exact ⟨y, hy, (h y (by simp [hy]) x (by simp)).mpr heq⟩
    rw [List.map_cons, List.map_cons]
    by_cases hx : f x ∈ xs.map f
    · rw [List.dedup_cons_of_mem hx, List.dedup_cons_of_mem (hmem.mp hx), hrest]
    · rw [List.dedup_cons_of_notMem hx, List.dedup_cons_of_notMem (mt hmem.mpr hx), List.length_cons,
        List.length_cons, hrest]

lemma since_map (f : γ → α) (x : γ) (xs : List γ) :
    since (f x) (xs.map f) = (xs.rtakeWhile (fun y => f y ≠ f x)).map f := by
  rw [since, List.rtakeWhile, List.rtakeWhile, ← List.map_reverse, List.takeWhile_map,
    List.map_reverse]
  rfl

/-- What was used since depends only on which values are equal. -/
lemma rtakeWhile_pattern (h : ∀ y ∈ xs, f y = f x ↔ g y = g x) :
    xs.rtakeWhile (fun y => f y ≠ f x) = xs.rtakeWhile (fun y => g y ≠ g x) := by
  induction xs using List.reverseRecOn with
  | nil => simp
  | append_singleton xs y ih =>
    have hy := h y (by simp)
    rw [List.rtakeWhile_concat, List.rtakeWhile_concat,
      ih fun z hz => h z (List.mem_append_left _ hz)]
    simp only [ne_eq, hy]

end Patterns

end SystemsLabs.Library
