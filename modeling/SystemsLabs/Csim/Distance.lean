import SystemsLabs.Csim.Reference

/-!
# Outcomes from the trace alone

What an access does depends only on which earlier accesses went to its set and to its block. The
counters are sums over the trace that mention no cache, so they survive a shift of all data, and a
working set that is swept again and again hits in the sets where it fits.
-/

namespace SystemsLabs.Csim
open Library

/-- An access finds its tag `t` in a set that was accessed with the tags `ts`: fewer than `E` other
tags were used since the last use of `t`. The first access of the trace is only found while no other
tag was used. -/
def Reuses (E : ℕ) (first : Bool) (ts : List (BitVec 64)) (t : BitVec 64) : Prop :=
  t ∈ ts ∧ (since t ts).dedup.length < E ∧
    (first = true → since t ts ≠ [] → (since t ts).length + 1 < ts.length)

instance (E : ℕ) (first : Bool) (ts : List (BitVec 64)) (t : BitVec 64) :
    Decidable (Reuses E first ts t) :=
  inferInstanceAs (Decidable (_ ∧ _ ∧ (_ → _ → _)))

/-- A miss replaces a used block of the set. -/
def Full (E : ℕ) (first : Bool) (ts : List (BitVec 64)) : Prop :=
  E ≤ (counting first ts).dedup.length ∨ first = true ∧ ts.length = 1

instance (E : ℕ) (first : Bool) (ts : List (BitVec 64)) : Decidable (Full E first ts) :=
  inferInstanceAs (Decidable (_ ∨ _ ∧ _))

/-- An access to `a` behind the accesses `as` is a hit. -/
def hitsAt (s E b : ℕ) (as : List (BitVec 64)) (a : BitVec 64) : Bool :=
  decide (Reuses E (isFirst s b (index s b a) as) (tagsAt s b (index s b a) as) (tag s b a))

/-- An access to `a` behind the accesses `as` evicts a block. -/
def evictsAt (s E b : ℕ) (as : List (BitVec 64)) (a : BitVec 64) : Bool :=
  !hitsAt s E b as a &&
    decide (Full E (isFirst s b (index s b a) as) (tagsAt s b (index s b a) as))

/-- The number of the values of `as` that `p` holds for, given the values in front of them. -/
def countAlong {α : Type*} (p : List α → α → Bool) : List α → List α → ℕ
  | _, [] => 0
  | pre, a :: as => (p pre a).toNat + countAlong p (pre ++ [a]) as

section Counting

variable {α : Type*} {p q : List α → α → Bool} {pre as as' : List α} {a : α}

lemma countAlong_append :
    countAlong p pre (as ++ as') = countAlong p pre as + countAlong p (pre ++ as) as' := by
  induction as generalizing pre with
  | nil => simp [countAlong]
  | cons a as ih => rw [List.cons_append, countAlong, ih, countAlong, List.append_assoc,
      List.singleton_append, Nat.add_assoc]

/-- Only the splits of the list matter. -/
lemma countAlong_congr {pre' : List α}
    (h : ∀ l a r, as = l ++ a :: r → p (pre ++ l) a = q (pre' ++ l) a) :
    countAlong p pre as = countAlong q pre' as := by
  induction as generalizing pre pre' with
  | nil => rfl
  | cons a as ih =>
    have hhead := h [] a as rfl
    rw [List.append_nil, List.append_nil] at hhead
    rw [countAlong, countAlong, hhead]
    congr 1
    apply ih
    rintro l x r rfl
    simpa using h (a :: l) x r rfl

lemma countAlong_const (f : α → Bool) : countAlong (fun _ => f) pre as = as.countP f := by
  induction as generalizing pre with
  | nil => rfl
  | cons a as ih =>
    rw [countAlong, ih, List.countP_cons, Nat.add_comm]
    cases f a <;> rfl

lemma countAlong_concat :
    countAlong p pre (as ++ [a]) = countAlong p pre as + (p (pre ++ as) a).toNat := by
  rw [countAlong_append, countAlong, countAlong, Nat.add_zero]

end Counting

section Outcomes

variable {E now : ℕ} {first : Bool} {set : List Block} {ts : List (BitVec 64)} {t : BitVec 64}

lemma mem_recent_counting : t ∈ recent E (counting first ts) ↔ Reuses E first ts t := by
  cases first with
  | false =>
    rw [counting_false, mem_recent_iff, Reuses]
    simp
  | true =>
    rcases ts with _ | ⟨t₀, _ | ⟨t', ts⟩⟩
    · simp [counting, Reuses]
    · have hcounting : counting true [t₀] = [t₀] := rfl
      rw [hcounting, mem_recent_iff, Reuses]
      by_cases ht : t = t₀
      · subst ht
        simp [since_cons_self]
      · simp [ht]
    · rw [counting, mem_recent_iff, Reuses]
      by_cases hts : t ∈ t' :: ts
      · have hlt := length_since_lt hts
        rw [since_cons_of_mem hts]
        simp only [hts, true_and, List.mem_cons_of_mem t₀ hts, List.length_cons] at hlt ⊢
        constructor
        · intro h
          exact ⟨h, fun _ _ => by omega⟩
        · exact fun h => h.1
      · -- only the first access of the trace has this tag
        apply iff_of_false (fun h => hts h.1)
        rintro ⟨hmem, -, hlate⟩
        obtain rfl := (List.mem_cons.mp hmem).resolve_right hts
        rw [since_cons_self hts] at hlate
        have := hlate rfl (by simp)
        simp at this

/-- The accesses to a set decide whether the next one evicts a block. -/
lemma SetAfter.isEviction_iff (h : SetAfter E now set first ts) (hE : 0 < E) (hnow : 0 < now)
    (hbound : now < 2 ^ 64) : isEviction set t = true ↔ ¬Reuses E first ts t ∧ Full E first ts := by
  rw [← mem_recent_counting]
  cases h with
  | @plain us ts h hts =>
    have hlength : (us.map Block.tag).length = us.length := List.length_map _
    obtain ⟨-, -, -, hevict⟩ := h.access (t := t) hE hnow hbound
    rw [hevict, counting_false, ← hlength, hts, length_recent, Full, counting_false]
    simp only [Bool.false_eq_true, false_and, or_false]
    rw [min_eq_left_iff]
  | @first t₀ h =>
    have hcounting : counting true [t₀] = [t₀] := rfl
    have hevict : isEviction (firstSet E t₀) t = true ↔ t ≠ t₀ := (access_firstSet hE hnow).2
    rw [h, hevict, hcounting, recent_singleton hE, Full]
    simp
  | @settled us t₀ t' ts h hts =>
    have hlength : (us.map Block.tag).length = us.length := List.length_map _
    obtain ⟨-, -, -, hevict⟩ := h.access (t := t) hE hnow hbound
    rw [hevict, counting, ← hlength, hts, length_recent, Full, counting]
    simp

end Outcomes

section Totals

variable {s E b : ℕ} {as : List (BitVec 64)} {a : BitVec 64}

lemma isHit_eq_hitsAt (hs : s < 64) (hE : 0 < E) (hbound : as.length ≤ 2 ^ 64) :
    isHit ((afterAccesses s E b as).setAt s b a) (tag s b a) = hitsAt s E b as a := by
  rw [Bool.eq_iff_iff, isHit_afterAccesses hs hE hbound, mem_recent_counting, hitsAt, decide_eq_true_iff]

lemma isEviction_eq_evictsAt (hs : s < 64) (hE : 0 < E) (hbound : as.length < 2 ^ 64) :
    isEviction ((afterAccesses s E b as).setAt s b a) (tag s b a) = evictsAt s E b as a := by
  have hj := index_lt hs b a
  by_cases has : as = []
  · subst has
    have hset : (afterAccesses s E b []).setAt s b a = List.replicate E emptyBlock := initCache_getD hj
    rw [hset, (access_empty hE).2.2]
    simp [evictsAt, Full, tagsAt, isFirst, hE.ne']
  · have hafter := (cacheAfter (b := b) hs hE hbound.le).sets _ hj
    rw [Bool.eq_iff_iff, Cache.setAt,
      hafter.isEviction_iff hE (List.length_pos_iff.mpr has) hbound, evictsAt, hitsAt]
    simp

/-- The counters of the simulator are sums over the accesses. -/
lemma counters_eq (hs : s < 64) (hE : 0 < E) (hbound : as.length ≤ 2 ^ 64) :
    (afterAccesses s E b as).hits = countAlong (hitsAt s E b) [] as ∧
      (afterAccesses s E b as).misses = countAlong (fun as a => !hitsAt s E b as a) [] as ∧
      (afterAccesses s E b as).evictions = countAlong (evictsAt s E b) [] as := by
  induction as using List.reverseRecOn with
  | nil => exact ⟨rfl, rfl, rfl⟩
  | append_singleton as a ih =>
    rw [List.length_append, List.length_singleton] at hbound
    obtain ⟨hhits, hmisses, hevictions⟩ := ih (by omega)
    rw [afterAccesses_concat, cacheAccess_hits, cacheAccess_misses, cacheAccess_evictions,
      isHit_eq_hitsAt hs hE (by omega), isEviction_eq_evictsAt hs hE (by omega), countAlong_concat,
      countAlong_concat, countAlong_concat, List.nil_append, hhits, hmisses, hevictions]
    exact ⟨rfl, rfl, rfl⟩

end Totals

section Moved

variable {s E b : ℕ} {as : List (BitVec 64)} {a a' : BitVec 64} {f g : BitVec 64 → BitVec 64}
  {first : Bool} {xs : List (BitVec 64)}

/-- Whether a tag is found depends only on which tags are equal. -/
lemma reuses_pattern (h : ∀ y ∈ a :: xs, ∀ z ∈ a :: xs, f y = f z ↔ g y = g z) :
    Reuses E first (xs.map f) (f a) ↔ Reuses E first (xs.map g) (g a) := by
  have hmem : f a ∈ xs.map f ↔ g a ∈ xs.map g := by
    simp only [List.mem_map]
    constructor
    · rintro ⟨y, hy, heq⟩
      exact ⟨y, hy, (h y (List.mem_cons_of_mem a hy) a (by simp)).mp heq⟩
    · rintro ⟨y, hy, heq⟩
      exact ⟨y, hy, (h y (List.mem_cons_of_mem a hy) a (by simp)).mpr heq⟩
  have hlast := rtakeWhile_pattern fun y hy => h y (List.mem_cons_of_mem a hy) a (by simp)
  have hlater : xs.rtakeWhile (fun y => g y ≠ g a) ⊆ a :: xs := fun y hy =>
    List.mem_cons_of_mem a (List.rtakeWhile_suffix _ _ |>.subset hy)
  have hcount : ((xs.rtakeWhile (fun y => g y ≠ g a)).map f).dedup.length =
      ((xs.rtakeWhile (fun y => g y ≠ g a)).map g).dedup.length :=
    length_dedup_map fun y hy z hz => h y (hlater hy) z (hlater hz)
  rw [Reuses, Reuses, hmem, since_map, since_map, hlast, hcount]
  simp only [List.length_map, ne_eq, List.map_eq_nil_iff]

lemma counting_map : counting first (xs.map f) = (counting first xs).map f := by
  cases first with
  | false => rw [counting_false, counting_false]
  | true => rcases xs with _ | ⟨x, _ | ⟨y, xs⟩⟩ <;> rfl

lemma counting_subset : counting first xs ⊆ xs := by
  cases first with
  | false => rw [counting_false]; exact List.Subset.refl xs
  | true => rcases xs with _ | ⟨x, _ | ⟨y, xs⟩⟩ <;> simp [counting]

lemma full_pattern (h : ∀ y ∈ xs, ∀ z ∈ xs, f y = f z ↔ g y = g z) :
    Full E first (xs.map f) ↔ Full E first (xs.map g) := by
  have hsub : counting first xs ⊆ xs := counting_subset
  have hcount : ((counting first xs).map f).dedup.length = ((counting first xs).map g).dedup.length :=
    length_dedup_map fun y hy z hz => h y (hsub hy) z (hsub hz)
  rw [Full, Full, counting_map, counting_map, hcount, List.length_map, List.length_map]

/-- The tags of the set of `a` after all addresses were changed by `f`. -/
lemma tagsAt_map (h : ∀ x, index s b (f x) = index s b (f a) ↔ index s b x = index s b a) :
    tagsAt s b (index s b (f a)) (as.map f) =
      (as.filter (fun x => index s b x = index s b a)).map (fun x => tag s b (f x)) := by
  rw [tagsAt, List.filter_map, List.map_map]
  congr 1
  apply List.filter_congr
  intro x _
  simpa using h x

lemma isFirst_map (h : ∀ x, index s b (f x) = index s b (f a) ↔ index s b x = index s b a) :
    isFirst s b (index s b (f a)) (as.map f) = isFirst s b (index s b a) as := by
  cases as with
  | nil => rfl
  | cons x as => simp [isFirst, h x]

/-- A change of the addresses that keeps which of them share a set, and which addresses of a set
share a tag, changes no outcome. -/
lemma outcome_map (hindex : ∀ x y, index s b (f x) = index s b (f y) ↔ index s b x = index s b y)
    (htag : ∀ x y, index s b x = index s b y →
      (tag s b (f x) = tag s b (f y) ↔ tag s b x = tag s b y)) :
    hitsAt s E b (as.map f) (f a) = hitsAt s E b as a ∧
      evictsAt s E b (as.map f) (f a) = evictsAt s E b as a := by
  have hset : ∀ y ∈ as.filter (fun x => index s b x = index s b a), index s b y = index s b a := by
    intro y hy
    simpa using (List.mem_filter.mp hy).2
  have hpattern : ∀ y ∈ a :: as.filter (fun x => index s b x = index s b a),
      ∀ z ∈ a :: as.filter (fun x => index s b x = index s b a),
        tag s b (f y) = tag s b (f z) ↔ tag s b y = tag s b z := by
    have hindexed : ∀ y ∈ a :: as.filter (fun x => index s b x = index s b a),
        index s b y = index s b a := List.forall_mem_cons.mpr ⟨rfl, hset⟩
    intro y hy z hz
    exact htag y z ((hindexed y hy).trans (hindexed z hz).symm)
  have hreuses : Reuses E (isFirst s b (index s b a) as)
      ((as.filter (fun x => index s b x = index s b a)).map (fun x => tag s b (f x))) (tag s b (f a)) ↔
      Reuses E (isFirst s b (index s b a) as) (tagsAt s b (index s b a) as) (tag s b a) :=
    reuses_pattern (f := fun x => tag s b (f x)) (g := tag s b) hpattern
  have hfull : Full E (isFirst s b (index s b a) as)
      ((as.filter (fun x => index s b x = index s b a)).map (fun x => tag s b (f x))) ↔
      Full E (isFirst s b (index s b a) as) (tagsAt s b (index s b a) as) :=
    full_pattern (f := fun x => tag s b (f x)) (g := tag s b)
      fun y hy z hz => hpattern y (List.mem_cons_of_mem a hy) z (List.mem_cons_of_mem a hz)
  have hhits : hitsAt s E b (as.map f) (f a) = hitsAt s E b as a := by
    rw [hitsAt, isFirst_map fun x => hindex x a, tagsAt_map fun x => hindex x a, hitsAt,
      decide_eq_decide]
    exact hreuses
  refine ⟨hhits, ?_⟩
  rw [evictsAt, hhits, isFirst_map fun x => hindex x a, tagsAt_map fun x => hindex x a, evictsAt,
    decide_eq_decide.mpr hfull]

lemma countAlong_map {p q : List (BitVec 64) → BitVec 64 → Bool}
    (h : ∀ as a, p (as.map f) (f a) = q as a) (pre : List (BitVec 64)) :
    countAlong p (pre.map f) (as.map f) = countAlong q pre as := by
  induction as generalizing pre with
  | nil => rfl
  | cons a as ih =>
    have hrest := ih (pre ++ [a])
    rw [List.map_append, List.map_singleton] at hrest
    rw [List.map_cons, countAlong, h, hrest, countAlong]

/-- The block number of an address. -/
lemma toNat_shiftRight (b : ℕ) (a : BitVec 64) : (a >>> b).toNat = a.toNat / 2 ^ b := by
  rw [BitVec.toNat_ushiftRight, Nat.shiftRight_eq_div_pow]

lemma index_eq (hs : s < 64) : index s b a = a.toNat / 2 ^ b % 2 ^ s := by
  have hlt : 2 ^ s < 2 ^ 64 := Nat.pow_lt_pow_right (by norm_num) hs
  rw [index, BitVec.toNat_and, BitVec.toNat_ofNat, Nat.mod_eq_of_lt (by omega), toNat_shiftRight,
    Nat.and_two_pow_sub_one_eq_mod]

lemma tag_eq : (tag s b a).toNat = a.toNat / 2 ^ b / 2 ^ s := by
  rw [tag, toNat_shiftRight, Nat.add_comm, pow_add, Nat.div_div_eq_div_mul]

/-- Two addresses are in one block exactly if they share the set and the tag. -/
lemma block_eq_iff (hs : s < 64) :
    a.toNat / 2 ^ b = a'.toNat / 2 ^ b ↔ index s b a = index s b a' ∧ tag s b a = tag s b a' := by
  rw [index_eq hs, index_eq hs, ← BitVec.toNat_inj, tag_eq, tag_eq]
  constructor
  · intro h
    rw [h]
    exact ⟨rfl, rfl⟩
  · rintro ⟨hindex, htag⟩
    rw [← Nat.div_add_mod (a.toNat / 2 ^ b) (2 ^ s), hindex, htag, Nat.div_add_mod]

/-- The number of the block that is `c` blocks behind, modulo the size of the address space. -/
lemma block_add (hb : b ≤ 64) (a c : BitVec 64) : (a + c <<< b).toNat / 2 ^ b =
    (a.toNat / 2 ^ b + c.toNat) % 2 ^ (64 - b) := by
  have hpow : 2 ^ 64 = 2 ^ b * 2 ^ (64 - b) := by rw [← pow_add, Nat.add_sub_cancel' hb]
  rw [BitVec.toNat_add, BitVec.toNat_shiftLeft, Nat.shiftLeft_eq, Nat.add_mod_mod, hpow,
    Nat.mod_mul_right_div_self, Nat.add_mul_div_right _ _ (Nat.two_pow_pos b)]

lemma index_moved (hs : s < 64) (hb : s + b ≤ 64) (c x y : BitVec 64) :
    index s b (x + c <<< b) = index s b (y + c <<< b) ↔ index s b x = index s b y := by
  have hdvd : 2 ^ s ∣ 2 ^ (64 - b) := pow_dvd_pow 2 (by omega)
  rw [index_eq hs, index_eq hs, index_eq hs, index_eq hs, block_add (by omega), block_add (by omega),
    Nat.mod_mod_of_dvd _ hdvd, Nat.mod_mod_of_dvd _ hdvd]
  exact Nat.ModEq.add_iff_right rfl

lemma block_moved (hb : b ≤ 64) (c x y : BitVec 64) :
    (x + c <<< b).toNat / 2 ^ b = (y + c <<< b).toNat / 2 ^ b ↔
      x.toNat / 2 ^ b = y.toNat / 2 ^ b := by
  have hlt : ∀ z : BitVec 64, z.toNat / 2 ^ b < 2 ^ (64 - b) := by
    intro z
    rw [Nat.div_lt_iff_lt_mul (Nat.two_pow_pos b), ← pow_add, Nat.sub_add_cancel hb]
    exact z.isLt
  rw [block_add hb, block_add hb]
  constructor
  · intro h
    have hmod : x.toNat / 2 ^ b ≡ y.toNat / 2 ^ b [MOD 2 ^ (64 - b)] := Nat.ModEq.add_right_cancel' _ h
    exact hmod.eq_of_lt_of_lt (hlt x) (hlt y)
  · intro h
    rw [h]

end Moved

/-- All addresses of the trace are `c` blocks further on, modulo the size of the address space. -/
def moved (b : ℕ) (c : BitVec 64) (file : List (Op × BitVec 64)) : List (Op × BitVec 64) :=
  file.map fun r => (r.1, r.2 + c <<< b)

lemma accesses_cons (r : Op × BitVec 64) (file : List (Op × BitVec 64)) :
    accesses (r :: file) = r.1.accesses r.2 ++ accesses file := by
  rw [accesses, List.flatMap_cons, accesses]

lemma accesses_moved (b : ℕ) (c : BitVec 64) (file : List (Op × BitVec 64)) :
    accesses (moved b c file) = (accesses file).map (· + c <<< b) := by
  induction file with
  | nil => rfl
  | cons r file ih =>
    obtain ⟨opt, addr⟩ := r
    rw [moved, List.map_cons, accesses_cons, ← moved, ih, accesses_cons, List.map_append]
    cases opt <;> rfl

/-- The totals do not depend on where the data lies: a shift by whole blocks changes no counter. -/
theorem simulate_moved {s E b : ℕ} {file : List (Op × BitVec 64)} (c : BitVec 64) (hs : s ≤ 30)
    (hE : 1 ≤ E) (hb : s + b ≤ 64) (hbound : (accesses file).length < 2 ^ 31) :
    (simulate s b (initCache s E) (moved b c file)).hits = (simulate s b (initCache s E) file).hits ∧
      (simulate s b (initCache s E) (moved b c file)).misses =
        (simulate s b (initCache s E) file).misses ∧
      (simulate s b (initCache s E) (moved b c file)).evictions =
        (simulate s b (initCache s E) file).evictions := by
  have hs' : s < 64 := by omega
  have hindex := index_moved hs' hb c
  have htag : ∀ x y, index s b x = index s b y →
      (tag s b (x + c <<< b) = tag s b (y + c <<< b) ↔ tag s b x = tag s b y) := by
    intro x y hxy
    have hmoved : (x + c <<< b).toNat / 2 ^ b = (y + c <<< b).toNat / 2 ^ b ↔ _ := block_eq_iff hs'
    have hplain : x.toNat / 2 ^ b = y.toNat / 2 ^ b ↔ _ := block_eq_iff hs'
    rw [block_moved (by omega), hplain, hindex] at hmoved
    simpa [hxy] using hmoved.symm
  have houtcome : ∀ as a, hitsAt s E b (as.map (· + c <<< b)) (a + c <<< b) = hitsAt s E b as a ∧
      evictsAt s E b (as.map (· + c <<< b)) (a + c <<< b) = evictsAt s E b as a :=
    fun as a => outcome_map hindex htag
  rw [simulate_initCache, simulate_initCache, accesses_moved]
  have hplain : (accesses file).length ≤ 2 ^ 64 := by omega
  have hlength : ((accesses file).map (· + c <<< b)).length ≤ 2 ^ 64 := by
    rw [List.length_map]
    exact hplain
  obtain ⟨hhits, hmisses, hevictions⟩ := counters_eq (b := b) hs' hE hplain
  obtain ⟨hhits', hmisses', hevictions'⟩ := counters_eq (b := b) hs' hE hlength
  rw [hhits, hmisses, hevictions, hhits', hmisses', hevictions']
  refine ⟨countAlong_map (fun as a => (houtcome as a).1) [], ?_,
    countAlong_map (fun as a => (houtcome as a).2) []⟩
  exact countAlong_map (p := fun as a => !hitsAt s E b as a)
    (fun as a => congrArg _ (houtcome as a).1) []

/-- Two blocks of one set that lie in two sets behind the shift. -/
theorem simulate_moved_block :
    (simulate 1 1 (initCache 1 2) (moved 1 3 [(Op.L, 0), (Op.M, 4), (Op.S, 1)])).hits =
        (simulate 1 1 (initCache 1 2) [(Op.L, 0), (Op.M, 4), (Op.S, 1)]).hits ∧
      (simulate 1 1 (initCache 1 2) (moved 1 3 [(Op.L, 0), (Op.M, 4), (Op.S, 1)])).misses =
        (simulate 1 1 (initCache 1 2) [(Op.L, 0), (Op.M, 4), (Op.S, 1)]).misses ∧
      (simulate 1 1 (initCache 1 2) (moved 1 3 [(Op.L, 0), (Op.M, 4), (Op.S, 1)])).evictions =
        (simulate 1 1 (initCache 1 2) [(Op.L, 0), (Op.M, 4), (Op.S, 1)]).evictions :=
  simulate_moved 3 (by decide) (by decide) (by decide) (by decide)

/-! ### Sweeps -/

/-- The number of blocks of `w` in the set of `a`, if `w` accesses each block once. -/
def load (s b : ℕ) (w : List (BitVec 64)) (a : BitVec 64) : ℕ := (tagsAt s b (index s b a) w).length

/-- The extra miss of the second sweep, on the access that the trace begins with. -/
def restart (s E b : ℕ) : List (BitVec 64) → ℕ
  | [] => 0
  | a :: w => if 1 < load s b (a :: w) a ∧ load s b (a :: w) a ≤ E then 1 else 0

section Sweeps

variable {s E b c j k : ℕ} {w w₁ w₂ : List (BitVec 64)} {a : BitVec 64}

lemma tagsAt_append : tagsAt s b j (w₁ ++ w₂) = tagsAt s b j w₁ ++ tagsAt s b j w₂ := by
  simp [tagsAt]

lemma isFirst_append (h : w₁ ≠ []) : isFirst s b j (w₁ ++ w₂) = isFirst s b j w₁ := by
  cases w₁ with
  | nil => exact absurd rfl h
  | cons x w₁ => rfl

lemma tagsAt_replicate : tagsAt s b j (List.replicate c w).flatten =
    (List.replicate c (tagsAt s b j w)).flatten := by
  induction c with
  | zero => rfl
  | succ c ih => rw [List.replicate_succ, List.flatten_cons, tagsAt_append, ih, List.replicate_succ,
      List.flatten_cons]

lemma mem_tagsAt {t : BitVec 64} : t ∈ tagsAt s b j w ↔ ∃ x ∈ w, index s b x = j ∧ tag s b x = t := by
  simp only [tagsAt, List.mem_map, List.mem_filter, decide_eq_true_eq, and_assoc]

/-- Different blocks have different tags in their set. -/
lemma tagsAt_nodup (hs : s < 64) (hw : (w.map fun x : BitVec 64 => x >>> b).Nodup) : (tagsAt s b j w).Nodup := by
  rw [tagsAt]
  refine List.Nodup.map_on ?_ ((List.Nodup.of_map _ hw).filter _)
  intro x hx y hy htag
  rw [List.mem_filter, decide_eq_true_iff] at hx hy
  have hblock := (block_eq_iff (b := b) hs).mpr ⟨hx.2.trans hy.2.symm, htag⟩
  have hshift : x >>> b = y >>> b := by
    rw [← BitVec.toNat_inj, toNat_shiftRight, toNat_shiftRight, hblock]
  exact List.inj_on_of_nodup_map hw hx.1 hy.1 hshift

/-- The accesses to the set of an access in sweep number `c + 1`, split at the one of the sweep
before. -/
lemma tagsAt_sweep (c : ℕ) (w₁ w₂ : List (BitVec 64)) (a : BitVec 64) :
    tagsAt s b (index s b a) ((List.replicate (c + 1) (w₁ ++ a :: w₂)).flatten ++ w₁) =
      ((List.replicate c (tagsAt s b (index s b a) (w₁ ++ a :: w₂))).flatten ++
        tagsAt s b (index s b a) w₁) ++
          tag s b a :: (tagsAt s b (index s b a) w₂ ++ tagsAt s b (index s b a) w₁) := by
  have htags : tagsAt s b (index s b a) (w₁ ++ a :: w₂) =
      tagsAt s b (index s b a) w₁ ++ tag s b a :: tagsAt s b (index s b a) w₂ := by
    rw [tagsAt_append, tagsAt_cons, if_pos rfl]
  rw [tagsAt_append, tagsAt_replicate, List.replicate_succ', List.flatten_append]
  simp [htags]

lemma load_eq (w₁ w₂ : List (BitVec 64)) (a : BitVec 64) : load s b (w₁ ++ a :: w₂) a =
    (tagsAt s b (index s b a) w₂ ++ tagsAt s b (index s b a) w₁).length + 1 := by
  rw [load, tagsAt_append, tagsAt_cons, if_pos rfl, List.length_append, List.length_cons,
    List.length_append]
  omega

/-- An access in the first sweep finds nothing. -/
lemma hitsAt_first (hs : s < 64)
    (hw : ((w₁ ++ a :: w₂).map fun x : BitVec 64 => x >>> b).Nodup) : hitsAt s E b w₁ a = false := by
  have hnodup := tagsAt_nodup (j := index s b a) hs hw
  rw [tagsAt_append, tagsAt_cons, if_pos rfl, List.nodup_middle, List.nodup_cons] at hnodup
  rw [hitsAt, decide_eq_false_iff_not]
  exact fun h => hnodup.1 (List.mem_append_left _ h.1)

/-- An access in sweep number `c + 2` finds its block if the set has room for all its blocks. In the
second sweep the access that the trace begins with must be alone in its set. -/
lemma hitsAt_sweep (hs : s < 64) (c : ℕ)
    (hw : ((w₁ ++ a :: w₂).map fun x : BitVec 64 => x >>> b).Nodup) :
    hitsAt s E b ((List.replicate (c + 1) (w₁ ++ a :: w₂)).flatten ++ w₁) a =
      decide (load s b (w₁ ++ a :: w₂) a ≤ E ∧
        (c = 0 → w₁ = [] → load s b (w₁ ++ a :: w₂) a ≤ 1)) := by
  have hnodup := tagsAt_nodup (j := index s b a) hs hw
  rw [tagsAt_append, tagsAt_cons, if_pos rfl, List.nodup_middle, List.nodup_cons] at hnodup
  have hnew : tag s b a ∉ tagsAt s b (index s b a) w₂ ++ tagsAt s b (index s b a) w₁ := by
    intro hmem
    exact hnodup.1 (List.mem_append.mpr (List.mem_append.mp hmem).symm)
  have hdedup : (tagsAt s b (index s b a) w₂ ++ tagsAt s b (index s b a) w₁).dedup =
      tagsAt s b (index s b a) w₂ ++ tagsAt s b (index s b a) w₁ :=
    List.dedup_eq_self.mpr (List.nodup_append_comm.mp hnodup.2)
  rw [hitsAt, decide_eq_decide, Reuses, tagsAt_sweep, since_append_cons hnew, hdedup, load_eq,
    isFirst_append (by simp)]
  generalize tagsAt s b (index s b a) w₂ ++ tagsAt s b (index s b a) w₁ = Y
  rw [List.length_append, List.length_append, List.length_cons]
  constructor
  · rintro ⟨-, hroom, hfirst⟩
    refine ⟨hroom, ?_⟩
    rintro rfl rfl
    by_contra hmany
    have hne : Y ≠ [] := by
      rintro rfl
      simp at hmany
    have := hfirst (decide_eq_true rfl) hne
    simp [tagsAt] at this
  · rintro ⟨hroom, hfirst⟩
    refine ⟨by simp, hroom, ?_⟩
    intro hindex hne
    have hpos := List.length_pos_iff.mpr hne
    rcases Nat.eq_zero_or_pos c with rfl | hc
    · cases w₁ with
      | nil =>
        have := hfirst rfl rfl
        omega
      | cons x w₁ =>
        have hx : index s b x = index s b a := of_decide_eq_true hindex
        rw [tagsAt_cons, if_pos hx, List.length_cons]
        omega
    · obtain ⟨c, rfl⟩ := Nat.exists_eq_succ_of_ne_zero hc.ne'
      rw [List.replicate_succ, List.flatten_cons, List.length_append, tagsAt_append, tagsAt_cons,
        if_pos rfl, List.length_append, List.length_cons]
      omega

/-- The misses of the first sweep and of a later one. -/
lemma countAlong_first (hs : s < 64) (hw : (w.map fun x : BitVec 64 => x >>> b).Nodup) :
    countAlong (fun as a => !hitsAt s E b as a) [] w = w.length := by
  have hall : countAlong (fun as a => !hitsAt s E b as a) [] w = countAlong (fun _ _ => true) [] w := by
    apply countAlong_congr
    rintro l a r rfl
    rw [List.nil_append, hitsAt_first hs hw, Bool.not_false]
  rw [hall, countAlong_const, List.countP_true]

lemma countAlong_sweep (hs : s < 64) (c : ℕ) (hw : (w.map fun x : BitVec 64 => x >>> b).Nodup) :
    countAlong (fun as a => !hitsAt s E b as a) (List.replicate (c + 1) w).flatten w =
      w.countP (fun a => E < load s b w a) + if c = 0 then restart s E b w else 0 := by
  have hsplit : countAlong (fun as a => !hitsAt s E b as a) (List.replicate (c + 1) w).flatten w =
      countAlong (fun l a => !decide (load s b w a ≤ E ∧ (c = 0 → l = [] → load s b w a ≤ 1))) [] w := by
    apply countAlong_congr
    rintro l a r rfl
    rw [hitsAt_sweep hs c hw, List.nil_append]
  have hrest : ∀ x l, countAlong
      (fun l a => !decide (load s b w a ≤ E ∧ (c = 0 → l = [] → load s b w a ≤ 1))) [x] l =
        l.countP (fun a => E < load s b w a) := by
    intro x l
    have hconst : countAlong (fun _ a => decide (E < load s b w a)) [x] l =
        l.countP (fun a => E < load s b w a) := countAlong_const _
    rw [← hconst]
    apply countAlong_congr
    rintro l a r -
    have hne : ¬[x] ++ l = [] := by simp
    simp only [hne, false_imp_iff, imp_true_iff, and_true, ← decide_not, not_le]
  rw [hsplit]
  cases w with
  | nil => simp [countAlong, restart]
  | cons a w =>
    rw [countAlong, List.nil_append, hrest, List.countP_cons, restart]
    generalize load s b (a :: w) a = n
    have hhead : (!decide (n ≤ E ∧ (c = 0 → ([] : List (BitVec 64)) = [] → n ≤ 1))).toNat =
        (if E < n then 1 else 0) + if c = 0 then if 1 < n ∧ n ≤ E then 1 else 0 else 0 := by
      rcases Nat.lt_or_ge E n with hroom | hroom
      · simp [hroom, not_le.mpr hroom]
      · rcases Nat.lt_or_ge 1 n with hone | hone
        · by_cases hc : c = 0 <;> simp [hroom, hone, hc, not_lt.mpr hroom, not_le.mpr hone]
        · simp [hroom, hone, not_lt.mpr hroom, not_lt.mpr hone]
    rw [hhead]
    simp only [decide_eq_true_eq]
    omega

lemma countAlong_sweeps (hs : s < 64) (k : ℕ) (hw : (w.map fun x : BitVec 64 => x >>> b).Nodup) :
    countAlong (fun as a => !hitsAt s E b as a) [] (List.replicate (k + 1) w).flatten =
      w.length + k * w.countP (fun a => E < load s b w a) +
        if k = 0 then 0 else restart s E b w := by
  induction k with
  | zero => simpa using countAlong_first hs hw
  | succ k ih =>
    rw [List.replicate_succ', List.flatten_append, countAlong_append, ih, List.nil_append,
      List.flatten_singleton, countAlong_sweep hs k hw, if_neg (Nat.succ_ne_zero k), Nat.succ_mul]
    by_cases hk : k = 0
    · rw [if_pos hk, if_pos hk]
      omega
    · rw [if_neg hk, if_neg hk]
      omega

end Sweeps

/-- A working set that is swept `k + 1` times. The first sweep misses on every block and a later one
exactly in the sets that have more blocks of the working set than lines, where it misses on all of
them. The second sweep misses once more on the first access if other blocks share its set. -/
theorem misses_of_sweeps {s E b k : ℕ} {file : List (Op × BitVec 64)} {w : List (BitVec 64)}
    (hs : s ≤ 30) (hE : 1 ≤ E) (hbound : (accesses file).length < 2 ^ 31)
    (hfile : accesses file = (List.replicate (k + 1) w).flatten)
    (hw : (w.map fun x : BitVec 64 => x >>> b).Nodup) :
    (simulate s b (initCache s E) file).misses =
      w.length + k * w.countP (fun a => E < load s b w a) + if k = 0 then 0 else restart s E b w := by
  have hs' : s < 64 := by omega
  rw [simulate_initCache, (counters_eq hs' hE (by omega)).2.1, hfile]
  exact countAlong_sweeps hs' k hw

/-- Three blocks in a set of two lines and one block in the other set, swept three times. -/
theorem misses_of_three_sweeps :
    (simulate 1 1 (initCache 1 2) ((List.replicate 3 [0, 4, 2, 8]).flatten.map (Op.L, ·))).misses =
      4 + 2 * 3 :=
  misses_of_sweeps (w := [0, 4, 2, 8]) (k := 2) (by decide) (by decide) (by decide) (by decide)
    (by decide)

end SystemsLabs.Csim
