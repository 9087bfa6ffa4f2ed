import SystemsLabs.Csim.Simulator
import SystemsLabs.Library.Recency

/-!
# One set of the simulator

The valid blocks of a set in the order of their counts are its tags in the order of their last
uses, and an empty block counts zero. An access keeps this from the second access of the trace
on. The first one stores the count zero that also marks the empty blocks, so the next miss in
its set replaces the block of the first access and not an empty one.
-/

namespace SystemsLabs.Csim
open Library

/-- The valid blocks of a set of `E` blocks are `us`, the most recently used one first. -/
structure Ordered (E now : ℕ) (set us : List Block) : Prop where
  lines : set.length = E
  used : (set.filter Block.valid).Perm us
  order : us.Pairwise (fun p q => q.lruCount < p.lruCount)
  tags : (us.map Block.tag).Nodup
  counted : ∀ p ∈ us, 0 < p.lruCount ∧ p.lruCount < now
  empty : ∀ p ∈ set, p.valid = false → p.lruCount = 0

variable {E now : ℕ} {set us : List Block} {t : BitVec 64}

/-- A set holds a tag if one of its valid blocks carries it. -/
def Holds (set : List Block) (t : BitVec 64) : Prop := ∃ p ∈ set, p.valid = true ∧ p.tag = t

lemma Ordered.of_replicate : Ordered E now (List.replicate E emptyBlock) [] where
  lines := List.length_replicate
  used := by
    rw [List.filter_replicate]
    simp [emptyBlock]
  order := List.Pairwise.nil
  tags := List.nodup_nil
  counted := by simp
  empty := by
    intro p hp _
    rw [(List.mem_replicate.mp hp).2]
    rfl

lemma Ordered.later (h : Ordered E now set us) {now' : ℕ} (hle : now ≤ now') :
    Ordered E now' set us :=
  { h with counted := fun p hp => ⟨(h.counted p hp).1, lt_of_lt_of_le (h.counted p hp).2 hle⟩ }

lemma Ordered.mem_iff (h : Ordered E now set us) {p : Block} :
    p ∈ us ↔ p ∈ set ∧ p.valid = true := by
  rw [← h.used.mem_iff, List.mem_filter]

lemma Ordered.count_lt (h : Ordered E now set us) (hnow : 0 < now) {p : Block} (hp : p ∈ set) :
    p.lruCount < now := by
  cases hv : p.valid with
  | false => rw [h.empty p hp hv]; exact hnow
  | true => exact (h.counted p (h.mem_iff.mpr ⟨hp, hv⟩)).2

lemma Ordered.mem_tags (h : Ordered E now set us) :
    t ∈ us.map Block.tag ↔ Holds set t := by
  rw [List.mem_map]
  constructor
  · rintro ⟨p, hp, rfl⟩
    obtain ⟨hset, hvalid⟩ := h.mem_iff.mp hp
    exact ⟨p, hset, hvalid, rfl⟩
  · rintro ⟨p, hset, hvalid, rfl⟩
    exact ⟨p, h.mem_iff.mpr ⟨hset, hvalid⟩, rfl⟩

lemma isHit_iff : isHit set t = true ↔ Holds set t := by
  rw [isHit, Option.isSome_iff_ne_none, Ne, findHit_eq_none, Holds]
  push Not
  rfl

lemma Ordered.isHit_iff (h : Ordered E now set us) : isHit set t = true ↔ t ∈ us.map Block.tag := by
  rw [Csim.isHit_iff, h.mem_tags]

lemma Ordered.length_le (h : Ordered E now set us) : us.length ≤ E := by
  rw [← h.used.length_eq, ← h.lines]
  exact List.length_filter_le _ _

variable {pre post rest newer : List Block} {blk : Block}

lemma filter_valid_middle (h : blk.valid = true) :
    ((pre ++ blk :: post).filter Block.valid).Perm (blk :: (pre ++ post).filter Block.valid) := by
  rw [List.filter_append, List.filter_cons_of_pos h, List.filter_append]
  exact List.perm_middle

/-- The accessed block gets the tag and the count of the access and comes before the blocks
that stay. -/
lemma Ordered.renew (h : Ordered E now (pre ++ blk :: post) us) (hnow : 0 < now)
    (hrest : rest.Sublist us) (ht : t ∉ rest.map Block.tag)
    (hused : ((pre ++ post).filter Block.valid).Perm rest) :
    Ordered E (now + 1) (pre ++ ⟨true, t, now⟩ :: post) (⟨true, t, now⟩ :: rest) where
  lines := by
    have := h.lines
    simpa using this
  used := (filter_valid_middle rfl).trans (hused.cons _)
  order := List.pairwise_cons.mpr
    ⟨fun p hp => (h.counted p (hrest.subset hp)).2, h.order.sublist hrest⟩
  tags := by
    rw [List.map_cons, List.nodup_cons]
    exact ⟨ht, h.tags.sublist (hrest.map _)⟩
  counted := by
    rw [List.forall_mem_cons]
    refine ⟨⟨hnow, Nat.lt_succ_self now⟩, ?_⟩
    intro p hp
    obtain ⟨hpos, hlt⟩ := h.counted p (hrest.subset hp)
    exact ⟨hpos, Nat.lt_succ_of_lt hlt⟩
  empty := by
    intro p hp hinvalid
    rcases List.mem_append.mp hp with hp | hp
    · exact h.empty p (by simp [hp]) hinvalid
    · rcases List.mem_cons.mp hp with rfl | hp
      · simp at hinvalid
      · exact h.empty p (by simp [hp]) hinvalid

lemma modify_middle (f : Block → Block) (pre post : List Block) (blk : Block) :
    (pre ++ blk :: post).modify pre.length f = pre ++ f blk :: post := by
  induction pre with
  | nil => rfl
  | cons c pre ih => simp [ih]

/-- A hit moves its block to the front of the order. -/
lemma Ordered.hit (h : Ordered E now set us) (hnow : 0 < now) (ht : isHit set t = true) :
    ∃ us', Ordered E (now + 1) (accessSet now t set) us' ∧
      us'.map Block.tag = touch E (us.map Block.tag) t := by
  have hmem := h.isHit_iff.mp ht
  obtain ⟨i, hi⟩ := Option.isSome_iff_exists.mp ht
  obtain ⟨pre, blk, post, rfl, rfl, hvalid, htag⟩ := findHit_eq_some hi
  have hblk : blk ∈ us := h.mem_iff.mpr ⟨by simp, hvalid⟩
  obtain ⟨newer, older, rfl⟩ := List.append_of_mem hblk
  have hnodup := h.tags
  rw [List.map_append, List.map_cons, htag, List.nodup_middle, List.nodup_cons,
    ← List.map_append] at hnodup
  have hset : accessSet now t (pre ++ blk :: post) = pre ++ ⟨true, t, now⟩ :: post := by
    simp only [accessSet, hi, modify_middle, hvalid, htag]
  have hused : ((pre ++ post).filter Block.valid).Perm (newer ++ older) :=
    ((filter_valid_middle hvalid).symm.trans (h.used.trans List.perm_middle)).cons_inv
  refine ⟨⟨true, t, now⟩ :: (newer ++ older), ?_, ?_⟩
  · rw [hset]
    exact h.renew hnow ((List.sublist_cons_self blk older).append_left newer) hnodup.1 hused
  · rw [touch_of_mem hmem (by rw [List.length_map]; exact h.length_le), List.map_append,
      List.map_cons, List.map_cons, htag,
      List.erase_append_right _ (fun hn => hnodup.1 (by rw [List.map_append]; simp [hn])),
      List.erase_cons_head, List.map_append]

/-- While an empty block is replaced, all used ones stay. -/
lemma Ordered.fill (h : Ordered E now (pre ++ blk :: post) us) (hvalid : blk.valid = false) :
    ((pre ++ post).filter Block.valid).Perm us ∧ us.length < E := by
  have hused : ((pre ++ post).filter Block.valid).Perm us := by
    have := h.used
    rwa [List.filter_append, List.filter_cons_of_neg (by simp [hvalid]), ← List.filter_append]
      at this
  refine ⟨hused, ?_⟩
  have hle := List.length_filter_le Block.valid (pre ++ post)
  have hlines := h.lines
  rw [hused.length_eq, List.length_append] at hle
  rw [List.length_append, List.length_cons] at hlines
  omega

/-- If the smallest count is that of a used block, no block is empty and it is the least
recently used one. -/
lemma Ordered.replace (h : Ordered E now (pre ++ blk :: post) us) (hvalid : blk.valid = true)
    (hleast : ∀ p ∈ pre ++ blk :: post, blk.lruCount ≤ p.lruCount) :
    ∃ newer, us = newer ++ [blk] ∧ us.length = E ∧
      ((pre ++ post).filter Block.valid).Perm newer := by
  have hblk : blk ∈ us := h.mem_iff.mpr ⟨by simp, hvalid⟩
  have hall : ∀ p ∈ pre ++ blk :: post, p.valid = true := by
    intro p hp
    by_contra hinvalid
    have hzero := h.empty p hp (Bool.not_eq_true _ ▸ hinvalid)
    have hpos := (h.counted blk hblk).1
    have := hleast p hp
    omega
  have hlen : us.length = E := by
    rw [← h.used.length_eq, List.filter_eq_self.mpr hall, h.lines]
  obtain ⟨newer, older, rfl⟩ := List.append_of_mem hblk
  have holder : older = [] := by
    rw [List.eq_nil_iff_forall_not_mem]
    intro p hp
    have horder := (List.pairwise_append.mp h.order).2.1
    have hlt := (List.pairwise_cons.mp horder).1 p hp
    have hle := hleast p (h.mem_iff.mp (by simp [hp])).1
    omega
  subst holder
  have hused := (filter_valid_middle hvalid).symm.trans (h.used.trans List.perm_middle)
  rw [List.append_nil] at hused
  exact ⟨newer, rfl, hlen, hused.cons_inv⟩

/-- A miss fills an empty block, or replaces the least recently used one if there is none. -/
lemma Ordered.miss (h : Ordered E now set us) (hE : 0 < E) (hnow : 0 < now)
    (hbound : now < 2 ^ 64) (ht : ¬isHit set t = true) :
    ∃ us', Ordered E (now + 1) (accessSet now t set) us' ∧
      us'.map Block.tag = touch E (us.map Block.tag) t ∧
      (isEviction set t = true ↔ us.length = E) := by
  have hnew : t ∉ us.map Block.tag := fun hmem => ht (h.isHit_iff.mpr hmem)
  have hnone : findHit set t = none := by
    rw [isHit, Bool.not_eq_true, Option.isSome_eq_false_iff, Option.isNone_iff_eq_none] at ht
    exact ht
  have hne : set ≠ [] := by
    rw [← List.length_pos_iff, h.lines]
    exact hE
  obtain ⟨pre, blk, post, rfl, heq, hpre, hpost⟩ := findEviction_spec hne (fun p hp => by
    have := h.count_lt hnow hp
    omega)
  have hset : accessSet now t (pre ++ blk :: post) = pre ++ ⟨true, t, now⟩ :: post := by
    rw [accessSet, hnone, heq]
    simp
  have hevict : isEviction (pre ++ blk :: post) t = blk.valid := by
    rw [isEviction, heq, isHit, hnone]
    simp
  rw [hset, hevict, touch_of_notMem hnew]
  cases hvalid : blk.valid with
  | false =>
    obtain ⟨hused, hlt⟩ := h.fill hvalid
    refine ⟨⟨true, t, now⟩ :: us, h.renew hnow (List.Sublist.refl us) hnew hused, ?_, ?_⟩
    · rw [List.map_cons, List.take_of_length_le]
      rw [List.length_cons, List.length_map]
      omega
    · simp [hlt.ne]
  | true =>
    have hleast : ∀ p ∈ pre ++ blk :: post, blk.lruCount ≤ p.lruCount := by
      rw [List.forall_mem_append, List.forall_mem_cons]
      exact ⟨fun p hp => (hpre p hp).le, le_rfl, hpost⟩
    obtain ⟨newer, rfl, hlen, hused⟩ := h.replace hvalid hleast
    rw [List.map_append, List.mem_append, not_or] at hnew
    refine ⟨⟨true, t, now⟩ :: newer,
      h.renew hnow (List.sublist_append_left newer [blk]) hnew.1 hused, ?_, ?_⟩
    · rw [List.map_cons, List.map_append, ← List.cons_append, List.take_left']
      rw [← hlen]
      simp
    · simp [hlen]

/-- An access uses a tag of the set. -/
lemma Ordered.access (h : Ordered E now set us) (hE : 0 < E) (hnow : 0 < now)
    (hbound : now < 2 ^ 64) :
    ∃ us', Ordered E (now + 1) (accessSet now t set) us' ∧
      us'.map Block.tag = touch E (us.map Block.tag) t ∧
      (isEviction set t = true ↔ t ∉ us.map Block.tag ∧ us.length = E) := by
  by_cases ht : isHit set t = true
  · obtain ⟨us', hus', htags⟩ := h.hit hnow ht
    refine ⟨us', hus', htags, ?_⟩
    simp [isEviction, ht, h.isHit_iff.mp ht]
  · obtain ⟨us', hus', htags, hevict⟩ := h.miss hE hnow hbound ht
    refine ⟨us', hus', htags, ?_⟩
    rw [hevict, and_iff_right (fun hmem => ht (h.isHit_iff.mpr hmem))]

section First

/-- A set after the first access of the trace. -/
def firstSet (E : ℕ) (t₀ : BitVec 64) : List Block :=
  ⟨true, t₀, 0⟩ :: List.replicate (E - 1) emptyBlock

variable {t₀ : BitVec 64}

lemma findEviction_of_zero {set : List Block} (h : blk.lruCount = 0) :
    findEviction (blk :: set) 0 0 (2 ^ 64 - 1) = 0 := by
  rw [findEviction, h, if_pos (by norm_num)]
  rcases findEviction_cases set 1 0 0 with ⟨heq, -⟩ | ⟨_, _, _, _, _, hlt, _⟩
  · exact heq
  · omega

/-- The first access of the trace fills the first block of its set, with the count zero. -/
lemma access_empty (hE : 0 < E) : accessSet 0 t (List.replicate E emptyBlock) = firstSet E t ∧
    isHit (List.replicate E emptyBlock) t = false ∧
    isEviction (List.replicate E emptyBlock) t = false := by
  obtain ⟨k, rfl⟩ := Nat.exists_eq_succ_of_ne_zero hE.ne'
  have hnone : findHit (List.replicate (k + 1) emptyBlock) t = none := by
    rw [findHit_eq_none]
    intro p hp hvalid
    rw [(List.mem_replicate.mp hp).2] at hvalid
    simp [emptyBlock] at hvalid
  have hhit : isHit (List.replicate (k + 1) emptyBlock) t = false := by
    rw [isHit, hnone]
    rfl
  refine ⟨?_, hhit, ?_⟩
  · rw [accessSet, hnone]
    simp only [List.replicate_succ]
    rw [findEviction_of_zero rfl]
    rfl
  · rw [isEviction, List.replicate_succ, findEviction_of_zero rfl]
    simp [emptyBlock]

lemma isHit_firstSet : isHit (firstSet E t₀) t = true ↔ t = t₀ := by
  rw [isHit_iff, Holds, firstSet]
  simp only [List.mem_cons, List.mem_replicate]
  constructor
  · rintro ⟨p, rfl | ⟨-, rfl⟩, hvalid, htag⟩
    · exact htag.symm
    · simp [emptyBlock] at hvalid
  · rintro rfl
    exact ⟨_, Or.inl rfl, rfl, rfl⟩

lemma accessSet_firstSet :
    accessSet now t (firstSet E t₀) = ⟨true, t, now⟩ :: List.replicate (E - 1) emptyBlock := by
  by_cases ht : t = t₀
  · have hsome : findHit (firstSet E t₀) t = some 0 := by
      simp [findHit, firstSet, ht, List.findIdx?_cons]
    rw [accessSet, hsome, ht]
    rfl
  · have hnone : findHit (firstSet E t₀) t = none := by
      rw [← Option.isNone_iff_eq_none, ← Option.isSome_eq_false_iff, ← Bool.not_eq_true]
      exact fun h => ht (isHit_firstSet.mp h)
    rw [accessSet, hnone, firstSet]
    simp only
    rw [findEviction_of_zero rfl]
    rfl

/-- The second access to that set uses the same block in any case, and counts as an eviction
if its tag differs. -/
lemma access_firstSet (hE : 0 < E) (hnow : 0 < now) :
    Ordered E (now + 1) (accessSet now t (firstSet E t₀)) [⟨true, t, now⟩] ∧
      (isEviction (firstSet E t₀) t = true ↔ t ≠ t₀) := by
  constructor
  · obtain ⟨k, rfl⟩ := Nat.exists_eq_succ_of_ne_zero hE.ne'
    have h : Ordered (k + 1) now ([] ++ emptyBlock :: List.replicate k emptyBlock) [] :=
      Ordered.of_replicate
    have hused : (([] ++ List.replicate k emptyBlock).filter Block.valid).Perm [] := by
      rw [List.nil_append, List.filter_replicate]
      simp [emptyBlock]
    rw [accessSet_firstSet]
    exact h.renew hnow (List.Sublist.refl []) (by simp) hused
  · have hvalid : ((firstSet E t₀).getD
        (findEviction (firstSet E t₀) 0 0 (2 ^ 64 - 1)) default).valid = true := by
      rw [firstSet, findEviction_of_zero rfl]
      rfl
    rw [isEviction, hvalid, Bool.and_true, Bool.not_eq_true', ← Bool.not_eq_true, isHit_firstSet]

end First

end SystemsLabs.Csim
