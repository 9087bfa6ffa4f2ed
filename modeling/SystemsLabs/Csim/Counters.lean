import SystemsLabs.Csim.History

/-!
# The counters of the simulator

Every access is a hit or a miss, and a miss that is no eviction makes one more block valid.
-/

namespace SystemsLabs.Csim
open Library

/-- The number of valid blocks of the whole cache. -/
def validLines (c : Cache) : ℕ := (c.setList.map (fun set => set.countP Block.valid)).sum

lemma sum_set {l : List ℕ} {i : ℕ} (h : i < l.length) (x : ℕ) :
    (l.set i x).sum + l[i] = l.sum + x := by
  have hsplit := List.sum_take_add_sum_drop l i
  rw [List.drop_eq_getElem_cons h, List.sum_cons] at hsplit
  rw [List.sum_set, if_pos h]
  omega

section Sets

variable {set : List Block} {t : BitVec 64} {now E : ℕ}

lemma findEviction_lt (h : set ≠ []) : findEviction set 0 0 (2 ^ 64 - 1) < set.length := by
  rcases findEviction_cases set 0 0 (2 ^ 64 - 1) with ⟨heq, -⟩ | ⟨pre, blk, post, rfl, heq, -⟩
  · rw [heq]
    exact List.length_pos_iff.mpr h
  · rw [heq, List.length_append, List.length_cons]
    omega

/-- A miss makes one more block valid unless it is an eviction. -/
lemma countP_accessSet (h : set ≠ []) :
    (accessSet now t set).countP Block.valid + (isEviction set t).toNat =
      set.countP Block.valid + (!isHit set t).toNat := by
  cases hfind : findHit set t with
  | some i =>
    obtain ⟨pre, blk, post, rfl, rfl, hvalid, -⟩ := findHit_eq_some hfind
    have hhit : isHit (pre ++ blk :: post) t = true := by rw [isHit, hfind]; rfl
    rw [accessSet, hfind, isEviction, hhit]
    simp [modify_middle, List.countP_cons]
  | none =>
    have hlt := findEviction_lt h
    have hmiss : isHit set t = false := by rw [isHit, hfind]; rfl
    have hpos := List.boole_getElem_le_countP (p := Block.valid) hlt
    rw [accessSet, hfind, isEviction, hmiss, List.getD_eq_getElem?_getD,
      List.getElem?_eq_getElem hlt, Option.getD_some]
    simp only [List.countP_set hlt, Bool.not_false, Bool.true_and]
    cases hvalid : set[findEviction set 0 0 (2 ^ 64 - 1)].valid with
    | false => simp
    | true =>
      rw [hvalid, if_pos rfl] at hpos
      simp
      omega

lemma SetAfter.countP_valid {first : Bool} {ts : List (BitVec 64)}
    (h : SetAfter E now set first ts) (hE : 0 < E) :
    set.countP Block.valid = (recent E (counting first ts)).length := by
  cases h with
  | plain h hts =>
    rw [List.countP_eq_length_filter, h.used.length_eq, counting_false, ← hts, List.length_map]
  | @first t₀ h =>
    have hcounting : counting true [t₀] = [t₀] := rfl
    rw [h, firstSet, List.countP_cons, List.countP_replicate, hcounting, recent_singleton hE]
    simp [emptyBlock]
  | settled h hts =>
    rw [List.countP_eq_length_filter, h.used.length_eq, counting, ← hts, List.length_map]

lemma holds_accessSet (h : set ≠ []) : Holds (accessSet now t set) t := by
  cases hfind : findHit set t with
  | some i =>
    obtain ⟨pre, blk, post, rfl, rfl, hvalid, htag⟩ := findHit_eq_some hfind
    rw [accessSet, hfind]
    simp only [modify_middle]
    exact ⟨{ blk with lruCount := now }, by simp, hvalid, htag⟩
  | none =>
    rw [accessSet, hfind]
    exact ⟨⟨true, t, now⟩, List.mem_set (findEviction_lt h) _, rfl, rfl⟩

/-- The valid blocks of a set carry different tags. -/
lemma SetAfter.tags_nodup {first : Bool} {ts : List (BitVec 64)} (h : SetAfter E now set first ts) :
    ((set.filter Block.valid).map Block.tag).Nodup := by
  cases h with
  | plain h _ => exact (h.used.map Block.tag).nodup_iff.mpr h.tags
  | first h =>
    rw [h, firstSet, List.filter_cons_of_pos rfl, List.filter_replicate]
    simp [emptyBlock]
  | settled h _ => exact (h.used.map Block.tag).nodup_iff.mpr h.tags

lemma SetAfter.ne_nil {first : Bool} {ts : List (BitVec 64)} (h : SetAfter E now set first ts)
    (hE : 0 < E) : set ≠ [] := by
  rw [← List.length_pos_iff]
  cases h with
  | plain h _ => rw [h.lines]; exact hE
  | first h => rw [h, firstSet, List.length_cons]; omega
  | settled h _ => rw [h.lines]; exact hE

end Sets

section Runs

variable {s E b : ℕ} {as : List (BitVec 64)} {a : BitVec 64}

/-- One access keeps the balance of misses, evictions and valid blocks. -/
lemma validLines_cacheAccess {c : Cache} (hlen : c.setList.length = 2 ^ s) (hs : s < 64)
    (hne : c.setAt s b a ≠ []) :
    validLines (cacheAccess s b c a) + (isEviction (c.setAt s b a) (tag s b a)).toNat =
      validLines c + (!isHit (c.setAt s b a) (tag s b a)).toNat := by
  have hindex : index s b a < c.setList.length := by
    rw [hlen]
    exact index_lt hs b a
  have hcount : (accessSet c.lru (tag s b a) (c.setAt s b a)).countP Block.valid +
      (isEviction (c.setAt s b a) (tag s b a)).toNat =
      (c.setAt s b a).countP Block.valid + (!isHit (c.setAt s b a) (tag s b a)).toNat :=
    countP_accessSet hne
  have hsum := sum_set (l := c.setList.map (fun set => set.countP Block.valid))
    (i := index s b a) (by rwa [List.length_map])
    ((accessSet c.lru (tag s b a) (c.setAt s b a)).countP Block.valid)
  have hat : c.setAt s b a = c.setList[index s b a] := by
    rw [Cache.setAt, List.getD_eq_getElem?_getD, List.getElem?_eq_getElem hindex, Option.getD_some]
  rw [List.getElem_map, ← hat] at hsum
  rw [validLines, cacheAccess_setList, List.map_set, validLines]
  omega

/-- Every access counts once, and the valid blocks are the misses that evicted nothing. -/
theorem counters_afterAccesses (as : List (BitVec 64)) (hs : s < 64) (hE : 0 < E)
    (hbound : as.length ≤ 2 ^ 64) :
    (afterAccesses s E b as).hits + (afterAccesses s E b as).misses = as.length ∧
    (afterAccesses s E b as).evictions + validLines (afterAccesses s E b as) =
      (afterAccesses s E b as).misses := by
  induction as using List.reverseRecOn with
  | nil => simp [initCache, validLines, emptyBlock, List.countP_replicate]
  | append_singleton as a ih =>
    rw [List.length_append, List.length_singleton] at hbound
    have hafter := cacheAfter (b := b) hs hE (Nat.le_of_succ_le hbound)
    have hne : (afterAccesses s E b as).setAt s b a ≠ [] :=
      (hafter.sets _ (index_lt hs b a)).ne_nil hE
    have hvalid := validLines_cacheAccess hafter.length hs hne
    obtain ⟨hcount, hmisses⟩ := ih (by omega)
    rw [afterAccesses_concat, cacheAccess_hits, cacheAccess_misses, cacheAccess_evictions,
      List.length_append, List.length_singleton]
    constructor
    · cases isHit ((afterAccesses s E b as).setAt s b a) (tag s b a) <;> simp <;> omega
    · omega

/-- The cache has room for `E` valid blocks in every set. -/
lemma validLines_le (hs : s < 64) (hE : 0 < E) (hbound : as.length ≤ 2 ^ 64) :
    validLines (afterAccesses s E b as) ≤ E * 2 ^ s := by
  have hafter := cacheAfter (b := b) hs hE hbound
  have hset : ∀ n ∈ (afterAccesses s E b as).setList.map (fun set => set.countP Block.valid),
      n ≤ E := by
    intro n hn
    obtain ⟨set, hset, rfl⟩ := List.mem_map.mp hn
    obtain ⟨j, hj, rfl⟩ := List.mem_iff_getElem.mp hset
    have := hafter.sets j (by rwa [← hafter.length])
    rw [List.getD_eq_getElem?_getD, List.getElem?_eq_getElem hj, Option.getD_some] at this
    rw [this.countP_valid hE]
    exact length_recent_le
  have hsum := List.sum_le_card_nsmul _ E hset
  rw [List.length_map, hafter.length, smul_eq_mul, Nat.mul_comm] at hsum
  exact hsum

end Runs

end SystemsLabs.Csim
