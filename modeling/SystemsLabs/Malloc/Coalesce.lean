import SystemsLabs.Malloc.Layout

/-!
# Coalescing

`coalesce` looks at the two neighbours of a free block and joins it with those that are free.
A free left neighbour whose header carries the tag counts as allocated: `mm_realloc` reserved
it for the block in front of it.
-/

namespace SystemsLabs.Malloc
open Library

/-! ### Writing headers and footers -/

/-- A header word and a footer word with any tag bit make a block. -/
lemma blockAt_of_words {m : Memory} {x : ℕ} {b : Block} {t : Bool}
    (hhdr : loadWord m (x - 4) = b.header)
    (hftr : loadWord m (x + b.size - 8) = b.size + 2 * t.toNat + b.alloc.toNat) : BlockAt m x b := by
  have hc : loadWord m (x + b.size - 8) = (b.withTag t).header := hftr
  exact ⟨hhdr, fun _ => 
    ⟨getSize_header (b := b.withTag t) hc, getAlloc_header (b := b.withTag t) hc⟩⟩

/-- Writing the header and the footer of a block. -/
lemma storeWords_block (m : Memory) {x : ℕ} {b : Block} (t : Bool) (hx : 4 ≤ x) (hb : 8 ≤ b.size)
    (hlt : b.size < 2 ^ 32) :
    let m' := storeWord (storeWord m (x - 4) b.header) (x + b.size - 8)
      (b.size + 2 * t.toNat + b.alloc.toNat)
    BlockAt m' x b ∧ AgreeOutside (x - 4) (x + b.size - 4) m m' := by
  have hbound : b.size + 2 * t.toNat + b.alloc.toNat < 2 ^ 32 :=
    Block.header_lt (b := b.withTag t) hlt
  refine ⟨blockAt_of_words (t := t) ?_ ?_, ?_⟩
  · rw [loadWord_storeWord_of_disjoint (by omega), loadWord_storeWord (Block.header_lt hlt)]
  · rw [loadWord_storeWord hbound]
  · exact ((AgreeOutside.refl _ _ m).storeWord (by omega) (by omega)).storeWord (by omega) (by omega)

/-- `PUT_WITH_TAG` over a word with tag bit `t`. -/
lemma putWithTag_eq {m : Memory} {p size : ℕ} {a t : Bool} (hs : size % 8 = 0)
    (htag : getTag m p = 2 * t.toNat) :
    putWithTag m p (pack size a.toNat) = storeWord m p (size + 2 * t.toNat + a.toNat) := by
  rw [putWithTag, htag, pack_lor_tag hs]

/-- `PUT_WITH_TAG` over a header and then over the footer that it leads to. -/
lemma putWithTag_block {m : Memory} {x : ℕ} {b : Block} (hx : 4 ≤ x) (hb : 8 ≤ b.size)
    (hlt : b.size < 2 ^ 32) (htag : getTag m (hdrp x) = 2 * b.tag.toNat) :
    let m₁ := putWithTag m (hdrp x) (pack b.size b.alloc.toNat)
    let m₂ := putWithTag m₁ (ftrp m₁ x) (pack b.size b.alloc.toNat)
    BlockAt m₂ x b ∧ AgreeOutside (x - 4) (x + b.size - 4) m m₂ := by
  intro m₁ m₂
  have hm₁ : m₁ = storeWord m (x - 4) b.header := putWithTag_eq b.size_mod htag
  have hhdr : loadWord m₁ (x - 4) = b.header := by
    rw [hm₁, loadWord_storeWord (Block.header_lt hlt)]
  have hftrp : ftrp m₁ x = x + b.size - 8 := by
    rw [ftrp, hdrp, wsize, getSize_header hhdr, dsize]
  obtain ⟨t, ht⟩ := getTag_toNat m₁ (x + b.size - 8)
  have hm₂ : m₂ = storeWord m₁ (x + b.size - 8) (b.size + 2 * t.toNat + b.alloc.toNat) := by
    simp only [m₂, hftrp]
    exact putWithTag_eq b.size_mod ht
  rw [hm₂, hm₁]
  exact storeWords_block m t hx hb hlt

lemma put_block {m : Memory} {x : ℕ} {b : Block} (hx : 4 ≤ x) (hb : 8 ≤ b.size)
    (hlt : b.size < 2 ^ 32) (htag : b.tag = false) :
    let m₁ := put m (hdrp x) (pack b.size b.alloc.toNat)
    let m₂ := put m₁ (ftrp m₁ x) (pack b.size b.alloc.toNat)
    BlockAt m₂ x b ∧ AgreeOutside (x - 4) (x + b.size - 4) m m₂ := by
  intro m₁ m₂
  have hpack : pack b.size b.alloc.toNat = b.header := by
    have h := pack_lor_tag b.size_mod b.alloc false
    rw [Bool.toNat_false, Nat.mul_zero, Nat.or_zero] at h
    rw [h, Block.header, htag, Bool.toNat_false]
  have hm₁ : m₁ = storeWord m (x - 4) b.header := by
    simp only [m₁, put, hdrp, wsize, hpack]
  have hftrp : ftrp m₁ x = x + b.size - 8 := by
    rw [ftrp, hdrp, wsize, hm₁, getSize_header (loadWord_storeWord (Block.header_lt hlt)), dsize]
  have hm₂ : m₂ = storeWord m₁ (x + b.size - 8) (b.size + 2 * false.toNat + b.alloc.toNat) := by
    simp only [m₂]
    rw [hftrp, put, hpack, Block.header, htag]
  rw [hm₂, hm₁]
  exact storeWords_block m false hx hb hlt

/-! ### The four cases -/

/-- A block that `coalesce` does not join with its right neighbour. -/
def Block.closed (p : Block) : Bool := p.alloc || p.tag

/-- A free block together with a free right neighbour. -/
def joinNext (b : Block) : List Block → List Block
  | [] => [b]
  | n :: post => if n.alloc then b :: n :: post else b.merge n :: post

/-- A block list whose head is free, with an untagged free left neighbour. -/
def joinPrev (p : Block) : List Block → List Block
  | [] => [p]
  | c :: post => if p.closed then p :: c :: post else p.merge c :: post

/-- The state after `k` joins made the block from `s` to `e`. -/
def joinedHeap (h : Heap) (m : Memory) (s e : ℕ) (k : ℤ) : Heap :=
  { h with
    mem := m
    currentBlock := if s < h.currentBlock ∧ h.currentBlock < e then s else h.currentBlock
    numExpectedBlocks := h.numExpectedBlocks - k
    numExpectedFreeBlocks := h.numExpectedFreeBlocks - k }

lemma repairCurrent_eq {h : Heap} {m : Memory} {s e : ℕ} {b : Block} (k : ℤ) (hb : BlockAt m s b)
    (he : s + b.size = e) :
    repairCurrent (countBlocks { h with mem := m } (-k) (-k)) s = joinedHeap h m s e k := by
  have hnext := hb.nextBlkp
  rw [he] at hnext
  simp only [repairCurrent, countBlocks, hnext, joinedHeap, gt_iff_lt, Int.sub_eq_add_neg]
  split <;> rfl

section Cases

variable {h : Heap} {x : ℕ} {p b n : Block} (hpAt : BlockAt h.mem x p)
  (hbAt : BlockAt h.mem (x + p.size) b) (hnAt : BlockAt h.mem (x + p.size + b.size) n)
  (hx : 4 ≤ x) (hp : 8 ≤ p.size) (hb : 8 ≤ b.size)

include hpAt hp in
lemma coalesce_prevAlloc :
    (getAlloc h.mem (ftrp h.mem (prevBlkp h.mem (x + p.size))) ≠ 0 ∨
      getTag h.mem (hdrp (prevBlkp h.mem (x + p.size))) ≠ 0) ↔ p.closed = true := by
  rw [hpAt.prevBlkp (by omega), hpAt.ftrp, (hpAt.2 (by omega)).2, hpAt.getTag_hdrp]
  unfold Block.closed
  cases p.alloc <;> cases p.tag <;> simp

include hbAt hnAt in
lemma coalesce_nextAlloc :
    getAlloc h.mem (hdrp (nextBlkp h.mem (x + p.size))) ≠ 0 ↔ n.alloc = true := by
  rw [hbAt.nextBlkp, hnAt.getAlloc_hdrp]
  cases n.alloc <;> simp

include hpAt hbAt hnAt hp in
lemma coalesce_keep (hpk : p.closed = true) (hnk : n.alloc = true) :
    coalesce h (x + p.size) = (h, x + p.size) := by
  simp only [coalesce, coalesce_prevAlloc hpAt hp, coalesce_nextAlloc hbAt hnAt, hpk, hnk,
    and_self, if_true]

include hpAt hbAt hnAt hx hp hb in
lemma coalesce_next (hpk : p.closed = true) (hnk : n.alloc = false)
    (hroom : b.size + n.size < 2 ^ 32) :
    ∃ m, coalesce h (x + p.size) =
        (joinedHeap h m (x + p.size) (x + p.size + b.size + n.size) 1, x + p.size) ∧
      BlockAt m (x + p.size) (b.merge n) ∧
      AgreeOutside (x + p.size - 4) (x + p.size + b.size + n.size - 4) h.mem m := by
  have hsize : toUnsigned ((getSize h.mem (hdrp (x + p.size)) : ℤ) +
      getSize h.mem (hdrp (nextBlkp h.mem (x + p.size)))) = (b.merge n).size := by
    rw [hbAt.nextBlkp, hbAt.getSize_hdrp, hnAt.getSize_hdrp]
    exact wrapUnsigned_natCast hroom
  obtain ⟨hblock, hag⟩ := putWithTag_block (m := h.mem) (x := x + p.size) (b := b.merge n)
    (by omega) (by rw [Block.merge_size]; omega) hroom hbAt.getTag_hdrp
  have he : x + p.size + (b.merge n).size = x + p.size + b.size + n.size := by
    rw [Block.merge_size]
    omega
  refine ⟨_, ?_, hblock, he ▸ hag⟩
  simp only [coalesce, coalesce_prevAlloc hpAt hp, coalesce_nextAlloc hbAt hnAt, hpk, hnk, hsize]
  simp only [Bool.false_eq_true, and_false, if_false, not_false_eq_true, and_self, if_true]
  rw [← repairCurrent_eq 1 hblock he]
  rfl

/-- Writing new boundary tags around `p` keeps the old footer of `p`, if they lie further out. -/
lemma prevBlkp_storeWords {m : Memory} {hd v ft w : ℕ} (hpAt : BlockAt m x p) (hp : 8 ≤ p.size)
    (hhd : hd + 4 ≤ x) (hft : x + p.size - 4 ≤ ft) :
    prevBlkp (storeWord (storeWord m hd v) ft w) (x + p.size) = x := by
  have hftr : getSize (storeWord (storeWord m hd v) ft w) (x + p.size - 8) = p.size := by
    rw [getSize, loadWord_storeWord_of_disjoint (by omega), loadWord_storeWord_of_disjoint (by omega)]
    exact (hpAt.2 (by omega)).1
  rw [prevBlkp, dsize, hftr, Nat.add_sub_cancel]

include hpAt hbAt hnAt hx hp hb in
lemma coalesce_prev (hpk : p.closed = false) (hnk : n.alloc = true)
    (hroom : p.size + b.size < 2 ^ 32) :
    ∃ m, coalesce h (x + p.size) = (joinedHeap h m x (x + p.size + b.size) 1, x) ∧
      BlockAt m x (p.merge b) ∧ AgreeOutside (x - 4) (x + p.size + b.size - 4) h.mem m := by
  have hsize : toUnsigned ((getSize h.mem (hdrp (x + p.size)) : ℤ) +
      getSize h.mem (hdrp (prevBlkp h.mem (x + p.size)))) = (p.merge b).size := by
    rw [hpAt.prevBlkp (by omega), hbAt.getSize_hdrp, hpAt.getSize_hdrp, Block.merge_size, add_comm]
    exact wrapUnsigned_natCast hroom
  have hend : x + p.size + b.size = x + (p.merge b).size := by rw [Block.merge_size]; omega
  obtain ⟨t, ht⟩ := getTag_toNat h.mem (x + (p.merge b).size - 8)
  obtain ⟨hblock, hag⟩ := storeWords_block h.mem t hx (by rw [Block.merge_size]; omega)
    (b := p.merge b) hroom
  -- the footer is written first, in the last word of `b`
  have hftr : putWithTag h.mem (ftrp h.mem (x + p.size)) (pack (p.merge b).size 0) =
      storeWord h.mem (x + (p.merge b).size - 8) ((p.merge b).size + 2 * t.toNat + 0) := by
    rw [hbAt.ftrp, hend]
    exact putWithTag_eq (a := false) (p.merge b).size_mod ht
  have hpAt' : BlockAt (storeWord h.mem (x + (p.merge b).size - 8)
      ((p.merge b).size + 2 * t.toNat + 0)) x p :=
    hpAt.congr hx (Or.inl hp) fun y _ _ => storeWord_apply_of_disjoint (by omega)
  have hhdr : putWithTag (storeWord h.mem (x + (p.merge b).size - 8)
      ((p.merge b).size + 2 * t.toNat + 0)) (hdrp x) (pack (p.merge b).size 0) =
      storeWord (storeWord h.mem (x - 4) (p.merge b).header) (x + (p.merge b).size - 8)
        ((p.merge b).size + 2 * t.toNat + (p.merge b).alloc.toNat) := by
    rw [storeWord_comm (by omega)]
    exact putWithTag_eq (a := false) (p.merge b).size_mod hpAt'.getTag_hdrp
  refine ⟨_, ?_, hblock, hend ▸ hag⟩
  simp only [coalesce, coalesce_prevAlloc hpAt hp, coalesce_nextAlloc hbAt hnAt, hpk, hnk, hsize]
  simp only [Bool.false_eq_true, false_and, if_false, not_false_eq_true, and_self, if_true]
  rw [hftr, hpAt'.prevBlkp (by omega), hhdr, prevBlkp_storeWords hpAt hp (by omega) (by omega),
    ← repairCurrent_eq 1 hblock hend.symm]

include hpAt hbAt hnAt hx hp hb in
lemma coalesce_both (hn : 8 ≤ n.size) (hpk : p.closed = false) (hnk : n.alloc = false)
    (hroom : p.size + (b.size + n.size) < 2 ^ 32) :
    ∃ m, coalesce h (x + p.size) = (joinedHeap h m x (x + p.size + b.size + n.size) 2, x) ∧
      BlockAt m x (p.merge (b.merge n)) ∧
      AgreeOutside (x - 4) (x + p.size + b.size + n.size - 4) h.mem m := by
  set c := p.merge (b.merge n) with hc
  have hcsize : c.size = p.size + (b.size + n.size) := rfl
  have hsize : toUnsigned ((getSize h.mem (hdrp (x + p.size)) : ℤ) +
      (toUnsigned ((getSize h.mem (hdrp (prevBlkp h.mem (x + p.size))) : ℤ) +
        getSize h.mem (ftrp h.mem (nextBlkp h.mem (x + p.size)))) : ℕ)) = c.size := by
    rw [hpAt.prevBlkp (by omega), hbAt.nextBlkp, hnAt.ftrp, hbAt.getSize_hdrp, hpAt.getSize_hdrp,
      (hnAt.2 (by omega)).1]
    have hinner : toUnsigned ((p.size : ℤ) + (n.size : ℤ)) = p.size + n.size :=
      wrapUnsigned_natCast (by omega)
    rw [hinner]
    have houter : toUnsigned (((b.size + (p.size + n.size) : ℕ) : ℤ)) = b.size + (p.size + n.size) :=
      wrapUnsigned_natCast (by omega)
    rw [Nat.cast_add] at houter
    rw [houter]
    omega
  have hend : x + p.size + b.size + n.size = x + c.size := by omega
  -- the header is written first; it leaves `b` and `n` in place
  have hhdr : putWithTag h.mem (hdrp x) (pack c.size 0) = storeWord h.mem (x - 4) c.header :=
    putWithTag_eq (a := false) c.size_mod hpAt.getTag_hdrp
  have hbAt' : BlockAt (storeWord h.mem (x - 4) c.header) (x + p.size) b :=
    hbAt.congr (by omega) (Or.inl hb) fun y _ _ => storeWord_apply_of_disjoint (by omega)
  have hnAt' : BlockAt (storeWord h.mem (x - 4) c.header) (x + p.size + b.size) n :=
    hnAt.congr (by omega) (Or.inl hn) fun y _ _ => storeWord_apply_of_disjoint (by omega)
  obtain ⟨t, ht⟩ := getTag_toNat (storeWord h.mem (x - 4) c.header) (x + c.size - 8)
  obtain ⟨hblock, hag⟩ := storeWords_block h.mem t hx (by omega) (b := c) hroom
  have hftr : putWithTag (storeWord h.mem (x - 4) c.header) (x + c.size - 8) (pack c.size 0) =
      storeWord (storeWord h.mem (x - 4) c.header) (x + c.size - 8)
        (c.size + 2 * t.toNat + c.alloc.toNat) :=
    putWithTag_eq (a := false) c.size_mod ht
  refine ⟨_, ?_, hblock, hend ▸ hag⟩
  simp only [coalesce, coalesce_prevAlloc hpAt hp, coalesce_nextAlloc hbAt hnAt, hpk, hnk, hsize]
  simp only [Bool.false_eq_true, if_false, and_false, not_false_eq_true, and_true]
  rw [hpAt.prevBlkp (by omega), hhdr, hbAt'.nextBlkp, hnAt'.ftrp, hend, hftr,
    prevBlkp_storeWords hpAt hp (by omega) (by omega), ← repairCurrent_eq 2 hblock rfl]

end Cases

def joinStart (x : ℕ) (p : Block) : ℕ := if p.closed then x + p.size else x

def joinEnd (x : ℕ) (p b n : Block) : ℕ :=
  if n.alloc then x + p.size + b.size else x + p.size + b.size + n.size

def joinCount (p n : Block) : ℕ := (if p.closed then 0 else 1) + (if n.alloc then 0 else 1)

/-- `coalesce` on a list of blocks: the free block `b` is joined with its free neighbours, and
no byte outside the joined block changes. -/
theorem coalesce_spec {h : Heap} {a : ℕ} {p b n : Block} {pre post : List Block}
    (himg : Image h.mem a (pre ++ p :: b :: n :: post)) (ha : 4 ≤ a)
    (hpre : ∀ c ∈ pre, 8 ≤ c.size) (hp : 8 ≤ p.size) (hb : 8 ≤ b.size)
    (hn : n.alloc = true ∨ 8 ≤ n.size) (hpost : ∀ c ∈ n :: post, 8 ≤ c.size ∨ c.size = 0)
    (hroom : p.size + b.size + n.size < 2 ^ 32)
    (hcur : ¬(a + extent Block.size pre + p.size < h.currentBlock ∧
      h.currentBlock < a + extent Block.size pre + p.size + b.size)) :
    let x := a + extent Block.size pre
    ∃ m, coalesce h (x + p.size) =
        (joinedHeap h m (joinStart x p) (joinEnd x p b n) (joinCount p n), joinStart x p) ∧
      Image m a (pre ++ joinPrev p (joinNext b (n :: post))) ∧
      AgreeOutside (joinStart x p - 4) (joinEnd x p b n - 4) h.mem m := by
  intro x
  obtain ⟨hpreImg, himg⟩ := image_append.mp himg
  obtain ⟨hpAt, himg⟩ := image_cons.mp himg
  obtain ⟨hbAt, hpostImg⟩ := image_cons.mp himg
  obtain ⟨hnAt, hrestImg⟩ := image_cons.mp hpostImg
  have hx : 4 ≤ x := by omega
  have hrest := fun c hc => hpost c (List.mem_cons_of_mem n hc)
  unfold joinStart joinEnd joinCount
  cases hpk : p.closed <;> cases hnk : n.alloc
  · have hn8 : 8 ≤ n.size := hn.resolve_left (by simp [hnk])
    obtain ⟨m, heq, hblock, hag⟩ := coalesce_both hpAt hbAt hnAt hx hp hb hn8 hpk hnk (by omega)
    have hend : x + (p.merge (b.merge n)).size = x + p.size + b.size + n.size := by
      simp only [Block.merge_size, Nat.add_assoc]
    refine ⟨m, heq, ?_, hag⟩
    simp only [joinNext, joinPrev, hpk, hnk, Bool.false_eq_true, if_false]
    refine image_append.mpr ⟨?_, image_cons.mpr ⟨hblock, ?_⟩⟩
    · exact hpreImg.congr_below ha hpre fun y hy => hag y (by omega)
    · rw [hend]
      exact hrestImg.congr_above (by omega) hrest fun y hy => hag y (by omega)
  · obtain ⟨m, heq, hblock, hag⟩ := coalesce_prev hpAt hbAt hnAt hx hp hb hpk hnk (by omega)
    have hend : x + (p.merge b).size = x + p.size + b.size := by
      simp only [Block.merge_size, Nat.add_assoc]
    refine ⟨m, heq, ?_, hag⟩
    simp only [joinNext, joinPrev, hpk, hnk, Bool.false_eq_true, if_false, if_true]
    refine image_append.mpr ⟨?_, image_cons.mpr ⟨hblock, ?_⟩⟩
    · exact hpreImg.congr_below ha hpre fun y hy => hag y (by omega)
    · rw [hend]
      exact hpostImg.congr_above (by omega) hpost fun y hy => hag y (by omega)
  · have hn8 : 8 ≤ n.size := hn.resolve_left (by simp [hnk])
    obtain ⟨m, heq, hblock, hag⟩ := coalesce_next hpAt hbAt hnAt hx hp hb hpk hnk (by omega)
    have hend : x + p.size + (b.merge n).size = x + p.size + b.size + n.size := by
      simp only [Block.merge_size, Nat.add_assoc]
    refine ⟨m, heq, ?_, hag⟩
    simp only [joinNext, joinPrev, hpk, hnk, Bool.false_eq_true, if_false, if_true]
    refine image_append.mpr ⟨?_, image_cons.mpr ⟨?_, image_cons.mpr ⟨hblock, ?_⟩⟩⟩
    · exact hpreImg.congr_below ha hpre fun y hy => hag y (by omega)
    · exact hpAt.congr hx (Or.inl hp) fun y _ _ => hag y (by omega)
    · rw [hend]
      exact hrestImg.congr_above (by omega) hrest fun y hy => hag y (by omega)
  · refine ⟨h.mem, ?_, ?_, AgreeOutside.refl _ _ _⟩
    · have hcur' : ¬(x + p.size < h.currentBlock ∧ h.currentBlock < x + p.size + b.size) := hcur
      rw [coalesce_keep hpAt hbAt hnAt hp hpk hnk]
      simp only [joinedHeap, if_true, if_neg hcur', add_zero, Nat.cast_zero, sub_zero]
      rfl
    · simp only [joinNext, joinPrev, hpk, hnk, if_true]
      exact image_append.mpr ⟨hpreImg, image_cons.mpr ⟨hpAt, image_cons.mpr ⟨hbAt, hpostImg⟩⟩⟩

end SystemsLabs.Malloc
