import SystemsLabs.Malloc.Allocate
import SystemsLabs.Malloc.Walk

/-!
# Reallocating

`mm_realloc` keeps a block in place, grows it over the free blocks behind it, extends the heap
behind it, slides it down into the free block in front of it, or copies it. Growing is sound
when the free blocks behind it have room or reach the epilogue, and growing and sliding are
sound when the roving pointer is not at a block that they absorb.
-/

namespace SystemsLabs.Malloc
open Library

def bodySize (size : ℕ) : ℕ := toUnsigned (adjustSize size + padding)

/-- A grown block may absorb the free blocks behind it: there is no room and nothing happens, or
they have room for it or end at the epilogue, and the roving pointer is at none of them. -/
def growsSafely (h : Heap) (ptr size : ℕ) : Prop :=
  let missing := bodySize size - getSize h.mem (hdrp ptr)
  let recycled := extent Block.size (freeRun missing 0 (blocksBehind h ptr))
  let stop := nextBlkp h.mem ptr + recycled
  recycled < missing ∧ h.memMaxAddr < h.memBrk + max (missing - recycled) chunksize ∨
    (missing ≤ recycled ∨ getSize h.mem (hdrp stop) = 0) ∧
      ¬(ptr < h.currentBlock ∧ h.currentBlock < stop)

/-- The block may slide down into the block in front of it: the roving pointer is not at it. -/
def slidesSafely (h : Heap) (ptr size : ℕ) : Prop :=
  isBlockAllocated h.mem (prevBlkp h.mem ptr) = false →
    bodySize size ≤ getSize h.mem (hdrp ptr) + getSize h.mem (hdrp (prevBlkp h.mem ptr)) →
    h.currentBlock ≠ ptr

/-- The calls of `mm_realloc` that keep the heap intact. -/
def ReallocSafe (h : Heap) (ptr size : ℕ) : Prop :=
  getSize h.mem (hdrp ptr) < bodySize size →
    if isBlockAllocated h.mem (nextBlkp h.mem ptr) then slidesSafely h ptr size
    else growsSafely h ptr size

instance (h : Heap) (ptr size : ℕ) : Decidable (growsSafely h ptr size) :=
  inferInstanceAs (Decidable (_ ∨ _))

instance (h : Heap) (ptr size : ℕ) : Decidable (slidesSafely h ptr size) :=
  inferInstanceAs (Decidable (_ → _))

instance (h : Heap) (ptr size : ℕ) : Decidable (ReallocSafe h ptr size) :=
  inferInstanceAs (Decidable (_ → _))

/-! ### The free blocks behind a block -/

section Recycle

variable {h : Heap} {m : Memory} {a size acc fuel : ℕ} {b : Block} {l r : List Block} {t : Bool}

/-- The loop of `extend_heap_recycle` adds up a run of free blocks. -/
lemma recycleLoop_eq (himg : Image h.mem a (r ++ [Block.epilogue t])) (hr : ∀ b ∈ r, 0 < b.size)
    (hlt : acc + extent Block.size r < 2 ^ 31) (hfuel : r.length < fuel) :
    recycleLoop size fuel h a acc = some (countBlocks h
        (-((freeRun size acc r).length : ℤ)) (-((freeRun size acc r).length : ℤ)),
      ((acc + extent Block.size (freeRun size acc r) : ℕ) : ℤ)) := by
  induction r generalizing a fuel acc h with
  | nil =>
    cases fuel with
    | zero => simp at hfuel
    | succ fuel =>
      have he := (image_cons.mp himg).1
      simp [recycleLoop, he.getSize_hdrp, freeRun, countBlocks]
  | cons b r ih =>
    cases fuel with
    | zero => simp at hfuel
    | succ fuel =>
      rw [List.cons_append] at himg
      have hb := (image_cons.mp himg).1
      have hpos := hr b (by simp)
      rw [extent_cons] at hlt
      have hint : toInt b.size = b.size := wrapSigned_of_bounds (w := 31) (by omega) (by omega)
      have hwrap : toUnsigned ((acc : ℤ) + b.size) = acc + b.size :=
        wrapUnsigned_natCast (x := acc + b.size) (by omega)
      have hne : (b.size ≠ 0) = True := by simp; omega
      simp only [recycleLoop, hb.isBlockAllocated, hb.getSize_hdrp, hint, hwrap, hne]
      unfold freeRun
      cases hba : b.alloc with
      | true => simp [countBlocks]
      | false =>
        simp only [decide_true, Bool.and_true, Bool.false_eq_true, not_false_eq_true, gt_iff_lt, hpos,
          and_self, if_true, if_false]
        by_cases hsize : size < acc + b.size
        · rw [if_pos hsize, if_pos hsize]
          simp [countBlocks]
        · rw [if_neg hsize, if_neg hsize]
          have hrec := ih (h := countBlocks h (-1) (-1)) (image_cons.mp himg).2
            (fun c hc => hr c (List.mem_cons_of_mem b hc))
            (show acc + b.size + extent Block.size r < 2 ^ 31 by omega)
            (show r.length < fuel by simpa using hfuel)
          rw [Nat.cast_add] at hrec
          rw [show nextBlkp (countBlocks h (-1) (-1)).mem a = a + b.size from hb.nextBlkp, hrec]
          simp only [countBlocks, List.length_cons, extent_cons]
          congr 2
          · congr 1 <;> push_cast <;> ring
          · push_cast
            ring

lemma freeRun_concat {e : Block} (he : e.alloc = true) :
    freeRun size acc (r ++ [e]) = freeRun size acc r := by
  induction r generalizing acc with
  | nil => simp [freeRun, he]
  | cons b r ih => simp only [List.cons_append, freeRun, ih]

lemma extendHeapRecycle_eq {x : ℕ} (ht : Tiled h (l ++ b :: r)) (hr : r ≠ [])
    (hx : x = h.heapListp + extent Block.size l) (hmod : size % 8 = 0)
    (hsize : size + 7 < 2 ^ 32) :
    extendHeapRecycle h x size = some (countBlocks h (-((freeRun size 0 r).length : ℤ))
      (-((freeRun size 0 r).length : ℤ)), (extent Block.size (freeRun size 0 r) : ℤ)) := by
  have hlistp := ht.listp
  have hbrk := ht.brk
  have hext := ht.extent_lt
  obtain ⟨r', e, rfl⟩ : ∃ r' e, r = r' ++ [e] := ⟨_, _, (List.dropLast_append_getLast hr).symm⟩
  obtain ⟨t, rfl⟩ := Framed.last (l := l ++ b :: r') (b := e) (by simpa using ht.framed) (by simp)
  have hpos : ∀ c ∈ r', 0 < c.size := by
    intro c hc
    have := Framed.size_of_left (l := l ++ b :: r') (r := [Block.epilogue t]) (b := c)
      (by simpa using ht.framed) (by simp) (by simp [hc])
    omega
  have hlen := length_le_extent Block.size hpos
  simp only [extent_append, extent_cons] at hbrk hext
  have hb : BlockAt h.mem x b := ht.blockAt (mem_placed_iff.mpr ⟨l, _, rfl, hx⟩)
  have himg : Image h.mem (x + b.size) (r' ++ [Block.epilogue t]) := by
    have := (image_cons.mp (image_append.mp ht.image).2).2
    rwa [← hx] at this
  rw [extendHeapRecycle, align_eq hsize, hb.nextBlkp, freeRun_concat rfl,
    show (size + 7) / 8 * 8 = size by omega]
  have hfuel : r'.length < walkBound h := by
    unfold walkBound
    omega
  have hloop : recycleLoop size (walkBound h) h (x + b.size) ((0 : ℕ) : ℤ) = _ :=
    recycleLoop_eq himg hpos (by omega) hfuel
  simpa using hloop

end Recycle

/-! ### One block in place of several -/

section Overwrite

variable {S : Set ℕ} {h : Heap} {m : Memory} {bs l mid r : List Block} {c : Block} {x k : ℕ}

lemma chain_overwrite_tags (h : (l ++ mid ++ r).IsChain TagBehind) (halloc : c.alloc = true)
    (htag : c.tag = false) : (l ++ c :: r).IsChain TagBehind := by
  have hl := h.left_of_append.left_of_append
  have hr := h.right_of_append
  simp_all [List.isChain_append, List.isChain_cons, TagBehind]

lemma chain_overwrite_keptApart (h : (l ++ mid ++ r).IsChain KeptApart) (halloc : c.alloc = true) :
    (l ++ c :: r).IsChain KeptApart := by
  have hl := h.left_of_append.left_of_append
  have hr := h.right_of_append
  simp_all [List.isChain_append, List.isChain_cons, KeptApart]

/-- Consecutive blocks are replaced by one allocated block without tag. -/
lemma Tiled.overwrite (ht : Tiled h (l ++ mid ++ r)) (hl : l ≠ []) (hr : r ≠ [])
    (halloc : c.alloc = true) (htag : c.tag = false) (hsize : 16 ≤ c.size)
    (hext : c.size = extent Block.size mid) (hx : x = h.heapListp + extent Block.size l)
    (hblock : BlockAt m x c) (hag : AgreeOutside (x - 4) (x + c.size - 4) h.mem m)
    (hS : ∀ y d, (y, d) ∈ placed Block.size x mid → d.alloc = true → y ∈ S) (hxS : x ∈ S) :
    Tiled { h with mem := m } (l ++ c :: r) ∧
      PayloadFrame S h.heapListp h.mem (l ++ mid ++ r) m (l ++ c :: r) ∧
      Occupied h.heapListp (l ++ c :: r) x c.size ∧
      ∀ y, Start h.heapListp (l ++ mid ++ r) y → ¬(x < y ∧ y < x + c.size) →
        Start h.heapListp (l ++ c :: r) y := by
  have hlistp := ht.listp
  subst hx
  have hext' : extent Block.size [c] = extent Block.size mid := by
    rw [extent_cons, extent_nil, hext, Nat.add_zero]
  have htags := chain_overwrite_tags (c := c) ht.tags halloc htag
  refine ⟨?_, ?_, ⟨c, placed_at, halloc, hsize, rfl⟩, ?_⟩
  · have hs : Tiled { h with mem := m } (l ++ [c] ++ r) := by
      refine ht.splice ⟨rfl, rfl, rfl, rfl⟩ hl hr ?_ hext' ?_ ?_ ?_
      · simpa using hsize
      · exact image_cons.mpr ⟨hblock, Image.nil _ _⟩
      · rwa [← hext]
      · simpa using htags
    simpa using hs
  · have hf : PayloadFrame S h.heapListp h.mem (l ++ mid ++ r) m (l ++ [c] ++ r) := by
      apply PayloadFrame.splice (by omega) hext'
      · rw [← hext]
        exact hag.mono le_rfl (by omega)
      · exact hS
      · intro y d hd _
        rw [placed_cons, placed_nil, List.mem_singleton] at hd
        rw [(Prod.mk.inj hd).1]
        exact hxS
    simpa using hf
  · rintro y ⟨d, hd, hne⟩ hy
    unfold Start
    simp only [mem_placed_mid, hext]
    rcases (mem_placed_splice rfl).mp hd with hd | hd | hd
    · exact ⟨d, Or.inl hd, hne⟩
    · have hlo := le_of_mem_placed hd
      have hhi := add_le_of_mem_placed hd
      exact ⟨c, Or.inr (Or.inl ⟨by omega, rfl⟩), by omega⟩
    · exact ⟨d, Or.inr (Or.inr hd), hne⟩

end Overwrite

/-! ### The reservation -/

section Reserve

variable {h : Heap} {bs pre post : List Block} {p b n : Block} {x k : ℕ}

/-- The block behind the returned one after the end of `mm_realloc`. -/
def Block.reserved (n : Block) (remaining : ℤ) : Block :=
  if toUnsigned remaining < 2 * padding then n.withTag true else n

@[simp] lemma Block.reserved_size (n : Block) (remaining : ℤ) :
    (n.reserved remaining).size = n.size := by
  unfold Block.reserved
  split <;> simp

@[simp] lemma Block.reserved_alloc (n : Block) (remaining : ℤ) :
    (n.reserved remaining).alloc = n.alloc := by
  unfold Block.reserved
  split <;> simp

/-- The end of `mm_realloc` tags at most the block behind the returned one. -/
lemma Tiled.reserve (ht : Tiled h (pre ++ p :: b :: n :: post)) (halloc : b.alloc = true)
    (hx : x = h.heapListp + extent Block.size pre + p.size) (remaining : ℤ) :
    Tiled (reallocReserve h x remaining) (pre ++ p :: b :: n.reserved remaining :: post) ∧
      PayloadFrame ∅ h.heapListp h.mem (pre ++ p :: b :: n :: post)
        (reallocReserve h x remaining).mem (pre ++ p :: b :: n.reserved remaining :: post) := by
  unfold reallocReserve Block.reserved
  by_cases hrem : toUnsigned remaining < 2 * padding
  · rw [if_pos hrem, if_pos hrem]
    have hb : BlockAt h.mem x b := ht.blockAt_behind hx
    have ht' : Tiled h ((pre ++ [p, b]) ++ n :: post) := by simpa using ht
    have htag := ht'.putTag (x := x + b.size) (by simp) (by simp [halloc])
      (by simp [hx, Nat.add_assoc])
    rw [hb.nextBlkp]
    simpa using htag
  · rw [if_neg hrem, if_neg hrem]
    exact ⟨ht, PayloadFrame.refl _ _ _ _⟩

lemma reallocReserve_current (h : Heap) (x : ℕ) (remaining : ℤ) :
    (reallocReserve h x remaining).currentBlock = h.currentBlock := by
  unfold reallocReserve
  split <;> rfl

lemma reallocReserve_arena (h : Heap) (x : ℕ) (remaining : ℤ) :
    SameArena h (reallocReserve h x remaining) := by
  unfold reallocReserve
  split <;> exact ⟨rfl, rfl, rfl, rfl⟩

lemma reallocReserve_spec (hw : WellFormedAs h bs) (hx : Occupied h.heapListp bs x k)
    (remaining : ℤ) :
    ∃ bs', Evolves ∅ h bs (reallocReserve h x remaining) bs' ∧
      (bs.IsChain KeptApart → bs'.IsChain KeptApart) := by
  obtain ⟨pre, p, b, n, post, rfl, hxp, halloc, rfl⟩ := hw.split_occupied hx
  obtain ⟨ht, hf⟩ := hw.toTiled.reserve halloc hxp remaining
  obtain ⟨hstart, -, hlistp, hbrk⟩ := reallocReserve_arena h x remaining
  refine ⟨_, ⟨hstart, hbrk.ge, hlistp, hf, ht, ?_⟩, fun hk => ?_⟩
  · rw [hlistp, reallocReserve_current]
    exact (start_congr (by simp)).mpr hw.current
  · have htag : n.tag = true → (n.reserved remaining).tag = true := by
      unfold Block.reserved
      split <;> simp
    simp_all [List.isChain_append, List.isChain_cons, KeptApart]

end Reserve

/-! ### What a branch leaves -/

/-- The heap stays well formed, an allocated block of at least `asize` bytes starts at `q`, and
unless `q` is `x` no allocated block is left at `x` and none was at `q`. -/
structure Reallocates (x asize q : ℕ) (h : Heap) (bs : List Block) (h' : Heap) (bs' : List Block) :
    Prop extends Evolves {x, q} h bs h' bs' where
  occupied : ∃ k, asize ≤ k ∧ Occupied h.heapListp bs' q k
  moved : q ≠ x → (∀ k, ¬Occupied h.heapListp bs' x k) ∧ ∀ k, ¬Occupied h.heapListp bs q k
  keptApart : bs.IsChain KeptApart → bs'.IsChain KeptApart

section Reallocates

variable {x q asize asize' : ℕ} {h h' : Heap} {bs bs' : List Block}

lemma Reallocates.mono (hr : Reallocates x asize q h bs h' bs') (hle : asize' ≤ asize) :
    Reallocates x asize' q h bs h' bs' := by
  obtain ⟨k, hk, hocc⟩ := hr.occupied
  exact ⟨hr.toEvolves, ⟨k, hle.trans hk, hocc⟩, hr.moved, hr.keptApart⟩

lemma Reallocates.reserve (hr : Reallocates x asize q h bs h' bs') (remaining : ℤ) :
    ∃ bs'', Reallocates x asize q h bs (reallocReserve h' q remaining) bs'' := by
  obtain ⟨k, hk, hocc⟩ := hr.occupied
  obtain ⟨bs'', he, hkept⟩ := reallocReserve_spec hr.wellFormed (hr.listp ▸ hocc) remaining
  have hiff : ∀ y i, Occupied h.heapListp bs'' y i ↔ Occupied h.heapListp bs' y i := by
    intro y i
    have hsame := he.frame.occupied y i (Set.notMem_empty y)
    rwa [hr.listp] at hsame
  refine ⟨bs'', hr.toEvolves.trans (he.mono (Set.empty_subset _)), ⟨k, hk, (hiff q k).mpr hocc⟩,
    fun hqx => ⟨fun i hi => ?_, (hr.moved hqx).2⟩, fun hkeptApart => hkept (hr.keptApart hkeptApart)⟩
  exact (hr.moved hqx).1 i ((hiff x i).mp hi)

end Reallocates

/-! ### Growing a block -/

section Grow

variable {h : Heap} {l r run rest : List Block} {b : Block} {x : ℕ}

/-- Writes an allocated block of `size` bytes over the blocks from `x` on. -/
def writeOver (m : Memory) (x size : ℕ) : Memory :=
  let m := put m (hdrp x) (pack size 1)
  put m (ftrp m x) (pack size 1)

lemma writeOver_spec {m : Memory} {size : ℕ} (hx : 4 ≤ x) (hmod : size % 8 = 0) (h8 : 8 ≤ size)
    (hlt : size < 2 ^ 32) :
    getSize (writeOver m x size) (hdrp x) = size ∧
      ∀ w, x ≤ w → w + 8 < x + size → writeOver m x size w = m w := by
  obtain ⟨c, hc, halloc, htag⟩ : ∃ c : Block, c.size = size ∧ c.alloc = true ∧ c.tag = false :=
    ⟨⟨size, true, false, hmod⟩, rfl, rfl, rfl⟩
  have hpack : pack size 1 = c.header := by
    rw [pack_eq hmod (by norm_num), Block.header, hc, halloc, htag]
    rfl
  have hhdr : put m (hdrp x) (pack size 1) = storeWord m (x - 4) c.header := by
    rw [put, hpack]
    rfl
  have hsize : getSize (storeWord m (x - 4) c.header) (x - 4) = size := by
    rw [getSize_header (loadWord_storeWord (Block.header_lt (hc ▸ hlt))), hc]
  have hftrp : ftrp (put m (hdrp x) (pack size 1)) x = x + size - 8 := by
    rw [hhdr, ftrp, hdrp, wsize, hsize, dsize]
  have heq : writeOver m x size = storeWord (storeWord m (x - 4) c.header) (x + size - 8) c.header := by
    simp only [writeOver]
    rw [hftrp, hhdr, put, hpack]
  constructor
  · rw [heq, hdrp, wsize, getSize, loadWord_storeWord_of_disjoint (by omega)]
    exact hsize
  · intro w h1 h2
    rw [heq, storeWord_apply_of_disjoint (by omega), storeWord_apply_of_disjoint (by omega)]

/-- Growing a block over the free blocks behind it tiles the heap again. -/
lemma Tiled.grow (ht : Tiled h (l ++ b :: run ++ rest)) (hl : l ≠ []) (hrest : rest ≠ [])
    (h16 : 16 ≤ b.size) (hrun : ∀ c ∈ run, c.alloc = false)
    (hx : x = h.heapListp + extent Block.size l) {size : ℕ}
    (hsize : size = b.size + extent Block.size run) :
    ∃ c : Block, c.size = size ∧ c.alloc = true ∧
      Tiled { h with mem := writeOver h.mem x size } (l ++ c :: rest) ∧
      PayloadFrame {x} h.heapListp h.mem (l ++ b :: run ++ rest) (writeOver h.mem x size)
        (l ++ c :: rest) ∧
      Occupied h.heapListp (l ++ c :: rest) x size ∧
      ∀ y, Start h.heapListp (l ++ b :: run ++ rest) y → ¬(x < y ∧ y < x + size) →
        Start h.heapListp (l ++ c :: rest) y := by
  have hlistp := ht.listp
  have hlt := ht.extent_lt
  simp only [extent_append, extent_cons] at hlt
  obtain ⟨c, hc, halloc, htag⟩ : ∃ c : Block, c.size = size ∧ c.alloc = true ∧ c.tag = false := by
    refine ⟨⟨size, true, false, ?_⟩, rfl, rfl, rfl⟩
    have := b.size_mod
    have := extent_mod run
    omega
  obtain ⟨hblock, hag⟩ := put_block (m := h.mem) (x := x) (b := c) (by omega) (by omega) (by omega)
    htag
  rw [hc, halloc] at hblock hag
  obtain ⟨ht', hf, hocc, hstart⟩ := ht.overwrite (S := {x}) hl hrest halloc htag (by omega)
    (by simp [hc, hsize]) hx hblock (by rw [hc]; exact hag)
    (fun y d hd hda => by
      rw [placed_cons, List.mem_cons] at hd
      rcases hd with hd | hd
      · exact (Prod.mk.inj hd).1
      · rw [hrun d (mem_of_mem_placed hd)] at hda
        cases hda) rfl
  rw [hc] at hocc hstart
  exact ⟨c, hc, halloc, ht', hf, hocc, hstart⟩

/-- Growing a block keeps the heap well formed if the roving pointer is not in the way. -/
lemma grow_spec (hw : WellFormedAs h (l ++ b :: run ++ rest)) (hl : l ≠ []) (hrest : rest ≠ [])
    (h16 : 16 ≤ b.size) (hrun : ∀ c ∈ run, c.alloc = false)
    (hx : x = h.heapListp + extent Block.size l) {size : ℕ}
    (hsize : size = b.size + extent Block.size run)
    (hcur : ¬(x < h.currentBlock ∧ h.currentBlock < x + size)) :
    ∃ bs', Reallocates x size x h (l ++ b :: run ++ rest)
      { h with mem := writeOver h.mem x size } bs' := by
  obtain ⟨c, -, halloc, ht, hf, hocc, hstart⟩ := hw.toTiled.grow hl hrest h16 hrun hx hsize
  exact ⟨l ++ c :: rest, ⟨rfl, le_rfl, rfl, hf.mono (by simp), ht, hstart _ hw.current hcur⟩,
    ⟨size, le_rfl, hocc⟩, fun hne => absurd rfl hne,
    fun hk => chain_overwrite_keptApart hk halloc⟩

/-- The blocks behind `b` after the heap was extended: again free blocks and an epilogue. -/
lemma grown_run {t : Bool} {c : Block} (hb : b.alloc = true) (hc : c.alloc = false)
    (hrun : ∀ d ∈ run, d.alloc = false) :
    ∃ pre p run', l ++ b :: run ++ [Block.epilogue t] = pre ++ [p, Block.epilogue t] ∧
      grownList pre p c = l ++ b :: run' ++ [Block.epilogue false] ∧
      extent Block.size run' = extent Block.size run + c.size ∧
      ∀ d ∈ run', d.alloc = false := by
  rcases List.eq_nil_or_concat run with rfl | ⟨run₀, p, rfl⟩
  · refine ⟨l, b, [c], by simp, ?_, by simp, by simp [hc]⟩
    rw [grownList_eq, lastGrown]
    simp [Block.closed, hb]
  · simp only [List.concat_eq_append, List.forall_mem_append, List.forall_mem_cons] at hrun ⊢
    cases hp : p.closed with
    | true =>
      refine ⟨l ++ b :: run₀, p, run₀ ++ [p, c], by simp, ?_, by simp [Nat.add_assoc], ?_⟩
      · rw [grownList_eq, lastGrown]
        simp [hp]
      · intro d hd
        simp only [List.mem_append, List.mem_cons, List.not_mem_nil, or_false] at hd
        rcases hd with hd | rfl | rfl
        · exact hrun.1 d hd
        · exact hrun.2.1
        · exact hc
    | false =>
      refine ⟨l ++ b :: run₀, p, run₀ ++ [p.merge c], by simp, ?_, by simp [Nat.add_assoc], ?_⟩
      · rw [grownList_eq, lastGrown]
        simp [hp]
      · intro d hd
        simp only [List.mem_append, List.mem_cons, List.not_mem_nil, or_false] at hd
        rcases hd with hd | rfl
        · exact hrun.1 d hd
        · rfl

/-- What the growing branch of `mm_realloc` computes in a tiled heap: the block absorbs the free
run behind it, or also the bytes by which the heap was extended. -/
lemma reallocNext_eq {body : ℕ} (ht : Tiled h (l ++ b :: r)) (hr : r ≠ [])
    (hx : x = h.heapListp + extent Block.size l) (hmod : body % 8 = 0)
    (hbody : body ≤ b.size + 2 ^ 31) (hlt : b.size < body) :
    let run := freeRun (body - b.size) 0 r
    let recycled := extent Block.size run
    let words := max (body - b.size - recycled) chunksize
    reallocNext h x body ((b.size : ℤ) - body) =
      if body - b.size ≤ recycled then
        some ({ countBlocks h (-(run.length : ℤ)) (-(run.length : ℤ)) with
          mem := writeOver h.mem x (b.size + recycled) }, true)
      else if (extendHeap h words).2 = null then some ((extendHeap h words).1, false)
      else some ({ countBlocks (extendHeap h words).1 (-1) 0 with
          mem := writeOver (extendHeap h words).1.mem x (b.size + recycled + words) }, true) := by
  intro run recycled words
  have hbmod := b.size_mod
  have hext := ht.extent_lt
  have hneg : toUnsigned (-((b.size : ℤ) - body)) = body - b.size := by
    rw [show -((b.size : ℤ) - body) = ((body - b.size : ℕ) : ℤ) by omega]
    exact wrapUnsigned_natCast (by omega)
  have hrec := extendHeapRecycle_eq ht hr hx (show (body - b.size) % 8 = 0 by omega)
    (show body - b.size + 7 < 2 ^ 32 by omega)
  obtain ⟨rest, hsplit, -, -⟩ := freeRun_spec (body - b.size) 0 r
  have hbound : b.size + recycled < 2 ^ 25 := by
    rw [hsplit] at hext
    simp only [extent_append, extent_cons] at hext
    simp only [recycled, run]
    omega
  simp only [reallocNext, hneg, hrec]
  change (if (b.size : ℤ) - body + recycled < 0 then _ else _) = _
  by_cases hge : body - b.size ≤ recycled
  · have hsize : toUnsigned ((body : ℤ) + ((b.size : ℤ) - body + recycled)) =
        b.size + recycled := by
      rw [show (body : ℤ) + ((b.size : ℤ) - body + recycled) = ((b.size + recycled : ℕ) : ℤ) by
        push_cast; ring]
      exact wrapUnsigned_natCast (by omega)
    rw [if_neg (by omega), if_pos hge, hsize]
    rfl
  · have hwords : words ≤ 2 ^ 31 := by
      simp only [words, chunksize]
      omega
    have hmissing : toUnsigned (-((b.size : ℤ) - body + recycled)) = body - b.size - recycled := by
      rw [show -((b.size : ℤ) - body + recycled) = ((body - b.size - recycled : ℕ) : ℤ) by omega]
      exact wrapUnsigned_natCast (by omega)
    -- the conversion to `int` and back is the identity, and so is it modulo `2 ^ 32`
    have hnat : toUnsigned (toInt (max (body - b.size - recycled) chunksize : ℕ)) = words := by
      change toUnsigned (toInt words) = words
      simp only [toUnsigned, toInt, wrapUnsigned, wrapSigned]
      omega
    have hsize : toUnsigned ((body : ℤ) + ((b.size : ℤ) - body +
        extent Block.size (freeRun (body - b.size) 0 r) +
          toInt (max (body - b.size - recycled) chunksize : ℕ))) = b.size + recycled + words := by
      change toUnsigned ((body : ℤ) + ((b.size : ℤ) - body + recycled + toInt words)) = _
      simp only [toUnsigned, toInt, wrapUnsigned, wrapSigned]
      omega
    have hrestore : ({ countBlocks h (-((freeRun (body - b.size) 0 r).length : ℤ))
        (-((freeRun (body - b.size) 0 r).length : ℤ)) with
        numExpectedFreeBlocks := h.numExpectedFreeBlocks
        numExpectedBlocks := h.numExpectedBlocks } : Heap) = h := rfl
    rw [if_pos (by omega), if_neg hge, hmissing, ← Nat.cast_max]
    simp only [hrestore, hnat, hsize]
    rfl

lemma Reallocates.congr_counts {asize q : ℕ} {h' : Heap} {bs bs' : List Block} {i j : ℤ}
    (hr : Reallocates x asize q (countBlocks h i j) bs h' bs') : Reallocates x asize q h bs h' bs' :=
  ⟨⟨hr.start, hr.brk, hr.listp, hr.frame, hr.wellFormed⟩, hr.occupied, hr.moved, hr.keptApart⟩

lemma WellFormedAs.countBlocks {bs : List Block} (hw : WellFormedAs h bs) (i j : ℤ) :
    WellFormedAs (Malloc.countBlocks h i j) bs := hw.congr ⟨rfl, rfl, rfl, rfl⟩ rfl rfl

/-- A block whose free run ends at the epilogue grows over the run and over new bytes. -/
lemma extend_grow {words : ℕ} {t : Bool} (hw : WellFormedAs h (l ++ b :: run ++ [Block.epilogue t]))
    (hl : l ≠ []) (hb : b.alloc = true) (h16 : 16 ≤ b.size) (hrun : ∀ c ∈ run, c.alloc = false)
    (hx : x = h.heapListp + extent Block.size l) (hmod : words % 8 = 0) (hwords : 16 ≤ words)
    (hlt : words + 7 < 2 ^ 32) (hroom : h.memBrk + words ≤ h.memMaxAddr)
    (hcur : ¬(x < h.currentBlock ∧ h.currentBlock < x + b.size + extent Block.size run)) :
    let size := b.size + extent Block.size run + words
    ∃ h₁ y bs', extendHeap h words = (h₁, y) ∧ y ≠ null ∧
      Reallocates x size x h (l ++ b :: run ++ [Block.epilogue t])
        { countBlocks h₁ (-1) 0 with mem := writeOver h₁.mem x size } bs' := by
  intro size
  obtain ⟨c, rfl, hca, hct⟩ : ∃ c : Block, c.size = words ∧ c.alloc = false ∧ c.tag = false :=
    ⟨⟨words, false, false, hmod⟩, rfl, rfl, rfl⟩
  have halign : align c.size = c.size := by
    rw [align_eq hlt]
    omega
  have hlistp := hw.listp
  obtain ⟨pre, p, run', heq, hgrown, hext, hrun'⟩ := grown_run (l := l) (t := t) hb hca hrun
  obtain ⟨d, hd, hne⟩ := hw.current
  have hlow := le_of_mem_placed hd
  have hbehind : h.currentBlock ≤ x := by
    have hend := add_le_of_mem_placed hd
    simp only [extent_append, extent_cons, extent_nil, Block.epilogue_size] at hend
    omega
  have hw₁ := hw
  rw [heq] at hw₁
  obtain ⟨h₁, hextend, -, hcover, he⟩ := (extendHeap_spec hw₁ halign hwords (by omega) hca
    hct).resolve_left (fun hno => absurd hno.2 (not_lt.mpr hroom))
  have hcover : h₁.currentBlock ≤ h.currentBlock := by
    rw [hcover]
    exact cover_le hlow
  rw [← heq, hgrown] at he
  obtain ⟨bs', hg⟩ := grow_spec (he.wellFormed.countBlocks (-1) 0) hl (by simp) h16 hrun'
    (show x = h₁.heapListp + extent Block.size l by rw [he.listp, hx])
    (show size = b.size + extent Block.size run' by omega)
    (fun h1 => absurd (h1.1.trans_le (hcover.trans hbehind)) (lt_irrefl x))
  refine ⟨h₁, _, bs', hextend, ?_, ?_⟩
  · simp only [joinStart, null]
    split <;> omega
  · have hg' := hg.congr_counts
    refine ⟨(he.mono (Set.empty_subset _)).trans hg'.toEvolves, he.listp ▸ hg'.occupied,
      fun hne => absurd rfl hne, fun hkept => hg'.keptApart ?_⟩
    rw [heq] at hkept
    exact hgrown ▸ grownList_keptApart hkept hca

lemma reallocNext_spec {body : ℕ} (hw : WellFormedAs h (l ++ b :: r)) (hl : l ≠ []) (hr : r ≠ [])
    (hb : b.alloc = true) (h16 : 16 ≤ b.size) (hx : x = h.heapListp + extent Block.size l)
    (hmod : body % 8 = 0) (hbody : body < 2 ^ 31) (hlt : b.size < body)
    (hsafe : let recycled := extent Block.size (freeRun (body - b.size) 0 r)
      recycled < body - b.size ∧
          h.memMaxAddr < h.memBrk + max (body - b.size - recycled) chunksize ∨
        (body - b.size ≤ recycled ∨ ∃ t, r = freeRun (body - b.size) 0 r ++ [Block.epilogue t]) ∧
          ¬(x < h.currentBlock ∧ h.currentBlock < x + b.size + recycled)) :
    reallocNext h x body ((b.size : ℤ) - body) = some (h, false) ∨
      ∃ h' bs', reallocNext h x body ((b.size : ℤ) - body) = some (h', true) ∧
        Reallocates x body x h (l ++ b :: r) h' bs' := by
  have heq := reallocNext_eq hw.toTiled hr hx hmod (by omega) hlt
  have hbmod := b.size_mod
  dsimp only at hsafe heq
  obtain ⟨rest, hsplit, hfree, -⟩ := freeRun_spec (body - b.size) 0 r
  generalize freeRun (body - b.size) 0 r = run at *
  have hrunmod := extent_mod run
  have hbs : l ++ b :: r = l ++ b :: run ++ rest := by rw [hsplit]; simp
  rw [hbs] at hw ⊢
  rw [heq]
  by_cases hge : body - b.size ≤ extent Block.size run
  · -- the free blocks have room
    right
    have hrest : rest ≠ [] := by
      have hfr : Framed ((l ++ [b]) ++ run ++ rest) := by simpa using hw.framed
      exact hfr.ne_nil_of_run (by simp) (hsplit ▸ hr) hfree
    obtain ⟨-, hcur⟩ := hsafe.resolve_left (fun hno => absurd hno.1 (not_lt.mpr hge))
    rw [if_pos hge]
    obtain ⟨bs', hg⟩ := grow_spec (hw.countBlocks _ _) hl hrest h16 hfree hx rfl
      (by rwa [← Nat.add_assoc])
    exact ⟨_, bs', rfl, hg.congr_counts.mono (by omega)⟩
  -- the heap has to be extended behind the free blocks
  rw [if_neg hge]
  obtain ⟨words, hwords⟩ : ∃ w, w = max (body - b.size - extent Block.size run) chunksize := ⟨_, rfl⟩
  rw [← hwords] at hsafe ⊢
  simp only [chunksize] at hwords
  rcases extendHeap_evolves hw (w := words) (by omega) (by omega) (by omega) with ⟨hfail, -⟩ | hext
  · left
    rw [hfail]
    rfl
  · right
    obtain ⟨-, -, -, -, -, hroom, -⟩ := hext
    obtain ⟨hfits, hcur⟩ := hsafe.resolve_left (fun hno => absurd hno.2 (not_lt.mpr hroom))
    obtain ⟨t, hrt⟩ := hfits.resolve_left hge
    obtain rfl : rest = [Block.epilogue t] := by
      rw [hsplit] at hrt
      exact List.append_cancel_left hrt
    obtain ⟨h₁, y, bs', hextend, hnull, hg⟩ := extend_grow hw hl hb h16 hfree hx (by omega)
      (by omega) (by omega) hroom hcur
    rw [hextend, if_neg hnull]
    exact ⟨_, bs', rfl, hg.mono (by omega)⟩

/-- A growing branch that returns the block has written it anew, in the heap as it was or in an
extended one that keeps every payload. -/
lemma reallocNext_grown {body : ℕ} {h' : Heap} (hw : WellFormedAs h (l ++ b :: r)) (hr : r ≠ [])
    (hx : x = h.heapListp + extent Block.size l) (hmod : body % 8 = 0)
    (hbody : body ≤ b.size + 2 ^ 31) (hlt : b.size < body)
    (heq : reallocNext h x body ((b.size : ℤ) - body) = some (h', true)) :
    ∃ (g : Heap) (bs' : List Block) (size : ℕ), h'.mem = writeOver g.mem x size ∧
      PayloadFrame ∅ h.heapListp h.mem (l ++ b :: r) g.mem bs' ∧
      body ≤ size ∧ size % 8 = 0 ∧ size < 2 ^ 26 := by
  rw [reallocNext_eq hw.toTiled hr hx hmod hbody hlt] at heq
  dsimp only at heq
  have hlistp := hw.listp
  have hext := hw.extent_lt
  have hbrk := hw.brk
  have hmax := hw.maxAddr
  have hbmod := b.size_mod
  simp only [maxHeap] at hmax
  obtain ⟨rest, hsplit, -, -⟩ := freeRun_spec (body - b.size) 0 r
  generalize freeRun (body - b.size) 0 r = run at *
  have hrun := extent_mod run
  rw [hsplit] at hext
  simp only [extent_append, extent_cons] at hext
  by_cases hge : body - b.size ≤ extent Block.size run
  · rw [if_pos hge] at heq
    obtain ⟨rfl, -⟩ := Prod.mk.inj (Option.some.inj heq)
    exact ⟨h, _, _, rfl, PayloadFrame.refl _ _ _ _, by omega, by omega, by omega⟩
  rw [if_neg hge] at heq
  obtain ⟨words, hwords⟩ : ∃ w, w = max (body - b.size - extent Block.size run) chunksize := ⟨_, rfl⟩
  rw [← hwords] at heq
  simp only [chunksize] at hwords
  rcases extendHeap_evolves hw (w := words) (by omega) (by omega) (by omega) with hno | hext
  · rw [hno.1] at heq
    simp at heq
  · obtain ⟨g, y, bs', hext, hnull, hroom, he⟩ := hext
    rw [hext, if_neg hnull] at heq
    obtain ⟨rfl, -⟩ := Prod.mk.inj (Option.some.inj heq)
    exact ⟨g, bs', _, rfl, he.frame, by omega, by omega, by omega⟩

end Grow

/-! ### Sliding a block -/

section Slide

variable {h : Heap} {l r : List Block} {p b : Block} {x size body : ℕ}

/-- Sliding a block down into the free block in front tiles the heap again, and the data of the
block move with it. -/
lemma Tiled.slide (ht : Tiled h (l ++ p :: b :: r)) (hr : r ≠ []) (hp : p.alloc = false)
    (hx : x = h.heapListp + extent Block.size l + p.size) (hsize : size + 8 ≤ body)
    (hbody : body ≤ p.size + b.size) :
    let y := h.heapListp + extent Block.size l
    let h' := reallocPrev h x size body ((b.size : ℤ) - body + p.size)
    ∃ c : Block, c.size = p.size + b.size ∧ c.alloc = true ∧ Tiled h' (l ++ c :: r) ∧
      PayloadFrame {x, y} h.heapListp h.mem (l ++ p :: b :: r) h'.mem (l ++ c :: r) ∧
      Occupied h.heapListp (l ++ c :: r) y (p.size + b.size) ∧
      (∀ z, Start h.heapListp (l ++ p :: b :: r) z → ¬(y < z ∧ z < y + (p.size + b.size)) →
        Start h.heapListp (l ++ c :: r) z) ∧
      ∀ i < size, i + 8 < b.size → h'.mem (y + i) = h.mem (x + i) := by
  intro y h'
  have hlistp := ht.listp
  have hlt := ht.extent_lt
  simp only [extent_append, extent_cons] at hlt
  obtain ⟨hl, -⟩ := ht.framed.ne_nil_of_free hp
  have hp16 := ht.framed.ordinary hl (by simp)
  have hprev : prevBlkp h.mem x = y := ht.prevBlkp_eq hx
  have hpack : toUnsigned ((body : ℤ) + ((b.size : ℤ) - body + p.size)) = p.size + b.size := by
    rw [show (body : ℤ) + ((b.size : ℤ) - body + p.size) = ((p.size + b.size : ℕ) : ℤ) by
      push_cast; ring]
    exact wrapUnsigned_natCast (by omega)
  have hmod : (p.size + b.size) % 8 = 0 := by
    have := p.size_mod
    have := b.size_mod
    omega
  obtain ⟨c, hc, halloc, htag⟩ :
      ∃ c : Block, c.size = p.size + b.size ∧ c.alloc = true ∧ c.tag = false :=
    ⟨⟨_, true, false, hmod⟩, rfl, rfl, rfl⟩
  obtain ⟨hblock, hag⟩ := put_block (m := h.mem) (x := y) (b := c) (by omega) (by omega) (by omega)
    htag
  obtain ⟨-, hinner⟩ := writeOver_spec (m := h.mem) (x := y) (by omega) hmod (by omega) (by omega)
  rw [hc, halloc] at hblock hag
  have hh' : h' = { countBlocks h (-1) (-1) with
      mem := moveBytes (writeOver h.mem y (p.size + b.size)) y x size } := by
    simp only [h', reallocPrev, hprev, hpack, Nat.min_eq_left (show size ≤ body by omega)]
    rfl
  change BlockAt (writeOver h.mem y (p.size + b.size)) y c at hblock
  change AgreeOutside _ _ h.mem (writeOver h.mem y (p.size + b.size)) at hag
  rw [hh']
  generalize writeOver h.mem y (p.size + b.size) = m₂ at hblock hag hinner
  have hmove : BlockAt (moveBytes m₂ y x size) y c := by
    apply hblock.congr_words
    · intro z h1 h2
      exact moveBytes_apply_of_disjoint (by omega)
    · intro hne z h1 h2
      exact moveBytes_apply_of_disjoint (by omega)
  have ht₂ : Tiled h (l ++ [p, b] ++ r) := by simpa using ht
  obtain ⟨ht', hf, hocc, hstart⟩ := ht₂.overwrite (S := {x, y}) hl hr halloc htag (by omega)
    (by simp [hc]) rfl hmove (by rw [hc]; exact hag.moveBytes (by omega) (by omega))
    (fun z d hd hda => by
      simp only [placed_cons, placed_nil, List.mem_cons, Prod.mk.injEq, List.not_mem_nil,
        or_false] at hd
      rcases hd with ⟨rfl, -⟩ | ⟨rfl, -⟩
      · exact Or.inr rfl
      · exact Or.inl hx.symm) (Or.inr rfl)
  refine ⟨c, hc, halloc, ht'.congr ⟨rfl, rfl, rfl, rfl⟩ rfl, by simpa using hf, hc ▸ hocc, ?_, ?_⟩
  · intro z hz hnot
    exact hstart z (by simpa using hz) (hc ▸ hnot)
  · intro i hi hib
    dsimp only
    rw [moveBytes_apply_of_mem hi]
    exact hinner (x + i) (by omega) (by omega)

lemma not_occupied_free {a k : ℕ} (hp : p.alloc = false) (hpos : 0 < p.size) :
    ¬Occupied a (l ++ p :: r) (a + extent Block.size l) k := by
  rintro ⟨d, hd, hda, hd16, -⟩
  obtain rfl := placed_inj placed_at hd hpos (by omega)
  rw [hp] at hda
  cases hda

lemma reallocPrev_spec (hw : WellFormedAs h (l ++ p :: b :: r)) (hr : r ≠ []) (hp : p.alloc = false)
    (hx : x = h.heapListp + extent Block.size l + p.size) (hsize : size + 8 ≤ body)
    (hbody : body ≤ p.size + b.size) (hcur : h.currentBlock ≠ x) :
    ∃ bs', Reallocates x body (h.heapListp + extent Block.size l) h (l ++ p :: b :: r)
      (reallocPrev h x size body ((b.size : ℤ) - body + p.size)) bs' := by
  set y := h.heapListp + extent Block.size l with hy
  obtain ⟨hl, -⟩ := hw.framed.ne_nil_of_free hp
  have hp16 := hw.framed.ordinary hl (by simp)
  obtain ⟨c, hc, halloc, ht', hf, hocc, hstart, -⟩ := hw.toTiled.slide hr hp hx hsize hbody
  refine ⟨l ++ c :: r, ⟨rfl, le_rfl, rfl, hf, ht', ?_⟩, ⟨_, hbody, hocc⟩, fun _ => ⟨?_,
    fun k => not_occupied_free hp (by omega)⟩, ?_⟩
  · refine hstart h.currentBlock hw.current ?_
    -- the roving pointer is a start, and the only start strictly inside is `x`
    rintro ⟨h1, h2⟩
    obtain ⟨d, hd, hne⟩ := hw.current
    have hyp : (y, p) ∈ placed Block.size h.heapListp (l ++ p :: b :: r) := placed_at
    have hxb : (x, b) ∈ placed Block.size h.heapListp (l ++ p :: b :: r) := placed_behind hx
    have := placed_disjoint hyp hd h1
    rcases Nat.lt_or_gt_of_ne hcur with hlt' | hgt
    · omega
    · have := placed_disjoint hxb hd hgt
      omega
  · rintro k ⟨d, hd, -, hd16, -⟩
    have hyc : (y, c) ∈ placed Block.size h.heapListp (l ++ c :: r) := placed_at
    have := placed_disjoint hyc hd (by omega)
    have hfr : Framed ((l ++ [p]) ++ b :: r) := by simpa using hw.framed
    have := hfr.ordinary (by simp) hr
    omega
  · intro hk
    have hk' : (l ++ [p, b] ++ r).IsChain KeptApart := by simpa using hk
    exact chain_overwrite_keptApart hk' halloc

end Slide

/-! ### Copying a block -/

/-- `mm_free` does not leave an untagged free block in front of another one: the two blocks
behind the freed one are not both free, or the freed one is tagged. -/
def FreeSafe (h : Heap) (ptr : ℕ) : Prop :=
  getAlloc h.mem (hdrp (nextBlkp h.mem ptr)) = 0 →
    getAlloc h.mem (hdrp (nextBlkp h.mem (nextBlkp h.mem ptr))) = 0 → getTag h.mem (hdrp ptr) ≠ 0

instance (h : Heap) (ptr : ℕ) : Decidable (FreeSafe h ptr) :=
  inferInstanceAs (Decidable (_ → _))

theorem mmFree_evolves {h : Heap} {bs : List Block} {x k : ℕ} (hw : WellFormedAs h bs)
    (hx : Occupied h.heapListp bs x k) :
    ∃ bs', Evolves {x} h bs (mmFree h x) bs' ∧ (∀ j, ¬Occupied h.heapListp bs' x j) ∧
      (FreeSafe h x → bs.IsChain KeptApart → bs'.IsChain KeptApart) ∧
      (Untagged bs → Untagged bs') := by
  obtain ⟨pre, p, b, n, post, rfl, hxp, halloc, rfl⟩ := hw.split_occupied hx
  obtain ⟨m, heq, hw', -, hf, hno⟩ := mmFree_spec hw halloc hxp
  refine ⟨_, ⟨?_, ?_, ?_, ?_, hw'⟩, hno, fun hsafe hk => freedList_keptApart hk hw.tags ?_, ?_⟩
  · rw [heq]; rfl
  · rw [heq]; exact le_rfl
  · rw [heq]; rfl
  · rw [heq]; exact hf
  · intro hn c hc hca
    have hb : BlockAt h.mem x b := hw.toTiled.blockAt_behind hxp
    have hnAt : BlockAt h.mem (x + b.size) n := hw.toTiled.blockAt_behind₂ hxp
    cases post with
    | nil => simp at hc
    | cons d post =>
      obtain rfl : d = c := by simpa using hc
      have hdAt : BlockAt h.mem (x + b.size + n.size) d := hw.toTiled.blockAt_behind₃ hxp
      unfold FreeSafe at hsafe
      rw [hb.nextBlkp, hnAt.nextBlkp, hnAt.getAlloc_hdrp, hdAt.getAlloc_hdrp, hb.getTag_hdrp, hn,
        hca] at hsafe
      have := hsafe rfl rfl
      cases hbt : b.tag
      · rw [hbt] at this
        exact absurd rfl this
      · rfl
  · intro hu
    simp only [Untagged, freedList, joinPrev, joinNext, List.forall_mem_append,
      List.forall_mem_cons] at hu ⊢
    cases hpc : p.closed <;> cases hna : n.alloc <;> simp_all

lemma reallocCopy_spec {h : Heap} {bs : List Block} {x k size body : ℕ} (hw : WellFormedAs h bs)
    (hx : Occupied h.heapListp bs x k) (hn : ∃ j, Occupied h.heapListp bs (x + k) j)
    (h16 : 16 ≤ body) (hbody : body + 7 < 2 ^ 32) (hsize : size + 8 ≤ body) :
    reallocCopy h x size body = none ∨
      ∃ h' q bs', reallocCopy h x size body = some (h', q) ∧ q ≠ null ∧
        Reallocates x body q h bs h' bs' ∧ ∀ i < size, i + 8 < k → h'.mem (q + i) = h.mem (x + i) := by
  have hsub : toUnsigned ((body : ℤ) - (dsize : ℕ)) = body - 8 := by
    rw [show (body : ℤ) - (dsize : ℕ) = ((body - 8 : ℕ) : ℤ) by simp only [dsize]; omega]
    exact wrapUnsigned_natCast (by omega)
  simp only [reallocCopy, hsub]
  rcases mmMalloc_spec (n := body - 8) hw (by omega) with hnull | hmalloc
  · left
    rw [hnull]
    simp
  right
  obtain ⟨h₁, q, bs₁, heq, hq, ⟨he, ⟨j, hj, hocc⟩, hfresh⟩, hk, -⟩ := hmalloc
  rw [heq]
  simp only [if_neg hq, Nat.min_eq_left (show size ≤ body by omega)]
  have hqx : q ≠ x := by
    rintro rfl
    exact hfresh k hx
  have hqn : x + k ≠ q := by
    rintro rfl
    obtain ⟨i, hi⟩ := hn
    exact hfresh i hi
  -- the copy stays inside the new payload
  have hag : AgreeOutside q (q + j - 8) h₁.mem (moveBytes h₁.mem q x size) :=
    (AgreeOutside.refl _ _ _).moveBytes le_rfl (by omega)
  obtain ⟨hw₂, hf₂⟩ := he.wellFormed.writePayload (he.listp ▸ hocc) hag
  have hx₁ : Occupied h₁.heapListp bs₁ x k := by
    rw [he.listp]
    exact (he.frame.occupied x k (fun hxq => hqx hxq.symm)).mpr hx
  obtain ⟨bs₂, he₂, hno, hk₂, -⟩ := mmFree_evolves hw₂ hx₁
  have he₁ : Evolves {x, q} h bs { h₁ with mem := moveBytes h₁.mem q x size } bs₁ :=
    (he.mono (by simp)).trans ⟨rfl, le_rfl, rfl, hf₂.mono (by simp), hw₂⟩
  have hocc₂ : Occupied h₁.heapListp bs₂ q j :=
    (he₂.frame.occupied q j hqx).mpr (he.listp ▸ hocc)
  refine ⟨_, q, bs₂, rfl, hq, ⟨he₁.trans (he₂.mono (by simp)), ⟨j, by omega, he.listp ▸ hocc₂⟩,
    fun _ => ⟨fun i => he.listp ▸ hno i, hfresh⟩, fun hkept => hk₂ ?_ (hk hkept)⟩,
    fun i hi hik => ?_⟩
  · -- the block behind the freed one is allocated
    intro hnext
    obtain ⟨i, hi⟩ := hn
    obtain ⟨c, hc, hca, -, -⟩ := (he₁.frame.occupied (x + k) i (by
      rintro (h1 | h1)
      · have := (hw.occupied_bounds hx).2.2.2
        omega
      · exact hqn h1)).mpr hi
    obtain ⟨b, hb, -, -, rfl⟩ := hx₁
    have hcAt := hw₂.blockAt (he.listp ▸ hc)
    rw [(hw₂.blockAt hb).nextBlkp, hcAt.getAlloc_hdrp, hca] at hnext
    cases hnext
  · -- neither the allocation nor the release touches the data
    rw [he₂.frame.payload q j hqx (he.listp ▸ hocc) (q + i) (by omega) (by omega)]
    dsimp only
    rw [moveBytes_apply_of_mem hi]
    exact he.frame.payload x k (fun hxq => hqx hxq.symm) hx (x + i) (by omega) (by omega)

/-! ### `mm_realloc` -/

lemma bodySize_spec {n : ℕ} (hn : n + 15 + padding < 2 ^ 31) : bodySize n % 8 = 0 ∧
    16 ≤ bodySize n ∧ n + 8 ≤ bodySize n ∧ bodySize n < 2 ^ 31 := by
  simp only [padding] at hn
  obtain ⟨hmod, h16, hle, -, hmax⟩ := adjustSize_spec (n := n) (by omega)
  have hbody : bodySize n = adjustSize n + 128 :=
    wrapUnsigned_natCast (x := adjustSize n + 128) (by omega)
  omega

/-- An allocated block of some size behind another one is an ordinary block. -/
lemma Tiled.occupied_behind {h : Heap} {pre post : List Block} {p b d : Block} {x : ℕ}
    (ht : Tiled h (pre ++ p :: b :: d :: post))
    (hx : x = h.heapListp + extent Block.size pre + p.size) (hd : d.alloc = true ∧ d.size ≠ 0) :
    ∃ j, Occupied h.heapListp (pre ++ p :: b :: d :: post) (x + b.size) j := by
  have hfr : Framed ((pre ++ [p, b]) ++ d :: post) := by simpa using ht.framed
  have hpost : post ≠ [] := by
    rintro rfl
    obtain ⟨t, rfl⟩ := hfr.last (by simp)
    exact hd.2 rfl
  exact ⟨d.size, d, mem_placed_iff.mpr ⟨pre ++ [p, b], post, by simp,
    by simp [hx, Nat.add_assoc]⟩, hd.1, hfr.ordinary (by simp) hpost, rfl⟩

/-- A free run in front of a block of size zero reaches the epilogue. -/
lemma Tiled.freeRun_stop {h : Heap} {l r : List Block} {b : Block} {x s : ℕ}
    (ht : Tiled h (l ++ b :: r)) (hr : r ≠ []) (hx : x = h.heapListp + extent Block.size l)
    (hstop : getSize h.mem (hdrp (x + b.size + extent Block.size (freeRun s 0 r))) = 0) :
    ∃ t, r = freeRun s 0 r ++ [Block.epilogue t] := by
  obtain ⟨rest, hsplit, hfree, -⟩ := freeRun_spec s 0 r
  generalize freeRun s 0 r = run at *
  subst hsplit
  have hfr : Framed ((l ++ [b]) ++ run ++ rest) := by simpa using ht.framed
  obtain ⟨c, rest, rfl⟩ := List.exists_cons_of_ne_nil (hfr.ne_nil_of_run (by simp) hr hfree)
  have ht' : Tiled h ((l ++ b :: run) ++ c :: rest) := by simpa using ht
  have hc : BlockAt h.mem (x + b.size + extent Block.size run) c := by
    have hat := ht'.blockAt placed_at
    simp only [extent_append, extent_cons, ← Nat.add_assoc] at hat
    rwa [hx]
  rw [hc.getSize_hdrp] at hstop
  cases rest with
  | nil =>
    obtain ⟨t, rfl⟩ := ht'.framed.last (by simp)
    exact ⟨t, rfl⟩
  | cons e rest =>
    have := ht'.framed.ordinary (by simp) (by simp)
    omega

/-- The signed room that the block at `ptr` has left over a request. -/
def remainingSize (h : Heap) (ptr size : ℕ) : ℤ :=
  toInt (getSize h.mem (hdrp ptr) - bodySize size)

/-- The last statements of `mm_realloc`. -/
def reallocFinish (n : ℕ) (h : Heap) (q : ℕ) : Heap × ℕ :=
  (reallocReserve h q (toInt (getSize h.mem (hdrp q) - bodySize n)), q)

/-- The branches of `mm_realloc` for a block that is too small. -/
lemma mmRealloc_short {h : Heap} {x n : ℕ} (hn0 : n ≠ 0) (hneg : remainingSize h x n < 0) :
    let expandable := remainingSize h x n + toInt (getSize h.mem (hdrp (prevBlkp h.mem x)))
    mmRealloc h x n =
      if ¬isBlockAllocated h.mem (nextBlkp h.mem x) then
        (reallocNext h x (bodySize n) (remainingSize h x n)).map fun r =>
          if r.2 then reallocFinish n r.1 x else (r.1, null)
      else if ¬isBlockAllocated h.mem (prevBlkp h.mem x) ∧ expandable ≥ 0 then
        some (reallocFinish n (reallocPrev h x n (bodySize n) expandable) (prevBlkp h.mem x))
      else (reallocCopy h x n (bodySize n)).map fun r => reallocFinish n r.1 r.2 := by
  intro expandable
  simp only [mmRealloc, if_neg hn0]
  rw [show toInt (getSize h.mem (hdrp x) - toUnsigned ((adjustSize n : ℤ) + (padding : ℕ))) =
    remainingSize h x n from rfl, if_pos hneg]
  have hbody : toUnsigned ((adjustSize n : ℤ) + (padding : ℕ)) = bodySize n := rfl
  refine if_congr Iff.rfl ?_ (if_congr Iff.rfl rfl ?_)
  · rw [hbody]
    rcases reallocNext h x (bodySize n) (remainingSize h x n) with _ | ⟨g, _ | _⟩ <;> rfl
  · rw [hbody]
    cases reallocCopy h x n (bodySize n) <;> rfl

lemma mmRealloc_eq {h : Heap} {pre post : List Block} {p b d : Block} {x n : ℕ}
    (ht : Tiled h (pre ++ p :: b :: d :: post))
    (hx : x = h.heapListp + extent Block.size pre + p.size) (hn0 : n ≠ 0)
    (hbody : bodySize n ≤ b.size + 2 ^ 31) :
    mmRealloc h x n =
      if bodySize n ≤ b.size then some (reallocFinish n h x)
      else if d.alloc = true ∧ d.size ≠ 0 then
        if p.alloc = false ∧ bodySize n ≤ p.size + b.size then
          some (reallocFinish n
            (reallocPrev h x n (bodySize n) ((b.size : ℤ) - bodySize n + p.size)) (x - p.size))
        else (reallocCopy h x n (bodySize n)).map fun r => reallocFinish n r.1 r.2
      else (reallocNext h x (bodySize n) ((b.size : ℤ) - bodySize n)).map fun r =>
        if r.2 then reallocFinish n r.1 x else (r.1, null) := by
  have hext := ht.extent_lt
  simp only [extent_append, extent_cons] at hext
  have hfr : Framed ((pre ++ [p]) ++ b :: d :: post) := by simpa using ht.framed
  have hp8 := hfr.size_of_left (b := p) (by simp) (by simp)
  have hpAt : BlockAt h.mem (h.heapListp + extent Block.size pre) p := ht.blockAt placed_at
  have hbAt : BlockAt h.mem x b := ht.blockAt_behind hx
  have hdAt : BlockAt h.mem (x + b.size) d := ht.blockAt_behind₂ hx
  have hprev := ht.prevBlkp_eq hx
  have hsub : x - p.size = h.heapListp + extent Block.size pre := by omega
  have hrem : toInt ((b.size : ℤ) - bodySize n) = (b.size : ℤ) - bodySize n :=
    wrapSigned_of_bounds (w := 31) (by omega) (by omega)
  have hint : toInt p.size = p.size := wrapSigned_of_bounds (w := 31) (by omega) (by omega)
  have hpne : p.size ≠ 0 := by omega
  have hremaining : remainingSize h x n = (b.size : ℤ) - bodySize n := by
    rw [remainingSize, hbAt.getSize_hdrp, hrem]
  by_cases hfits : bodySize n ≤ b.size
  · rw [if_pos hfits]
    simp only [mmRealloc, if_neg hn0]
    exact if_neg (by change ¬remainingSize h x n < 0; omega)
  rw [if_neg hfits, mmRealloc_short hn0 (by omega), hremaining]
  simp only [hbAt.nextBlkp, hprev, hpAt.getSize_hdrp, hdAt.isBlockAllocated, hpAt.isBlockAllocated,
    hint, hsub]
  by_cases hd : d.alloc = true ∧ d.size ≠ 0
  · rw [if_neg (by simpa using hd), if_pos hd]
    refine if_congr ?_ rfl rfl
    rw [show (decide (p.size ≠ 0)) = true from decide_eq_true hpne, Bool.and_true,
      Bool.not_eq_true]
    exact and_congr_right fun _ => by omega
  · rw [if_pos (by simpa using hd), if_neg hd]

/-- The branch behind a returned pointer, with the heap before the reservation at the end. -/
inductive ReallocBranch (h : Heap) (p b d : Block) (x n : ℕ) : Heap → ℕ → Prop
  | stays (hfits : bodySize n ≤ b.size) : ReallocBranch h p b d x n h x
  | slides (hlt : b.size < bodySize n) (hd : d.alloc = true ∧ d.size ≠ 0) (hp : p.alloc = false)
      (hroom : bodySize n ≤ p.size + b.size) :
      ReallocBranch h p b d x n
        (reallocPrev h x n (bodySize n) ((b.size : ℤ) - bodySize n + p.size)) (x - p.size)
  | copies {g : Heap} {y : ℕ} (hlt : b.size < bodySize n) (hd : d.alloc = true ∧ d.size ≠ 0)
      (hslide : ¬(p.alloc = false ∧ bodySize n ≤ p.size + b.size))
      (hcopy : reallocCopy h x n (bodySize n) = some (g, y)) : ReallocBranch h p b d x n g y
  | grows {g : Heap} (hlt : b.size < bodySize n) (hd : ¬(d.alloc = true ∧ d.size ≠ 0))
      (hnext : reallocNext h x (bodySize n) ((b.size : ℤ) - bodySize n) = some (g, true)) :
      ReallocBranch h p b d x n g x

/-- A call of `mm_realloc` that returns a pointer has taken one of the four branches. -/
lemma mmRealloc_branch {h h' : Heap} {pre post : List Block} {p b d : Block} {x n q : ℕ}
    (ht : Tiled h (pre ++ p :: b :: d :: post))
    (hx : x = h.heapListp + extent Block.size pre + p.size) (hn0 : n ≠ 0)
    (hbody : bodySize n ≤ b.size + 2 ^ 31) (heq : mmRealloc h x n = some (h', q)) (hq : q ≠ null) :
    ∃ g, ReallocBranch h p b d x n g q ∧ h' = (reallocFinish n g q).1 := by
  have hfinish : ∀ {g : Heap} {y : ℕ}, reallocFinish n g y = (h', q) →
      y = q ∧ h' = (reallocFinish n g y).1 :=
    fun hfin => ⟨congrArg Prod.snd hfin, congrArg Prod.fst hfin.symm⟩
  rw [mmRealloc_eq ht hx hn0 hbody] at heq
  by_cases hfits : bodySize n ≤ b.size
  · rw [if_pos hfits] at heq
    obtain ⟨rfl, hh'⟩ := hfinish (Option.some.inj heq)
    exact ⟨h, .stays hfits, hh'⟩
  rw [if_neg hfits] at heq
  by_cases hd : d.alloc = true ∧ d.size ≠ 0
  · rw [if_pos hd] at heq
    by_cases hslide : p.alloc = false ∧ bodySize n ≤ p.size + b.size
    · rw [if_pos hslide] at heq
      obtain ⟨rfl, hh'⟩ := hfinish (Option.some.inj heq)
      exact ⟨_, .slides (not_le.mp hfits) hd hslide.1 hslide.2, hh'⟩
    · rw [if_neg hslide] at heq
      obtain ⟨⟨g, y⟩, hcopy, hfin⟩ := Option.map_eq_some_iff.mp heq
      obtain ⟨rfl, hh'⟩ := hfinish hfin
      exact ⟨g, .copies (not_le.mp hfits) hd hslide hcopy, hh'⟩
  · rw [if_neg hd] at heq
    obtain ⟨⟨g, done⟩, hnext, hfin⟩ := Option.map_eq_some_iff.mp heq
    cases done with
    | false => exact absurd (congrArg Prod.snd hfin).symm hq
    | true =>
      obtain ⟨rfl, hh'⟩ := hfinish hfin
      exact ⟨g, .grows (not_le.mp hfits) hd hnext, hh'⟩

/-- What `mm_realloc` of a safe call does to a well-formed heap. It may fail in the copying
branch, it may find no room and change nothing, or it returns a block with room for the
request, and every other allocated block stays. -/
theorem mmRealloc_spec {h : Heap} {bs : List Block} {x k n : ℕ} (hw : WellFormedAs h bs)
    (hx : Occupied h.heapListp bs x k) (hn0 : n ≠ 0) (hn : n + 15 + padding < 2 ^ 31)
    (hsafe : ReallocSafe h x n) :
    mmRealloc h x n = none ∨ mmRealloc h x n = some (h, null) ∨
      ∃ h' q bs', mmRealloc h x n = some (h', q) ∧ q ≠ null ∧
        Reallocates x (n + 8) q h bs h' bs' := by
  obtain ⟨hmod, h16, hle, hlt⟩ := bodySize_spec hn
  obtain ⟨pre, p, b, d, post, rfl, hxp, halloc, rfl⟩ := hw.split_occupied hx
  have hlistp := hw.listp
  have hb16 := (hw.occupied_bounds hx).2.2.2
  have hpAt : BlockAt h.mem (h.heapListp + extent Block.size pre) p := hw.blockAt placed_at
  have hbAt : BlockAt h.mem x b := hw.toTiled.blockAt_behind hxp
  have hdAt : BlockAt h.mem (x + b.size) d := hw.toTiled.blockAt_behind₂ hxp
  have hprev := hw.toTiled.prevBlkp_eq hxp
  simp only [ReallocSafe, slidesSafely, growsSafely, hbAt.getSize_hdrp, hbAt.nextBlkp, hprev,
    hpAt.getSize_hdrp, hpAt.isBlockAllocated, hdAt.isBlockAllocated] at hsafe
  rw [mmRealloc_eq hw.toTiled hxp hn0 (by omega)]
  -- the reservation at the end of all branches
  have hfinish : ∀ {h₁ : Heap} {q : ℕ} {bs₁ : List Block}, q ≠ null →
      Reallocates x (bodySize n) q h (pre ++ p :: b :: d :: post) h₁ bs₁ →
      ∃ h' q' bs', some (reallocFinish n h₁ q) = some (h', q') ∧ q' ≠ null ∧
        Reallocates x (n + 8) q' h (pre ++ p :: b :: d :: post) h' bs' := by
    intro h₁ q bs₁ hq hr
    obtain ⟨bs', hr'⟩ := hr.reserve (toInt (getSize h₁.mem (hdrp q) - bodySize n))
    exact ⟨_, q, bs', rfl, hq, hr'.mono hle⟩
  have hxnull : x ≠ null := by
    simp only [null]
    omega
  by_cases hfits : bodySize n ≤ b.size
  · rw [if_pos hfits]
    exact Or.inr (Or.inr (hfinish hxnull ⟨Evolves.refl _ hw, ⟨_, hfits, hx⟩,
      fun hne => absurd rfl hne, id⟩))
  rw [if_neg hfits]
  have hsafe := hsafe (by omega)
  by_cases hd : d.alloc = true ∧ d.size ≠ 0
  · rw [if_pos hd]
    rw [if_pos (by simpa using hd)] at hsafe
    by_cases hslide : p.alloc = false ∧ bodySize n ≤ p.size + b.size
    · -- slide into the free block in front
      rw [if_pos hslide, show x - p.size = h.heapListp + extent Block.size pre by omega]
      obtain ⟨bs', hr⟩ := reallocPrev_spec hw (by simp) hslide.1 hxp hle hslide.2
        (hsafe (by simp [hslide.1]) (by omega))
      have hnull : h.heapListp + extent Block.size pre ≠ null := by
        simp only [null]
        omega
      exact Or.inr (Or.inr (hfinish hnull hr))
    · -- copy
      rw [if_neg hslide]
      rcases reallocCopy_spec hw hx (hw.toTiled.occupied_behind hxp hd) h16 (by omega) hle with
        hfault | hcopy
      · left
        rw [hfault]
        rfl
      · obtain ⟨h', q, bs', hcopy, hq, hr, -⟩ := hcopy
        rw [hcopy]
        exact Or.inr (Or.inr (hfinish hq hr))
  · -- grow over the free blocks behind
    rw [if_neg hd]
    rw [if_neg (by simpa using hd)] at hsafe
    have hw' : WellFormedAs h ((pre ++ [p]) ++ b :: d :: post) := by simpa using hw
    have hxp' : x = h.heapListp + extent Block.size (pre ++ [p]) := by simp [hxp, Nat.add_assoc]
    rw [hw'.toTiled.blocksBehind_eq (by simp) hxp'] at hsafe
    have hstop := hw'.toTiled.freeRun_stop (s := bodySize n - b.size) (by simp) hxp'
    rcases reallocNext_spec hw' (by simp) (by simp) halloc hb16 hxp' hmod hlt (by omega)
      (hsafe.imp_right (And.imp_left (Or.imp_right hstop))) with hfail | hgrow
    · rw [hfail]
      exact Or.inr (Or.inl rfl)
    · obtain ⟨h', bs', hgrow, hr⟩ := hgrow
      rw [hgrow]
      simp only [List.append_assoc, List.cons_append, List.nil_append] at hr
      exact Or.inr (Or.inr (hfinish hxnull hr))

/-! ### Calls outside of the safe ones -/

section Outside

variable {h : Heap} {pre post : List Block} {p b d : Block} {x n : ℕ}

lemma mmRealloc_inPlace (ht : Tiled h (pre ++ p :: b :: d :: post))
    (hx : x = h.heapListp + extent Block.size pre + p.size) (hn0 : n ≠ 0)
    (hfits : bodySize n ≤ b.size) :
    mmRealloc h x n = some (reallocReserve h x ((b.size : ℤ) - bodySize n), x) := by
  have hbAt : BlockAt h.mem x b := ht.blockAt_behind hx
  have hlt := ht.size_lt (b := b) (by simp)
  have hrem : toInt ((b.size : ℤ) - bodySize n) = (b.size : ℤ) - bodySize n :=
    wrapSigned_of_bounds (w := 31) (by omega) (by omega)
  simp only [mmRealloc, if_neg hn0, hbAt.getSize_hdrp]
  rw [show toUnsigned ((adjustSize n : ℤ) + (padding : ℕ)) = bodySize n from rfl, hrem,
    if_neg (by omega)]

lemma mmRealloc_next (ht : Tiled h (pre ++ p :: b :: d :: post)) (hd : d.alloc = false)
    (hx : x = h.heapListp + extent Block.size pre + p.size) (hn0 : n ≠ 0)
    (hn : n + 15 + padding < 2 ^ 31) (hlt : b.size < bodySize n) :
    mmRealloc h x n = (reallocNext h x (bodySize n) ((b.size : ℤ) - bodySize n)).map fun r =>
      if r.2 then reallocFinish n r.1 x else (r.1, null) := by
  obtain ⟨-, -, -, hbody⟩ := bodySize_spec hn
  rw [mmRealloc_eq ht hx hn0 (by omega), if_neg (by omega), if_neg (by simp [hd])]

/-- A block that finds enough free bytes behind it absorbs them. The roving pointer stays, even
if it is at one of the absorbed blocks. -/
theorem mmRealloc_absorbs {run rest : List Block}
    (ht : Tiled h (pre ++ p :: b :: run ++ rest))
    (hrun : run = freeRun (bodySize n - b.size) 0 (run ++ rest)) (hne : run ≠ [])
    (hx : x = h.heapListp + extent Block.size pre + p.size) (hn0 : n ≠ 0)
    (hn : n + 15 + padding < 2 ^ 31) (hlt : b.size < bodySize n)
    (hroom : bodySize n - b.size ≤ extent Block.size run) :
    ∃ h' bs', mmRealloc h x n = some (h', x) ∧ Tiled h' bs' ∧ h'.heapListp = h.heapListp ∧
      h'.currentBlock = h.currentBlock ∧ bs'.map Block.size =
        (pre ++ [p]).map Block.size ++ (b.size + extent Block.size run) :: rest.map Block.size := by
  obtain ⟨d, post, hdp⟩ := List.exists_cons_of_ne_nil hne
  obtain ⟨-, hfree, -⟩ := (freeRun_spec (bodySize n - b.size) 0 (run ++ rest)).choose_spec
  rw [← hrun] at hfree
  obtain ⟨hmod, -, -, hbody⟩ := bodySize_spec hn
  have hb16 : 16 ≤ b.size := by
    have hfr : Framed ((pre ++ [p]) ++ b :: (run ++ rest)) := by simpa using ht.framed
    exact hfr.ordinary (by simp) (by simp [hne])
  have hxp : x = h.heapListp + extent Block.size (pre ++ [p]) := by simp [hx, Nat.add_assoc]
  have hrest : rest ≠ [] := by
    have hfr : Framed ((pre ++ [p, b]) ++ run ++ rest) := by simpa using ht.framed
    exact hfr.ne_nil_of_run (by simp) (by simp [hne]) hfree
  have ht₀ : Tiled h (pre ++ p :: b :: d :: (post ++ rest)) := by simpa [hdp] using ht
  have hnext := mmRealloc_next ht₀ (hfree d (by simp [hdp])) hx hn0 hn hlt
  have heq := reallocNext_eq (l := pre ++ [p]) (r := run ++ rest) (by simpa using ht)
    (by simp [hne]) hxp hmod (by omega) hlt
  simp only [← hrun, if_pos hroom] at heq
  obtain ⟨h₁, hh₁⟩ : ∃ h₁, h₁ = ({ countBlocks h (-(run.length : ℤ)) (-(run.length : ℤ)) with
      mem := writeOver h.mem x (b.size + extent Block.size run) } : Heap) := ⟨_, rfl⟩
  rw [← hh₁] at heq
  rw [heq] at hnext
  have ht' : Tiled (countBlocks h (-(run.length : ℤ)) (-(run.length : ℤ)))
      ((pre ++ [p]) ++ b :: run ++ rest) := by
    rw [show (pre ++ [p]) ++ b :: run ++ rest = pre ++ p :: b :: run ++ rest by simp]
    exact ht.congr ⟨rfl, rfl, rfl, rfl⟩ rfl
  obtain ⟨c, hcsize, hca, htc, -, -, -⟩ := ht'.grow (by simp) hrest hb16 hfree hxp rfl
  obtain ⟨e, rest', rfl⟩ := List.exists_cons_of_ne_nil hrest
  have htc' : Tiled h₁ (pre ++ p :: c :: e :: rest') := by
    have : Tiled h₁ ((pre ++ [p]) ++ c :: e :: rest') := hh₁ ▸ htc
    simpa using this
  have hlistp : h₁.heapListp = h.heapListp := by rw [hh₁]; rfl
  have hcur : h₁.currentBlock = h.currentBlock := by rw [hh₁]; rfl
  refine ⟨_, _, hnext, (htc'.reserve hca (by rw [hlistp, hx]) _).1, ?_, ?_, ?_⟩
  · rw [← hlistp]
    exact (reallocReserve_arena h₁ x _).2.2.1
  · rw [reallocReserve_current, hcur]
  · simp [hcsize]

/-- A block in front of a free one grows whenever the heap can be extended, also where the new
bytes are not adjacent to it. -/
theorem mmRealloc_extends (hw : WellFormedAs h (pre ++ p :: b :: d :: post))
    (hd : d.alloc = false) (hx : x = h.heapListp + extent Block.size pre + p.size) (hn0 : n ≠ 0)
    (hn : n + 15 + padding < 2 ^ 31) (hlt : b.size < bodySize n)
    (hroom : h.memBrk + max (bodySize n - b.size) chunksize ≤ h.memMaxAddr) :
    ∃ h', mmRealloc h x n = some (h', x) := by
  obtain ⟨hmod, -, -, hbody⟩ := bodySize_spec hn
  have hxp : x = h.heapListp + extent Block.size (pre ++ [p]) := by simp [hx, Nat.add_assoc]
  have hbmod := b.size_mod
  have heq := reallocNext_eq (l := pre ++ [p]) (r := d :: post) (by simpa using hw.toTiled)
    (by simp) hxp hmod (by omega) hlt
  rw [mmRealloc_next hw.toTiled hd hx hn0 hn hlt, heq]
  dsimp only
  generalize freeRun (bodySize n - b.size) 0 (d :: post) = run
  by_cases hge : bodySize n - b.size ≤ extent Block.size run
  · rw [if_pos hge]
    exact ⟨_, rfl⟩
  have hrun := extent_mod run
  obtain ⟨hmissing, h16, hmiss⟩ : max (bodySize n - b.size - extent Block.size run) chunksize % 8 = 0 ∧
      16 ≤ max (bodySize n - b.size - extent Block.size run) chunksize ∧
      max (bodySize n - b.size - extent Block.size run) chunksize ≤
        max (bodySize n - b.size) chunksize := by
    simp only [chunksize]
    omega
  obtain ⟨h', y, bs', hext, hnull, -⟩ := (extendHeap_evolves hw hmissing h16
    (by simp only [chunksize]; omega)).resolve_left (fun hno => absurd hno.2 (by omega))
  rw [if_neg hge, hext, if_neg hnull]
  exact ⟨_, rfl⟩

end Outside

end SystemsLabs.Malloc
