import SystemsLabs.Malloc.Requests

/-!
# What `mm_realloc` reads

`mm_realloc` moves data in two branches. The length that it passes to `memmove` is the smaller one
of the request and the rounded request, which is the request: the size of the old block does not
enter. The functions below are those of the allocator with a record of these calls.
-/

namespace SystemsLabs.Malloc
open Library

structure Move where
  heap : Heap
  dst : ℕ
  src : ℕ
  len : ℕ

def Move.Reads (v : Move) (w : ℕ) : Prop := v.src ≤ w ∧ w < v.src + v.len

def memmove (h : Heap) (dst src len : ℕ) : Heap × List Move :=
  ({ h with mem := moveBytes h.mem dst src len }, [⟨h, dst, src, len⟩])

def reallocPrevMoves (h : Heap) (ptr size bodySize : ℕ) (expandableSize : ℤ) : Heap × List Move :=
  let newPtr := prevBlkp h.mem ptr
  let h := countBlocks h (-1) (-1)
  let m := put h.mem (hdrp newPtr) (pack (toUnsigned (bodySize + expandableSize)) 1)
  let m := put m (ftrp m newPtr) (pack (toUnsigned (bodySize + expandableSize)) 1)
  memmove { h with mem := m } newPtr ptr (min size bodySize)

/-- `reallocCopy` with its call of `memmove`, which reads the bytes before it writes any of them to
a null pointer. -/
def reallocCopyMoves (h : Heap) (ptr size bodySize : ℕ) : Option (Heap × ℕ) × List Move :=
  match mmMalloc h (toUnsigned (bodySize - dsize)) with
  | none => (none, [])
  | some (h, newPtr) =>
    let (h, moves) := memmove h newPtr ptr (min size bodySize)
    (if newPtr = null then none else some (mmFree h ptr, newPtr), moves)

def mmReallocMoves (h : Heap) (ptr size : ℕ) : Option (Heap × ℕ) × List Move :=
  if size = 0 then (some (h, null), [])
  else
    let bodySize := toUnsigned (adjustSize size + padding)
    let remainingSize := toInt (getSize h.mem (hdrp ptr) - bodySize)
    let finish (h : Heap) (newPtr : ℕ) : Heap × ℕ :=
      (reallocReserve h newPtr (toInt (getSize h.mem (hdrp newPtr) - bodySize)), newPtr)
    if remainingSize < 0 then
      let isNextBlockAllocated := isBlockAllocated h.mem (nextBlkp h.mem ptr)
      let isPrevBlockAllocated := isBlockAllocated h.mem (prevBlkp h.mem ptr)
      let expandableSize := remainingSize + toInt (getSize h.mem (hdrp (prevBlkp h.mem ptr)))
      if ¬isNextBlockAllocated then
        match reallocNext h ptr bodySize remainingSize with
        | none => (none, [])
        | some (h, false) => (some (h, null), [])
        | some (h, true) => (some (finish h ptr), [])
      else if ¬isPrevBlockAllocated ∧ expandableSize ≥ 0 then
        let (g, moves) := reallocPrevMoves h ptr size bodySize expandableSize
        (some (finish g (prevBlkp h.mem ptr)), moves)
      else
        match reallocCopyMoves h ptr size bodySize with
        | (none, moves) => (none, moves)
        | (some (h, newPtr), moves) => (some (finish h newPtr), moves)
    else (some (reallocReserve h ptr remainingSize, ptr), [])

section Reads

variable {h : Heap} {bs : List Block} {b : Block} {x k n : ℕ}

/-- The record does not change what `mm_realloc` computes. -/
theorem mmReallocMoves_fst (h : Heap) (ptr size : ℕ) :
    (mmReallocMoves h ptr size).1 = mmRealloc h ptr size := by
  unfold mmReallocMoves mmRealloc
  by_cases hsize : size = 0
  · rw [if_pos hsize, if_pos hsize]
  rw [if_neg hsize, if_neg hsize]
  dsimp only
  generalize toUnsigned ((adjustSize size : ℤ) + (padding : ℕ)) = body
  by_cases hneg : toInt ((getSize h.mem (hdrp ptr) : ℤ) - body) < 0
  · rw [if_pos hneg, if_pos hneg]
    by_cases hnext : ¬isBlockAllocated h.mem (nextBlkp h.mem ptr)
    · rw [if_pos hnext, if_pos hnext]
      rcases reallocNext h ptr body _ with _ | ⟨g, _ | _⟩ <;> rfl
    rw [if_neg hnext, if_neg hnext]
    split_ifs with hprev
    · rfl
    · unfold reallocCopyMoves reallocCopy
      rcases mmMalloc h _ with _ | ⟨g, q⟩
      · rfl
      · by_cases hq : q = null
        · simp only [if_pos hq]
        · simp only [if_neg hq, memmove]
  · rw [if_neg hneg, if_neg hneg]

/-- A block that is too small and stands in front of an allocated one is moved. -/
def movesData (h : Heap) (ptr size : ℕ) : Prop :=
  size ≠ 0 ∧ remainingSize h ptr size < 0 ∧ isBlockAllocated h.mem (nextBlkp h.mem ptr)

lemma remainingSize_eq (h : Heap) (ptr size : ℕ) : toInt (getSize h.mem (hdrp ptr) -
    toUnsigned ((adjustSize size : ℤ) + (padding : ℕ))) = remainingSize h ptr size := rfl

lemma mmReallocMoves_stays (hstay : ¬movesData h x n) : (mmReallocMoves h x n).2 = [] := by
  unfold mmReallocMoves
  by_cases hn0 : n = 0
  · rw [if_pos hn0]
  rw [if_neg hn0]
  dsimp only
  rw [remainingSize_eq]
  by_cases hneg : remainingSize h x n < 0
  · have hnext : ¬isBlockAllocated h.mem (nextBlkp h.mem x) := fun hnext => hstay ⟨hn0, hneg, hnext⟩
    rw [if_pos hneg, if_pos hnext]
    rcases reallocNext h x _ _ with _ | ⟨g, _ | _⟩ <;> rfl
  · rw [if_neg hneg]

def slidesDown (h : Heap) (ptr size : ℕ) : Prop :=
  ¬isBlockAllocated h.mem (prevBlkp h.mem ptr) ∧
    remainingSize h ptr size + toInt (getSize h.mem (hdrp (prevBlkp h.mem ptr))) ≥ 0

lemma mmReallocMoves_slides (hmove : movesData h x n) (hslide : slidesDown h x n) :
    ∃ g, (mmReallocMoves h x n).2 = [⟨g, prevBlkp h.mem x, x, min n (bodySize n)⟩] ∧
      g.memStartBrk = h.memStartBrk ∧ g.memBrk = h.memBrk := by
  obtain ⟨hn0, hneg, hnext⟩ := hmove
  unfold slidesDown at hslide
  unfold mmReallocMoves
  rw [if_neg hn0]
  dsimp only
  rw [remainingSize_eq, if_pos hneg, if_neg (not_not.mpr hnext), if_pos hslide]
  exact ⟨_, rfl, rfl, rfl⟩

/-- A moved block is read by one call of `memmove`, in a heap that covers the old one. -/
lemma mmReallocMoves_moves (hw : WellFormedAs h bs) (hx : Occupied h.heapListp bs x k)
    (hmove : movesData h x n) : ∃ g q, (mmReallocMoves h x n).2 = [⟨g, q, x, min n (bodySize n)⟩] ∧
      g.memStartBrk = h.memStartBrk ∧ h.memBrk ≤ g.memBrk := by
  by_cases hslide : slidesDown h x n
  · obtain ⟨g, hmoves, hstart, hbrk⟩ := mmReallocMoves_slides hmove hslide
    exact ⟨g, _, hmoves, hstart, hbrk.ge⟩
  obtain ⟨hn0, hneg, hnext⟩ := hmove
  obtain ⟨b, hb, -, hb16, rfl⟩ := hx
  obtain ⟨hlt, -, -⟩ := remainingSize_neg (hw.blockAt hb) (hw.size_lt (mem_of_mem_placed hb)) hneg
  -- the request for the copy does not wrap
  have hbody : bodySize n < 2 ^ 32 := wrapUnsigned_lt 32 _
  have hmod := bodySize_mod n
  have hrequest : toUnsigned ((bodySize n : ℤ) - (dsize : ℕ)) = bodySize n - 8 := by
    rw [show (bodySize n : ℤ) - (dsize : ℕ) = ((bodySize n - 8 : ℕ) : ℤ) by
      simp only [dsize]; omega]
    exact wrapUnsigned_natCast (by omega)
  unfold slidesDown at hslide
  unfold mmReallocMoves
  rw [if_neg hn0]
  dsimp only
  rw [remainingSize_eq, if_pos hneg, if_neg (not_not.mpr hnext), if_neg hslide,
    show toUnsigned ((adjustSize n : ℤ) + (padding : ℕ)) = bodySize n from rfl]
  unfold reallocCopyMoves
  rw [hrequest]
  rcases mmMalloc_spec hw (show bodySize n - 8 + 15 < 2 ^ 32 by omega) with hnull | hmalloc
  · rw [hnull]
    exact ⟨h, null, rfl, rfl, le_rfl⟩
  · obtain ⟨g, q, bs', heq, hq, he, -⟩ := hmalloc
    rw [heq]
    dsimp only
    rw [if_neg hq]
    exact ⟨g, q, rfl, he.start, he.brk⟩

end Reads

/-- Every byte that `mm_realloc` reads while it moves data lies in the heap, and between the header
and the footer of the old block, both included. -/
def ReadsOwnBlock (h : Heap) (ptr size : ℕ) (b : Block) : Prop :=
  ∀ v ∈ (mmReallocMoves h ptr size).2, ∀ w, v.Reads w →
    memHeapLo v.heap ≤ w ∧ w ≤ memHeapHi v.heap ∧ hdrp ptr ≤ w ∧ w + 4 < ptr + b.size

/-- In every well-formed heap, `mm_realloc` of an allocated block to `m` bytes reads only that block
exactly where it moves no data or the block has at least `m` bytes behind its header. -/
theorem readsOwnBlock_iff {h : Heap} {p m : ℕ} {b : Block} (hw : WellFormed h)
    (hb : AllocatedAt h p b) : ReadsOwnBlock h p m b ↔ m + 4 ≤ b.size ∨ ¬movesData h p m := by
  obtain ⟨bs, hw⟩ := hw
  have hp := hw.allocatedAt_iff.mp ⟨b, hb, rfl⟩
  obtain ⟨-, hlo, hhi, hb16⟩ := hw.occupied_bounds hp
  have hlistp := hw.listp
  by_cases hmove : movesData h p m
  · obtain ⟨g, q, hmoves, hstart, hbrk⟩ := mmReallocMoves_moves hw hp hmove
    have hbody : b.size < bodySize m := by
      have hbAt := hw.blockAt (hw.toTiled.blockList_eq ▸ hb.1)
      have hmem := mem_of_mem_placed (hw.toTiled.blockList_eq ▸ hb.1)
      exact (remainingSize_neg hbAt (hw.size_lt hmem) hmove.2.1).1
    unfold ReadsOwnBlock
    rw [hmoves, List.forall_mem_singleton]
    simp only [Move.Reads, memHeapLo, memHeapHi, hdrp, wsize]
    constructor
    · intro hreads
      left
      by_contra hlt
      -- the first byte behind the footer
      have hlast := hreads (p + b.size - 4) ⟨by omega, by omega⟩
      omega
    · rintro (hle | hstay)
      · rintro w ⟨h1, h2⟩
        omega
      · exact absurd hmove hstay
  · refine ⟨fun _ => Or.inr hmove, fun _ v hv => ?_⟩
    rw [mmReallocMoves_stays hmove] at hv
    cases hv

theorem realloc_reads_block : ∃ s, run Session.step (Session.begin (fun _ => 0) 4096)
    [.malloc 200, .malloc 16, .malloc 16, .free 4112] = some s ∧
      ReadsOwnBlock s.heap 4320 16 ⟨24, true, false, rfl⟩ := by
  have hk : run Sketch.step (Sketch.begin 4096) [.malloc 200, .malloc 16, .malloc 16, .free 4112] =
      some ⟨⟨4096, [Block.prologue, ⟨208, false, false, rfl⟩, ⟨24, true, false, rfl⟩,
        ⟨24, true, false, rfl⟩, ⟨3840, false, false, rfl⟩, Block.epilogue false], 4344⟩,
        [(4344, 16), (4320, 16)]⟩ := by decide
  obtain ⟨s, hrun, hs⟩ := (Shows.begin _ (by decide)).run hk
  have hb : AllocatedAt s.heap 4320 ⟨24, true, false, rfl⟩ :=
    hs.allocatedAt (by decide) rfl (by decide)
  exact ⟨s, hrun, (readsOwnBlock_iff ⟨_, hs.refines.toWellFormedAs⟩ hb).mpr (Or.inl (by decide))⟩

/-- A block of 24 bytes near the break slides down into a free block of 4008 bytes. The call of
`memmove` reads 3000 bytes from 8120 on, and the break is at 8208. -/
theorem realloc_reads_behind : ∃ s, run Session.step (Session.begin (fun _ => 0) 4096)
    [.malloc 4000, .malloc 16, .malloc 48, .free 4112] = some s ∧ WellFormed s.heap ∧
      AllocatedAt s.heap 8120 ⟨24, true, false, rfl⟩ ∧
      (∃ v ∈ (mmReallocMoves s.heap 8120 3000).2, v.Reads 11119 ∧ memHeapHi v.heap < 11119) ∧
      ¬ReadsOwnBlock s.heap 8120 3000 ⟨24, true, false, rfl⟩ := by
  have hk : run Sketch.step (Sketch.begin 4096) [.malloc 4000, .malloc 16, .malloc 48, .free 4112] =
      some ⟨⟨4096, [Block.prologue, ⟨4008, false, false, rfl⟩, ⟨24, true, false, rfl⟩,
        ⟨64, true, false, rfl⟩, Block.epilogue false], 8144⟩, [(8144, 48), (8120, 16)]⟩ := by
    decide +kernel
  obtain ⟨s, hrun, hs⟩ := (Shows.begin _ (by decide)).run hk
  have hw := hs.refines.toWellFormedAs
  have hb : AllocatedAt s.heap 8120 ⟨24, true, false, rfl⟩ :=
    hs.allocatedAt (by decide) rfl (by decide)
  have hat : ∀ {y c}, (y, c) ∈ placed Block.size 4104 [Block.prologue, ⟨4008, false, false, rfl⟩,
      ⟨24, true, false, rfl⟩, ⟨64, true, false, rfl⟩, Block.epilogue false] →
      BlockAt s.heap.mem y c := fun hc => hw.blockAt (by rw [hs.refines.first]; exact hc)
  have hpAt : BlockAt s.heap.mem 8120 ⟨24, true, false, rfl⟩ := hat (by decide)
  have hqAt : BlockAt s.heap.mem 4112 ⟨4008, false, false, rfl⟩ := hat (by decide)
  have hnAt : BlockAt s.heap.mem 8144 ⟨64, true, false, rfl⟩ := hat (by decide)
  have hprev : prevBlkp s.heap.mem 8120 = 4112 := hqAt.prevBlkp (by decide)
  have hbody : bodySize 3000 = 3136 := by decide
  have hremaining : remainingSize s.heap 8120 3000 = -3112 := by
    rw [remainingSize, hpAt.getSize_hdrp, hbody]
    decide
  have hmove : movesData s.heap 8120 3000 := by
    refine ⟨by decide, by rw [hremaining]; decide, ?_⟩
    rw [hpAt.nextBlkp]
    exact hnAt.isBlockAllocated
  have hslide : slidesDown s.heap 8120 3000 := by
    unfold slidesDown
    rw [hprev, hremaining, hqAt.isBlockAllocated, hqAt.getSize_hdrp]
    decide
  obtain ⟨g, hmoves, -, hbrk⟩ := mmReallocMoves_slides hmove hslide
  rw [hbody] at hmoves
  have hmem : (⟨g, prevBlkp s.heap.mem 8120, 8120, min 3000 3136⟩ : Move) ∈
      (mmReallocMoves s.heap 8120 3000).2 := by
    rw [hmoves]
    exact List.mem_singleton_self _
  have hlast : Move.Reads ⟨g, prevBlkp s.heap.mem 8120, 8120, min 3000 3136⟩ 11119 :=
    ⟨show 8120 ≤ 11119 by decide, show 11119 < 8120 + min 3000 3136 by decide⟩
  refine ⟨s, hrun, ⟨_, hw⟩, hb, ⟨_, hmem, hlast, ?_⟩, fun hreads => ?_⟩
  · rw [memHeapHi, hbrk, hs.refines.brk_eq]
    decide
  · obtain ⟨-, -, -, hown⟩ := hreads _ hmem 11119 hlast
    exact absurd hown (by decide)

end SystemsLabs.Malloc
