import SystemsLabs.Malloc.Contents

/-!
# Refused extensions

`mm_realloc` may need bytes that `mem_sbrk` refuses, in its own call of `extend_heap` or in the
one of `mm_malloc`. The branch that grows the block tests its call and leaves the heap as it was.
The branch that copies the block does not: it moves the data through the null pointer.
-/

namespace SystemsLabs.Malloc
open Library

def sbrkRefuses (h : Heap) (words : ℕ) : Prop := memSbrk h (toInt (align words)) = none

/-- The call of `extend_heap` behind the block is refused. -/
def behindRefused (h : Heap) (ptr size : ℕ) : Prop :=
  size ≠ 0 ∧ remainingSize h ptr size < 0 ∧ ¬isBlockAllocated h.mem (nextBlkp h.mem ptr) ∧
    ∃ e, expandableSize h ptr size = some e ∧ e < 0 ∧
      sbrkRefuses h (toUnsigned (toInt (max (toUnsigned (-e)) chunksize)))

def mallocRefused (h : Heap) (size : ℕ) : Prop :=
  ∃ g, findFit h (adjustSize size) = some (g, null) ∧ sbrkRefuses g (max (adjustSize size) chunksize)

/-- The block can neither grow nor slide, and the call of `mm_malloc` for the copy is refused. -/
def copyRefused (h : Heap) (ptr size : ℕ) : Prop :=
  size ≠ 0 ∧ remainingSize h ptr size < 0 ∧ isBlockAllocated h.mem (nextBlkp h.mem ptr) ∧
    ¬(¬isBlockAllocated h.mem (prevBlkp h.mem ptr) ∧
      remainingSize h ptr size + toInt (getSize h.mem (hdrp (prevBlkp h.mem ptr))) ≥ 0) ∧
    mallocRefused h (toUnsigned (bodySize size - dsize))

def spaceRefused (h : Heap) (ptr size : ℕ) : Prop :=
  behindRefused h ptr size ∨ copyRefused h ptr size

/-- `mm_realloc` returns `NULL` and changes neither a byte nor the break nor the roving pointer, and
the block stays allocated. -/
def failsAtomically (h : Heap) (ptr size : ℕ) : Prop :=
  ∃ h', mmRealloc h ptr size = some (h', null) ∧ h'.mem = h.mem ∧ h'.memBrk = h.memBrk ∧
    h'.currentBlock = h.currentBlock ∧ ∀ b, AllocatedAt h ptr b → AllocatedAt h' ptr b

section Refused

variable {h : Heap} {bs l r : List Block} {b : Block} {x k n : ℕ}

lemma extendHeap_refused {words : ℕ} (hr : sbrkRefuses h words) : extendHeap h words = (h, null) := by
  unfold sbrkRefuses at hr
  simp only [extendHeap, hr]

lemma sbrkRefuses_of_room {words : ℕ} (hmod : words % 8 = 0) (hlt : words < 2 ^ 31)
    (hroom : h.memMaxAddr < h.memBrk + words) : sbrkRefuses h words := by
  have halign : align words = words := by
    rw [align_eq (by omega)]
    omega
  have hint : toInt words = words := wrapSigned_of_bounds (w := 31) (by omega) (by omega)
  rw [sbrkRefuses, halign, hint]
  exact if_pos (Or.inr (by omega))

lemma mmMalloc_refused (hlistp : h.heapListp ≠ 0) (hn0 : n ≠ 0) (hr : mallocRefused h n) :
    ∃ g, mmMalloc h n = some (g, null) := by
  obtain ⟨g, hfind, hsbrk⟩ := hr
  refine ⟨g, ?_⟩
  simp only [mmMalloc, if_neg hlistp, if_neg hn0, hfind, extendHeap_refused hsbrk]
  simp

lemma mmRealloc_behindRefused (ht : Tiled h (l ++ b :: r)) (hr : r ≠ [])
    (hx : x = h.heapListp + extent Block.size l) (href : behindRefused h x n) :
    mmRealloc h x n = some (h, null) := by
  obtain ⟨hn0, hneg, hnext, e, he, hlt, hsbrk⟩ := href
  obtain ⟨i, j, hrec, hexp⟩ := ht.expandableSize_eq hr hx hneg
  rw [expandableSize, hrec, Option.map_some, Option.some.injEq] at he
  subst he
  have hgrow : reallocNext h x (bodySize n) (remainingSize h x n) = some (h, false) := by
    -- the counters are restored before the call
    have hrestore : ({ countBlocks h i j with
        numExpectedBlocks := h.numExpectedBlocks
        numExpectedFreeBlocks := h.numExpectedFreeBlocks } : Heap) = h := rfl
    simp only [reallocNext, hrec]
    rw [if_pos hlt, hrestore, extendHeap_refused hsbrk]
    rfl
  rw [mmRealloc_short hn0 hneg, if_pos hnext, hgrow]
  rfl

/-- The copying branch moves the data through the null pointer of a refused `mm_malloc`. -/
lemma mmRealloc_copyRefused (hw : WellFormedAs h bs) (hx : Occupied h.heapListp bs x k)
    (href : copyRefused h x n) : mmRealloc h x n = none := by
  obtain ⟨hn0, hneg, hnext, hslide, hmalloc⟩ := href
  obtain ⟨b, hb, -, hb16, rfl⟩ := hx
  have hlistp := hw.listp
  have hlt := (remainingSize_neg (hw.blockAt hb) (hw.size_lt (mem_of_mem_placed hb)) hneg).1
  have hrequest : toUnsigned (bodySize n - dsize) ≠ 0 := by
    have hbody : bodySize n < 2 ^ 32 := wrapUnsigned_lt 32 _
    rw [show (bodySize n : ℤ) - (dsize : ℕ) = ((bodySize n - 8 : ℕ) : ℤ) by
      simp only [dsize]; omega]
    rw [toUnsigned, wrapUnsigned_natCast (by omega)]
    omega
  obtain ⟨g, hnull⟩ := mmMalloc_refused (by omega) hrequest hmalloc
  have hcopy : reallocCopy h x n (bodySize n) = none := by
    simp only [reallocCopy, hnull, if_true]
  rw [mmRealloc_short hn0 hneg, if_neg (not_not.mpr hnext), if_neg hslide, hcopy]
  rfl

end Refused

/-- In every well-formed heap, if `mem_sbrk` refuses the bytes that `mm_realloc` of an allocated
block needs, the call fails without a trace exactly where the block behind is not allocated. -/
theorem failsAtomically_iff {h : Heap} {p m : ℕ} {b : Block} (hw : WellFormed h)
    (hb : AllocatedAt h p b) (href : spaceRefused h p m) :
    failsAtomically h p m ↔ isBlockAllocated h.mem (nextBlkp h.mem p) = false := by
  obtain ⟨bs, hw⟩ := hw
  have hp := hw.allocatedAt_iff.mp ⟨b, hb, rfl⟩
  constructor
  · rintro ⟨h', heq, -⟩
    rcases href with hbehind | hcopy
    · simpa using hbehind.2.2.1
    · rw [mmRealloc_copyRefused hw hp hcopy] at heq
      cases heq
  · intro hfree
    rcases href with hbehind | hcopy
    · obtain ⟨pre, q, c, d, post, rfl, hx, -, -⟩ := hw.split_occupied hp
      have ht : Tiled h ((pre ++ [q]) ++ c :: d :: post) := by simpa using hw.toTiled
      have heq := mmRealloc_behindRefused ht (by simp) (by simp [hx, Nat.add_assoc]) hbehind
      exact ⟨h, heq, rfl, rfl, rfl, fun _ => id⟩
    · have hnext := hcopy.2.2.1
      rw [hfree] at hnext
      cases hnext

/-- A block in front of the last free block asks for more than the whole heap. -/
theorem failsAtomically_behind : ∃ s, run Session.step (Session.begin (fun _ => 0) 4096)
    [.malloc 16] = some s ∧ failsAtomically s.heap 4112 33554432 := by
  have hk : run Sketch.step (Sketch.begin 4096) [.malloc 16] =
      some ⟨⟨4096, [Block.prologue, ⟨24, true, false, rfl⟩, ⟨4072, false, false, rfl⟩,
        Block.epilogue false], 4104⟩, [(4112, 16)]⟩ := by decide
  obtain ⟨s, hrun, hs⟩ := (Shows.begin _ (by decide)).run hk
  have ht : Tiled s.heap ([Block.prologue] ++ ⟨24, true, false, rfl⟩ ::
      [⟨4072, false, false, rfl⟩, Block.epilogue false]) := hs.refines.toTiled
  have hx : 4112 = s.heap.heapListp + extent Block.size [Block.prologue] := by
    rw [hs.refines.first]
    rfl
  have hb : AllocatedAt s.heap 4112 ⟨24, true, false, rfl⟩ :=
    hs.allocatedAt (by decide) rfl (by decide)
  have hbAt : BlockAt s.heap.mem 4112 ⟨24, true, false, rfl⟩ := hx ▸ ht.blockAt placed_at
  have hnAt : BlockAt s.heap.mem 4136 ⟨4072, false, false, rfl⟩ := by
    apply ht.blockAt
    rw [hs.refines.first]
    decide
  have hfree : isBlockAllocated s.heap.mem (nextBlkp s.heap.mem 4112) = false := by
    rw [hbAt.nextBlkp]
    exact hnAt.isBlockAllocated
  have hbody : bodySize 33554432 = 33554568 := by decide
  have hneg : remainingSize s.heap 4112 33554432 < 0 := by
    rw [remainingSize, hbAt.getSize_hdrp, hbody]
    decide
  obtain ⟨-, -, -, hexp⟩ := ht.expandableSize_eq (n := 33554432) (by simp) hx hneg
  rw [hbody] at hexp
  have hroom : s.heap.memMaxAddr < s.heap.memBrk + 33550472 := by
    rw [hs.refines.maxAddr, hs.refines.brk_eq, hs.refines.start]
    decide
  have href : behindRefused s.heap 4112 33554432 :=
    ⟨by decide, hneg, by simp [hfree], _, hexp, by decide,
      sbrkRefuses_of_room (by decide) (by decide) hroom⟩
  exact ⟨s, hrun, (failsAtomically_iff ⟨_, hs.refines.toWellFormedAs⟩ hb (Or.inl href)).mpr hfree⟩

/-- A block between two allocated ones asks for more than the whole heap. The call faults. -/
theorem realloc_faults : ∃ s, run Session.step (Session.begin (fun _ => 0) 4096)
    [.malloc 16, .malloc 16] = some s ∧ WellFormed s.heap ∧
      AllocatedAt s.heap 4112 ⟨24, true, false, rfl⟩ ∧ spaceRefused s.heap 4112 33554432 ∧
        mmRealloc s.heap 4112 33554432 = none ∧ ¬failsAtomically s.heap 4112 33554432 := by
  have hk : run Sketch.step (Sketch.begin 4096) [.malloc 16, .malloc 16] =
      some ⟨⟨4096, [Block.prologue, ⟨24, true, false, rfl⟩, ⟨24, true, false, rfl⟩,
        ⟨4048, false, false, rfl⟩, Block.epilogue false], 4136⟩, [(4136, 16), (4112, 16)]⟩ := by
    decide
  obtain ⟨s, hrun, hs⟩ := (Shows.begin _ (by decide)).run hk
  have hw := hs.refines.toWellFormedAs
  have hb : AllocatedAt s.heap 4112 ⟨24, true, false, rfl⟩ :=
    hs.allocatedAt (by decide) rfl (by decide)
  have hbAt : ∀ {y c}, (y, c) ∈ placed Block.size 4104 [Block.prologue, ⟨24, true, false, rfl⟩,
      ⟨24, true, false, rfl⟩, ⟨4048, false, false, rfl⟩, Block.epilogue false] →
      BlockAt s.heap.mem y c := fun hc => hw.blockAt (by rw [hs.refines.first]; exact hc)
  have hpAt : BlockAt s.heap.mem 4112 ⟨24, true, false, rfl⟩ := hbAt (by decide)
  have hqAt : BlockAt s.heap.mem 4104 Block.prologue := hbAt (by decide)
  have hnAt : BlockAt s.heap.mem 4136 ⟨24, true, false, rfl⟩ := hbAt (by decide)
  have hprev : prevBlkp s.heap.mem 4112 = 4104 := hqAt.prevBlkp (by decide)
  have hbody : bodySize 33554432 = 33554568 := by decide
  have hneg : remainingSize s.heap 4112 33554432 < 0 := by
    rw [remainingSize, hpAt.getSize_hdrp, hbody]
    decide
  have hroom : s.heap.memMaxAddr < s.heap.memBrk + 33554568 := by
    rw [hs.refines.maxAddr, hs.refines.brk_eq, hs.refines.start]
    decide
  have hasize : adjustSize 33554560 = 33554568 := by decide
  have hfind : findFit s.heap 33554568 = some ({ s.heap with currentBlock := 4136 }, null) := by
    have hseek : seek 33554568 s.heap.heapListp [Block.prologue, ⟨24, true, false, rfl⟩,
        ⟨24, true, false, rfl⟩, ⟨4048, false, false, rfl⟩, Block.epilogue false]
        s.heap.currentBlock = (none, 4136) := by
      rw [hs.refines.first, hs.refines.roving]
      decide
    rw [findFit_seek hw, hseek]
    rfl
  have hmalloc : mallocRefused s.heap 33554560 := by
    rw [mallocRefused, hasize]
    exact ⟨_, hfind, sbrkRefuses_of_room (by decide) (by decide) hroom⟩
  have href : copyRefused s.heap 4112 33554432 := by
    refine ⟨by decide, hneg, ?_, ?_, ?_⟩
    · rw [hpAt.nextBlkp]
      exact hnAt.isBlockAllocated
    · rw [hprev, hqAt.isBlockAllocated]
      simp
    · rw [hbody]
      exact hmalloc
  have hnone : mmRealloc s.heap 4112 33554432 = none :=
    mmRealloc_copyRefused hw (hw.allocatedAt_iff.mp ⟨_, hb, rfl⟩) href
  refine ⟨s, hrun, ⟨_, hw⟩, hb, Or.inr href, hnone, ?_⟩
  rintro ⟨h', heq, -⟩
  rw [hnone] at heq
  cases heq

end SystemsLabs.Malloc
