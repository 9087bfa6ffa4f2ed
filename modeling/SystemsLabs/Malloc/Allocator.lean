import SystemsLabs.Malloc.Heap

/-!
# The allocator

The functions of `mm.c`. A walk over the implicit block list is given one step per byte of
the heap, which is more than a list that stays inside the heap needs; a result `none` means
that the walk left the heap or that the code wrote through a null pointer.
-/

namespace SystemsLabs.Malloc
open Library

/-- Initializes the first part of the heap; the second component is the result code. -/
def mmInit (h : Heap) : Heap × ℤ :=
  let h := { h with numExpectedFreeBlocks := 0, numExpectedBlocks := 0 }
  match memSbrk h (4 * wsize) with
  | none => ({ h with heapListp := toUnsigned (-1) }, -1)
  | some (h, listp) =>
    let m := put h.mem listp 0
    let m := put m (listp + 1 * wsize) (pack dsize 1)
    let m := put m (listp + 2 * wsize) (pack dsize 1)
    let m := put m (listp + 3 * wsize) (pack 0 1)
    ({ h with mem := m, heapListp := listp + 2 * wsize, currentBlock := listp + 2 * wsize }, 0)

/-- The last statement of `coalesce`: a roving pointer inside the joined block moves to its
start. -/
def repairCurrent (h : Heap) (bp : ℕ) : Heap :=
  if h.currentBlock > bp ∧ h.currentBlock < nextBlkp h.mem bp then { h with currentBlock := bp }
  else h

/-- Joins a free block with its free neighbours and returns the start of the joined block. -/
def coalesce (h : Heap) (bp : ℕ) : Heap × ℕ :=
  let m := h.mem
  let prevAlloc := getAlloc m (ftrp m (prevBlkp m bp)) ≠ 0 ∨ getTag m (hdrp (prevBlkp m bp)) ≠ 0
  let nextAlloc := getAlloc m (hdrp (nextBlkp m bp)) ≠ 0
  let size := getSize m (hdrp bp)
  if prevAlloc ∧ nextAlloc then (h, bp)
  else if prevAlloc ∧ ¬nextAlloc then
    let size := toUnsigned (size + getSize m (hdrp (nextBlkp m bp)))
    let m := putWithTag m (hdrp bp) (pack size 0)
    let m := putWithTag m (ftrp m bp) (pack size 0)
    (repairCurrent (countBlocks { h with mem := m } (-1) (-1)) bp, bp)
  else if ¬prevAlloc ∧ nextAlloc then
    let size := toUnsigned (size + getSize m (hdrp (prevBlkp m bp)))
    let m := putWithTag m (ftrp m bp) (pack size 0)
    let m := putWithTag m (hdrp (prevBlkp m bp)) (pack size 0)
    let bp := prevBlkp m bp
    (repairCurrent (countBlocks { h with mem := m } (-1) (-1)) bp, bp)
  else
    let size := toUnsigned (size + (toUnsigned (getSize m (hdrp (prevBlkp m bp)) +
      getSize m (ftrp m (nextBlkp m bp)))))
    let m := putWithTag m (hdrp (prevBlkp m bp)) (pack size 0)
    let m := putWithTag m (ftrp m (nextBlkp m bp)) (pack size 0)
    let bp := prevBlkp m bp
    (repairCurrent (countBlocks { h with mem := m } (-2) (-2)) bp, bp)

/-- Extends the heap by a free block; a result pointer `null` means that there is no room. -/
def extendHeap (h : Heap) (words : ℕ) : Heap × ℕ :=
  let size := align words
  match memSbrk h (toInt size) with
  | none => (h, null)
  | some (h, bp) =>
    let h := countBlocks h 1 0
    let m := put h.mem (hdrp bp) (pack size 0)
    let m := put m (ftrp m bp) (pack size 0)
    let m := put m (hdrp (nextBlkp m bp)) (pack 0 1)
    coalesce { h with mem := m } bp

def walkBound (h : Heap) : ℕ := h.memBrk - h.memStartBrk

def isFit (m : Memory) (asize bp : ℕ) : Prop :=
  asize ≤ getSize m (hdrp bp) ∧ getAlloc m (hdrp bp) = 0 ∧ getTag m (hdrp bp) = 0

instance (m : Memory) (asize bp : ℕ) : Decidable (isFit m asize bp) :=
  inferInstanceAs (Decidable (_ ∧ _ ∧ _))

/-- The first loop of `find_fit`: the block it stops at, and whether that block fits. -/
def nextFit (m : Memory) (asize : ℕ) : ℕ → ℕ → Option (ℕ × Bool)
  | 0, _ => none
  | fuel + 1, bp =>
    if getSize m (hdrp bp) > 0 then
      if isFit m asize bp then some (bp, true) else nextFit m asize fuel (nextBlkp m bp)
    else some (bp, false)

/-- The second loop of `find_fit`: the block it stops at and the best block so far. -/
def bestFit (m : Memory) (asize backup : ℕ) : ℕ → ℕ → ℕ → ℤ → Option (ℕ × ℕ)
  | 0, _, _, _ => none
  | fuel + 1, bp, best, sizeBest =>
    if bp < backup then
      let sizeCurrent := toInt (getSize m (hdrp bp))
      if isFit m asize bp ∧ (best = null ∨ sizeCurrent < sizeBest) then
        bestFit m asize backup fuel (nextBlkp m bp) bp sizeCurrent
      else bestFit m asize backup fuel (nextBlkp m bp) best sizeBest
    else some (bp, best)

def findFit (h : Heap) (asize : ℕ) : Option (Heap × ℕ) :=
  let backup := h.currentBlock
  match nextFit h.mem asize (walkBound h) h.currentBlock with
  | none => none
  | some (bp, true) => some ({ h with currentBlock := bp }, bp)
  | some (_, false) =>
    match bestFit h.mem asize backup (walkBound h) h.heapListp null 0 with
    | none => none
    | some (bp, best) => some ({ h with currentBlock := bp }, best)

def place (h : Heap) (bp asize : ℕ) : Heap :=
  let ptrSize := getSize h.mem (hdrp bp)
  let remainder := toUnsigned (ptrSize - asize)
  if remainder ≥ 2 * dsize then
    let m := putWithTag h.mem (hdrp bp) (pack asize 1)
    let m := putWithTag m (ftrp m bp) (pack asize 1)
    let m := put m (hdrp (nextBlkp m bp)) (pack remainder 0)
    let m := put m (ftrp m (nextBlkp m bp)) (pack remainder 0)
    countBlocks { h with mem := m } 1 1
  else
    let m := putWithTag h.mem (hdrp bp) (pack ptrSize 1)
    let m := putWithTag m (ftrp m bp) (pack ptrSize 1)
    { h with mem := m }

def adjustSize (size : ℕ) : ℕ :=
  if size ≤ dsize then 2 * dsize
  else toUnsigned (dsize * (toUnsigned (size + dsize + (dsize - 1)) / dsize))

def mmMalloc (h : Heap) (size : ℕ) : Option (Heap × ℕ) :=
  let h := if h.heapListp = 0 then (mmInit h).1 else h
  if size = 0 then some (h, null)
  else
    let asize := adjustSize size
    match findFit h asize with
    | none => none
    | some (h, bp) =>
      if bp ≠ null then some (countBlocks (place h bp asize) 0 (-1), bp)
      else
        let extendsize := max asize chunksize
        let (h, bp) := extendHeap h extendsize
        if bp = null then some (h, null) else some (place h bp asize, bp)

def mmFree (h : Heap) (ptr : ℕ) : Heap :=
  if ptr = 0 then h
  else
    let h := if isBlockAllocated h.mem ptr then countBlocks h 0 1 else h
    let size := getSize h.mem (hdrp ptr)
    let h := if h.heapListp = 0 then (mmInit h).1 else h
    let m := deleteTag h.mem (hdrp (nextBlkp h.mem ptr))
    let m := putWithTag m (hdrp ptr) (pack size 0)
    let m := putWithTag m (ftrp m ptr) (pack size 0)
    (coalesce { h with mem := m } ptr).1

/-- The loop of `extend_heap_recycle`: the bytes of the free blocks from `cur` on, until they
exceed `size`. -/
def recycleLoop (size : ℕ) : ℕ → Heap → ℕ → ℤ → Option (Heap × ℤ)
  | 0, _, _, _ => none
  | fuel + 1, h, cur, result =>
    if ¬isBlockAllocated h.mem cur ∧ getSize h.mem (hdrp cur) > 0 then
      let result := result + toInt (getSize h.mem (hdrp cur))
      let h := countBlocks h (-1) (-1)
      if toUnsigned result > size then some (h, result)
      else recycleLoop size fuel h (nextBlkp h.mem cur) result
    else some (h, result)

def extendHeapRecycle (h : Heap) (ptr size : ℕ) : Option (Heap × ℤ) :=
  recycleLoop (align size) (walkBound h) h (nextBlkp h.mem ptr) 0

/-- The branch of `mm_realloc` that grows the block over what follows it. The result is
`false` when the heap cannot be extended. -/
def reallocNext (h : Heap) (ptr bodySize : ℕ) (remainingSize : ℤ) : Option (Heap × Bool) :=
  let freeBack := h.numExpectedFreeBlocks
  let mallocBack := h.numExpectedBlocks
  match extendHeapRecycle h ptr (toUnsigned (-remainingSize)) with
  | none => none
  | some (h, recycled) =>
    let expandableSize := remainingSize + recycled
    let grow (h : Heap) (expandableSize : ℤ) : Heap :=
      let m := put h.mem (hdrp ptr) (pack (toUnsigned (bodySize + expandableSize)) 1)
      { h with mem := put m (ftrp m ptr) (pack (toUnsigned (bodySize + expandableSize)) 1) }
    if expandableSize < 0 then
      let h := { h with numExpectedBlocks := mallocBack, numExpectedFreeBlocks := freeBack }
      let extendsize := toInt (max (toUnsigned (-expandableSize)) chunksize)
      let (h, bp) := extendHeap h (toUnsigned extendsize)
      if bp = null then some (h, false)
      else some (grow (countBlocks h (-1) 0) (expandableSize + extendsize), true)
    else some (grow h expandableSize, true)

def reallocPrev (h : Heap) (ptr size bodySize : ℕ) (expandableSize : ℤ) : Heap :=
  let newPtr := prevBlkp h.mem ptr
  let h := countBlocks h (-1) (-1)
  let m := put h.mem (hdrp newPtr) (pack (toUnsigned (bodySize + expandableSize)) 1)
  let m := put m (ftrp m newPtr) (pack (toUnsigned (bodySize + expandableSize)) 1)
  { h with mem := moveBytes m newPtr ptr (min size bodySize) }

/-- The branch of `mm_realloc` that allocates a new block. The move through the null pointer
of a failed `mm_malloc` faults. -/
def reallocCopy (h : Heap) (ptr size bodySize : ℕ) : Option (Heap × ℕ) :=
  match mmMalloc h (toUnsigned (bodySize - dsize)) with
  | none => none
  | some (h, newPtr) =>
    if newPtr = null then none
    else
      let h := { h with mem := moveBytes h.mem newPtr ptr (min size bodySize) }
      some (mmFree h ptr, newPtr)

def reallocReserve (h : Heap) (newPtr : ℕ) (remainingSize : ℤ) : Heap :=
  if toUnsigned remainingSize < 2 * padding then
    { h with mem := putTag h.mem (hdrp (nextBlkp h.mem newPtr)) }
  else h

def mmRealloc (h : Heap) (ptr size : ℕ) : Option (Heap × ℕ) :=
  if size = 0 then some (h, null)
  else
    let bodySize := toUnsigned (adjustSize size + padding)
    let remainingSize := toInt (getSize h.mem (hdrp ptr) - bodySize)
    let finish (h : Heap) (newPtr : ℕ) : Heap × ℕ :=
      (reallocReserve h newPtr (toInt (getSize h.mem (hdrp newPtr) - bodySize)), newPtr)
    if remainingSize < 0 then
      let isNextBlockAllocated := isBlockAllocated h.mem (nextBlkp h.mem ptr)
      let isPrevBlockAllocated := isBlockAllocated h.mem (prevBlkp h.mem ptr)
      let expandableSize := remainingSize + toInt (getSize h.mem (hdrp (prevBlkp h.mem ptr)))
      if ¬isNextBlockAllocated then
        match reallocNext h ptr bodySize remainingSize with
        | none => none
        | some (h, false) => some (h, null)
        | some (h, true) => some (finish h ptr)
      else if ¬isPrevBlockAllocated ∧ expandableSize ≥ 0 then
        some (finish (reallocPrev h ptr size bodySize expandableSize) (prevBlkp h.mem ptr))
      else
        match reallocCopy h ptr size bodySize with
        | none => none
        | some (h, newPtr) => some (finish h newPtr)
    else some (reallocReserve h ptr remainingSize, ptr)

end SystemsLabs.Malloc
