import SystemsLabs.Library.ByteMemory

/-!
# The simulated heap

`memlib.c` reserves `maxHeap` bytes and hands them out by moving the break. `mm.c` keeps
block headers and footers in these bytes and reaches them through a set of macros. The
build is 32-bit: a word is four bytes and `size_t`, `unsigned int`, `int` and `long` have
32 bits. Pointers are natural numbers, and the bound test of `mem_sbrk` is taken without
pointer wrap.
-/

namespace SystemsLabs.Malloc
open Library

@[simp] def wsize : ℕ := 4
@[simp] def dsize : ℕ := 8
@[simp] def alignment : ℕ := 8
@[simp] def chunksize : ℕ := 4096
@[simp] def padding : ℕ := 128
@[simp] def maxHeap : ℕ := 20 * 2 ^ 20
@[simp] def null : ℕ := 0

/-- `size_t` and `unsigned int` arithmetic. -/
abbrev toUnsigned : ℤ → ℕ := wrapUnsigned 32

/-- Conversion to `int`. -/
abbrev toInt : ℤ → ℤ := wrapSigned 32

/-- Rounds up to the nearest multiple of `alignment`. -/
def align (size : ℕ) : ℕ := toUnsigned (size + (alignment - 1)) &&& 0xFFFFFFF8

def pack (size alloc : ℕ) : ℕ := size ||| alloc

section Macros

variable (m : Memory) (p bp : ℕ)

def getSize : ℕ := loadWord m p &&& 0xFFFFFFF8

def getAlloc : ℕ := loadWord m p &&& 0x1

def getTag : ℕ := loadWord m p &&& 0x2

def hdrp : ℕ := bp - wsize

def ftrp : ℕ := bp + getSize m (hdrp bp) - dsize

def nextBlkp : ℕ := bp + getSize m (bp - wsize)

def prevBlkp : ℕ := bp - getSize m (bp - dsize)

def isBlockAllocated : Bool := getAlloc m (hdrp bp) ≠ 0 && getSize m (hdrp bp) ≠ 0

def put (val : ℕ) : Memory := storeWord m p val

def putWithTag (val : ℕ) : Memory := storeWord m p (val ||| getTag m p)

def putTag : Memory := storeWord m p (loadWord m p ||| 0x2)

def deleteTag : Memory := storeWord m p (loadWord m p &&& 0xFFFFFFFD)

end Macros

/-- The variables of `memlib.c` and `mm.c`. The two counters are those of the `DEBUG`
build; nothing else reads them. -/
structure Heap where
  mem : Memory
  memStartBrk : ℕ
  memBrk : ℕ
  memMaxAddr : ℕ
  heapListp : ℕ
  currentBlock : ℕ
  numExpectedFreeBlocks : ℤ
  numExpectedBlocks : ℤ

/-- The state after `mem_init` found room for the heap at `start`. -/
def memInit (mem : Memory) (start : ℕ) : Heap where
  mem := mem
  memStartBrk := start
  memBrk := start
  memMaxAddr := start + maxHeap
  heapListp := 0
  currentBlock := 0
  numExpectedFreeBlocks := 0
  numExpectedBlocks := 0

/-- Moves the break; `none` stands for the failure value `(void *)-1`. -/
def memSbrk (h : Heap) (incr : ℤ) : Option (Heap × ℕ) :=
  if incr < 0 ∨ (h.memBrk : ℤ) + incr > h.memMaxAddr then none
  else some ({ h with memBrk := h.memBrk + incr.toNat }, h.memBrk)

def memHeapLo (h : Heap) : ℕ := h.memStartBrk

def memHeapHi (h : Heap) : ℕ := h.memBrk - 1

/-- The `DEBUG` build's adjustment of both expected counts. -/
def countBlocks (h : Heap) (blocks free : ℤ) : Heap :=
  { h with
    numExpectedBlocks := h.numExpectedBlocks + blocks
    numExpectedFreeBlocks := h.numExpectedFreeBlocks + free }

end SystemsLabs.Malloc
