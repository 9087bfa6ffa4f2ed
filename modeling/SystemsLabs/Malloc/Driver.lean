import SystemsLabs.Malloc.Allocator

/-!
# The driver

`mdriver.c` replays a trace of requests on an allocator package. The first replay checks every
block against the list of payload ranges and against the bytes the driver wrote, the second one
measures how much of the heap the payloads use and the third one only makes the calls. The driver
is linked with whatever package defines the four functions; here they are a parameter.
-/

namespace SystemsLabs.Malloc
open Library

/-! ### Traces -/

/-- One request. The driver names a block by its index in the trace. -/
inductive TraceOp
  | alloc (index size : ℕ)
  | realloc (index size : ℕ)
  | free (index : ℕ)
deriving DecidableEq

/-- The indices with a live block, the latest first. -/
def TraceOp.live (is : List ℕ) : TraceOp → List ℕ
  | .alloc i _ => i :: is.filter (· ≠ i)
  | .realloc i _ => i :: is.filter (· ≠ i)
  | .free i => is.filter (· ≠ i)

/-- The request allocates a new index, or it frees or reallocates a live one. -/
def TraceOp.Fits (is : List ℕ) : TraceOp → Prop
  | .alloc i _ => i ∉ is
  | .realloc i _ => i ∈ is
  | .free i => i ∈ is

instance (is : List ℕ) (op : TraceOp) : Decidable (op.Fits is) := by
  cases op <;> unfold TraceOp.Fits <;> infer_instance

/-- Every request of the trace fits the indices that are live by then. -/
def Balanced : List ℕ → List TraceOp → Prop
  | _, [] => True
  | is, op :: ops => op.Fits is ∧ Balanced (op.live is) ops

instance decidableBalanced : (is : List ℕ) → (ops : List TraceOp) → Decidable (Balanced is ops)
  | _, [] => isTrue trivial
  | is, op :: ops =>
    have := decidableBalanced (op.live is) ops
    inferInstanceAs (Decidable (op.Fits is ∧ Balanced (op.live is) ops))

/-! ### What stops a replay -/

/-- What `malloc_error` reports. -/
inductive MallocError
  | mmInitFailed
  | mmMallocFailed
  | mmReallocFailed
  | notAligned (lo : ℕ)
  | outsideHeap (lo hi heapLo heapHi : ℕ)
  | overlaps (lo hi otherLo otherHi : ℕ)
  | dataNotPreserved
deriving DecidableEq

/-- A replay ends early with a report, by `app_error`, in an assertion or because the package
faults. -/
inductive Halt
  | reported (e : MallocError)
  | appError
  | assertion
  | fault
deriving DecidableEq

/-- Interprets the requests in order; an early end comes with the number of its request. -/
def interpret {σ : Type} (step : σ → TraceOp → Except Halt σ) :
    ℕ → σ → List TraceOp → Except (ℕ × Halt) σ
  | _, s, [] => .ok s
  | i, s, op :: ops =>
    match step s op with
    | .error e => .error (i, e)
    | .ok t => interpret step (i + 1) t ops

/-! ### The range list -/

/-- The extent of a payload, with both ends. -/
structure Range where
  lo : ℕ
  hi : ℕ
deriving DecidableEq

/-- The test for an overlap: one end of the new payload lies in the old one. -/
def Range.caughtBy (p : Range) (lo hi : ℕ) : Prop :=
  p.lo ≤ lo ∧ lo ≤ p.hi ∨ p.lo ≤ hi ∧ hi ≤ p.hi

instance (p : Range) (lo hi : ℕ) : Decidable (p.caughtBy lo hi) :=
  inferInstanceAs (Decidable (_ ∨ _))

def addRange (h : Heap) (ranges : List Range) (lo size : ℕ) : Except Halt (List Range) :=
  let hi := lo + size - 1
  if size = 0 then .error .assertion
  else if lo % alignment ≠ 0 then .error (.reported (.notAligned lo))
  else if lo < memHeapLo h ∨ lo > memHeapHi h ∨ hi < memHeapLo h ∨ hi > memHeapHi h then
    .error (.reported (.outsideHeap lo hi (memHeapLo h) (memHeapHi h)))
  else
    match ranges.find? (fun p => p.caughtBy lo hi) with
    | some p => .error (.reported (.overlaps lo hi p.lo p.hi))
    | none => .ok (⟨lo, hi⟩ :: ranges)

def removeRange (ranges : List Range) (lo : ℕ) : List Range := ranges.eraseP (fun p => p.lo = lo)

/-! ### The replays -/

/-- The functions of an allocator package; `none` stands for a fault. -/
structure Package where
  init : Heap → Heap × ℤ
  malloc : Heap → ℕ → Option (Heap × ℕ)
  realloc : Heap → ℕ → ℕ → Option (Heap × ℕ)
  free : Heap → ℕ → Heap

def mm : Package := ⟨mmInit, mmMalloc, mmRealloc, mmFree⟩

def memResetBrk (h : Heap) : Heap := { h with memBrk := h.memStartBrk }

def memHeapsize (h : Heap) : ℕ := h.memBrk - h.memStartBrk

/-- The arrays of a trace: the block of every index and its payload size. -/
structure Table where
  blocks : ℕ → ℕ
  blockSizes : ℕ → ℕ

def Table.remember (t : Table) (i p n : ℕ) : Table :=
  ⟨Function.update t.blocks i p, Function.update t.blockSizes i n⟩

/-- The bytes of an old block, read as `char`, are all the low byte of the index. -/
def dataPreserved (m : Memory) (newp index n : ℕ) : Prop :=
  ∀ j < n, (m (newp + j)).toInt = (index &&& 0xFF : ℕ)

instance (m : Memory) (newp index n : ℕ) : Decidable (dataPreserved m newp index n) :=
  inferInstanceAs (Decidable (∀ j < n, _))

structure ValidState where
  heap : Heap
  ranges : List Range
  table : Table

structure UtilState where
  heap : Heap
  table : Table
  totalSize : ℤ
  maxTotalSize : ℤ

structure SpeedState where
  heap : Heap
  blocks : ℕ → ℕ

namespace Package

variable (A : Package)

def validOp (s : ValidState) : TraceOp → Except Halt ValidState
  | .alloc index size =>
    match A.malloc s.heap size with
    | none => .error .fault
    | some (h, p) =>
      if p = null then .error (.reported .mmMallocFailed)
      else
        match addRange h s.ranges p size with
        | .error e => .error e
        | .ok ranges => .ok
          { heap := { h with mem := memset h.mem p (index &&& 0xFF) size }
            ranges := ranges
            table := s.table.remember index p size }
  | .realloc index size =>
    let oldp := s.table.blocks index
    match A.realloc s.heap oldp size with
    | none => .error .fault
    | some (h, newp) =>
      if newp = null then .error (.reported .mmReallocFailed)
      else
        match addRange h (removeRange s.ranges oldp) newp size with
        | .error e => .error e
        | .ok ranges =>
          let oldsize := min size (s.table.blockSizes index)
          if dataPreserved h.mem newp index oldsize then .ok
            { heap := { h with mem := memset h.mem newp (index &&& 0xFF) size }
              ranges := ranges
              table := s.table.remember index newp size }
          else .error (.reported .dataNotPreserved)
  | .free index =>
    let p := s.table.blocks index
    .ok { s with heap := A.free s.heap p, ranges := removeRange s.ranges p }

def utilOp (s : UtilState) : TraceOp → Except Halt UtilState
  | .alloc index size =>
    match A.malloc s.heap size with
    | none => .error .fault
    | some (h, p) =>
      if p = null then .error .appError
      else
        let total := s.totalSize + size
        .ok ⟨h, s.table.remember index p size, total, max s.maxTotalSize total⟩
  | .realloc index newsize =>
    match A.realloc s.heap (s.table.blocks index) newsize with
    | none => .error .fault
    | some (h, newp) =>
      if newp = null then .error .appError
      else
        let total := s.totalSize + (newsize - s.table.blockSizes index)
        .ok ⟨h, s.table.remember index newp newsize, total, max s.maxTotalSize total⟩
  | .free index => .ok
    { s with
      heap := A.free s.heap (s.table.blocks index)
      totalSize := s.totalSize - s.table.blockSizes index }

def speedOp (s : SpeedState) : TraceOp → Except Halt SpeedState
  | .alloc index size =>
    match A.malloc s.heap size with
    | none => .error .fault
    | some (h, p) =>
      if p = null then .error .appError else .ok ⟨h, Function.update s.blocks index p⟩
  | .realloc index newsize =>
    match A.realloc s.heap (s.blocks index) newsize with
    | none => .error .fault
    | some (h, newp) =>
      if newp = null then .error .appError else .ok ⟨h, Function.update s.blocks index newp⟩
  | .free index => .ok { s with heap := A.free s.heap (s.blocks index) }

/-- Checks the package for correctness, on a heap that an earlier replay may have left. -/
def evalMmValid (h : Heap) (t : Table) (ops : List TraceOp) : Except (ℕ × Halt) ValidState :=
  let r := A.init (memResetBrk h)
  if r.2 < 0 then .error (0, .reported .mmInitFailed) else interpret A.validOp 0 ⟨r.1, [], t⟩ ops

/-- Evaluates the space utilization, which is `maxTotalSize` against the heap size. -/
def evalMmUtil (h : Heap) (t : Table) (ops : List TraceOp) : Except (ℕ × Halt) UtilState :=
  let r := A.init (memResetBrk h)
  if r.2 < 0 then .error (0, .appError) else interpret A.utilOp 0 ⟨r.1, t, 0, 0⟩ ops

def evalMmSpeed (h : Heap) (blocks : ℕ → ℕ) (ops : List TraceOp) : Except (ℕ × Halt) SpeedState :=
  let r := A.init (memResetBrk h)
  if r.2 < 0 then .error (0, .appError) else interpret A.speedOp 0 ⟨r.1, blocks⟩ ops

end Package

end SystemsLabs.Malloc
