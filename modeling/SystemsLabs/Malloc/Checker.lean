import SystemsLabs.Malloc.Requests

/-!
# The consistency checker

`mm_check` walks over the block list and compares what it finds with the counters of the `DEBUG`
build. Its walks for adjacent free blocks start at the roving pointer and at the first block, and
the pair in front of the roving pointer belongs to neither of them. Its tests for overlapping and
for unaligned blocks compare a block with itself.
-/

namespace SystemsLabs.Malloc
open Library

/-! ### The loops -/

/-- A loop over the block list from `cursor` on. -/
def scan {σ : Type} (m : Memory) (cont : ℕ → Bool) (visit : σ → ℕ → σ) : ℕ → ℕ → σ → Option σ
  | 0, _, _ => none
  | fuel + 1, cursor, s =>
    if cont cursor then scan m cont visit fuel (nextBlkp m cursor) (visit s cursor) else some s

/-- The body of the counting loops. -/
def countIf (test : ℕ → Bool) (n : ℤ) (cursor : ℕ) : ℤ := if test cursor then n + 1 else n

/-- The numbers of free and of allocated blocks. Both start at -1. -/
def scanBlocks (h : Heap) : Option (ℤ × ℤ) :=
  scan h.mem (fun cursor => cursor < memHeapHi h)
    (fun s cursor => if getAlloc h.mem (hdrp cursor) ≠ 0 then (s.1, s.2 + 1) else (s.1 + 1, s.2))
    (walkBound h) h.heapListp (-1, -1)

def isContiguous (m : Memory) (cursor : ℕ) : Bool :=
  !isBlockAllocated m cursor && !isBlockAllocated m (nextBlkp m cursor)

def isOverlapping (m : Memory) (cursor : ℕ) : Bool :=
  isBlockAllocated m (nextBlkp m cursor) &&
    decide (cursor + getSize m (hdrp cursor) > nextBlkp m cursor)

def isUnaligned (m : Memory) (cursor : ℕ) : Bool :=
  isBlockAllocated m (nextBlkp m cursor) &&
    decide ((nextBlkp m cursor - cursor) % alignment ≠ 0)

/-- The two loops for blocks that escaped coalescing. -/
def scanPairs (h : Heap) : Option ℤ :=
  (scan h.mem (fun cursor => getSize h.mem (hdrp (nextBlkp h.mem cursor)) > 0)
    (countIf (isContiguous h.mem)) (walkBound h) h.currentBlock 0).bind fun n =>
  scan h.mem (fun cursor => nextBlkp h.mem cursor < h.currentBlock)
    (countIf (isContiguous h.mem)) (walkBound h) (nextBlkp h.mem h.heapListp) n

/-- The two loops for overlapping blocks, and those for unaligned ones. -/
def scanEach (h : Heap) (test : ℕ → Bool) : Option ℤ :=
  (scan h.mem (fun cursor => getSize h.mem (hdrp cursor) > 0) (countIf test) (walkBound h)
    h.currentBlock 0).bind fun n =>
  scan h.mem (fun cursor => cursor < h.currentBlock) (countIf test) (walkBound h)
    (nextBlkp h.mem h.heapListp) n

/-! ### `mm_check` -/

/-- The errors that `mm_check` prints, with their numbers. -/
inductive Complaint
  | notMatched (expected actual : ℤ)
  | contiguous (count : ℤ)
  | overlapping (count : ℤ)
  | unaligned (count : ℤ)
deriving DecidableEq

structure Report where
  numFreeBlocks : ℤ
  numAllocBlocks : ℤ
  numCoalesceErrs : ℤ
  numOverlapBlocks : ℤ
  numUnalignedBlocks : ℤ
deriving DecidableEq

/-- What the report complains about. The number of unaligned blocks is incremented before it is
printed. -/
def Report.complaints (h : Heap) (r : Report) : List Complaint :=
  let expected := h.numExpectedBlocks - h.numExpectedFreeBlocks
  (if expected ≠ r.numAllocBlocks then [.notMatched expected r.numAllocBlocks] else []) ++
    (if r.numCoalesceErrs ≠ 0 then [.contiguous r.numCoalesceErrs] else []) ++
    (if r.numOverlapBlocks ≠ 0 then [.overlapping r.numOverlapBlocks] else []) ++
    (if r.numUnalignedBlocks ≠ 0 then [.unaligned (r.numUnalignedBlocks + 1)] else [])

def mmCheck (h : Heap) : Option Report := do
  let (numFreeBlocks, numAllocBlocks) ← scanBlocks h
  let numCoalesceErrs ← scanPairs h
  let numOverlapBlocks ← scanEach h (isOverlapping h.mem)
  let numUnalignedBlocks ← scanEach h (isUnaligned h.mem)
  some ⟨numFreeBlocks, numAllocBlocks, numCoalesceErrs, numOverlapBlocks, numUnalignedBlocks⟩

/-! ### Counting in block lists -/

/-- The number of adjacent blocks that are both free. -/
def freePairs : List Block → ℕ
  | [] => 0
  | [_] => 0
  | b :: c :: l => (if b.alloc = false ∧ c.alloc = false then 1 else 0) + freePairs (c :: l)

def freeCount (bs : List Block) : ℕ := bs.countP (fun b => !b.alloc)

section Counting

variable {b c e : Block} {l r : List Block}

lemma freePairs_cons_alloc (hb : b.alloc = true) : freePairs (b :: l) = freePairs l := by
  cases l with
  | nil => rfl
  | cons c l => simp [freePairs, hb]

lemma freePairs_append : freePairs (l ++ b :: c :: r) =
    freePairs (l ++ [b]) + (if b.alloc = false ∧ c.alloc = false then 1 else 0) +
      freePairs (c :: r) := by
  induction l with
  | nil => simp [freePairs]
  | cons d l ih =>
    cases l with
    | nil =>
      simp only [List.nil_append, List.cons_append, freePairs] at ih ⊢
      omega
    | cons f l =>
      simp only [List.cons_append, freePairs] at ih ⊢
      omega

lemma freePairs_concat_alloc (he : e.alloc = true) : freePairs (l ++ [e]) = freePairs l := by
  rcases List.eq_nil_or_concat l with rfl | ⟨l, d, rfl⟩
  · rfl
  · rw [List.concat_eq_append, List.append_assoc, List.singleton_append, freePairs_append, if_neg]
    · rfl
    · simp [he]

@[simp] lemma freeCount_nil : freeCount [] = 0 := rfl

@[simp] lemma freeCount_cons :
    freeCount (b :: l) = freeCount l + (if b.alloc = false then 1 else 0) := by
  unfold freeCount
  rw [List.countP_cons]
  cases b.alloc <;> rfl

@[simp] lemma freeCount_append : freeCount (l ++ r) = freeCount l + freeCount r :=
  List.countP_append

end Counting

/-! ### What the loops compute -/

section Scan

variable {σ : Type} {m : Memory} {cont : ℕ → Bool} {visit : σ → ℕ → σ} {a fuel : ℕ} {b : Block}
  {l r : List Block}

lemma scan_eq {s : σ} (himg : Image m a l) (hcont : ∀ q ∈ placed Block.size a l, cont q.1 = true)
    (hstop : cont (a + extent Block.size l) = false) (hfuel : l.length < fuel) :
    scan m cont visit fuel a s =
      some ((placed Block.size a l).foldl (fun s q => visit s q.1) s) := by
  induction l generalizing a fuel s with
  | nil =>
    cases fuel with
    | zero => simp at hfuel
    | succ fuel =>
      have hstop : cont a = false := by simpa using hstop
      simp [scan, hstop]
  | cons b l ih =>
    cases fuel with
    | zero => simp at hfuel
    | succ fuel =>
      have hb := image_cons.mp himg
      have hhead : cont a = true := hcont (a, b) (by simp)
      rw [scan, if_pos hhead, hb.1.nextBlkp, ih hb.2 (fun q hq => hcont q (by simp [hq]))
        (by rwa [extent_cons, ← Nat.add_assoc] at hstop) (by simpa using hfuel)]
      rfl

lemma foldl_countIf (test : ℕ → Bool) (l : List (ℕ × Block)) (n : ℤ) :
    l.foldl (fun n q => countIf test n q.1) n = n + (l.countP (fun q => test q.1) : ℕ) := by
  induction l generalizing n with
  | nil => simp
  | cons q l ih =>
    rw [List.foldl_cons, ih, List.countP_cons, countIf]
    split_ifs
    · push_cast
      ring
    · simp

/-- The pairs that the test of the coalescing loops finds. -/
lemma countP_isContiguous (himg : Image m a (l ++ [b])) (hsize : ∀ c ∈ l ++ [b], c.size ≠ 0) :
    (placed Block.size a l).countP (fun q => isContiguous m q.1) = freePairs (l ++ [b]) := by
  induction l generalizing a with
  | nil => rfl
  | cons c l ih =>
    rw [List.cons_append] at himg
    obtain ⟨hc, hrest⟩ := image_cons.mp himg
    have hcsize := hsize c (by simp)
    obtain ⟨d, r, hd⟩ : ∃ d r, l ++ [b] = d :: r := List.exists_cons_of_ne_nil (by simp)
    have hdsize := hsize d (by simp [hd])
    have hdAt : BlockAt m (a + c.size) d := by
      rw [hd] at hrest
      exact (image_cons.mp hrest).1
    rw [placed_cons, List.countP_cons, ih hrest fun e he => hsize e (List.mem_cons_of_mem c he),
      List.cons_append, hd, freePairs, Nat.add_comm]
    congr 1
    simp only [isContiguous, hc.isBlockAllocated, hc.nextBlkp, hdAt.isBlockAllocated]
    simp [hcsize, hdsize]

end Scan

/-! ### Tiled heaps -/

section Tiled

variable {h : Heap} {bs l r : List Block} {b : Block} {x : ℕ} {n : ℤ}

/-- The walk bound allows a loop over any part of the block list but the epilogue. -/
lemma Tiled.length_lt (ht : Tiled h (l ++ r)) (hr : r ≠ []) : l.length < walkBound h := by
  have hlistp := ht.listp
  have hbrk := ht.brk
  have hlen := length_le_extent Block.size fun b hb => by
    have := ht.framed.size_of_left hr hb
    omega
  rw [extent_append] at hbrk
  unfold walkBound
  omega

lemma Tiled.split_epilogue (ht : Tiled h (l ++ b :: r)) :
    ∃ z t, b :: r = z ++ [Block.epilogue t] := by
  obtain ⟨z, e, hz⟩ : ∃ z e, b :: r = z ++ [e] :=
    ⟨_, _, (List.dropLast_append_getLast (List.cons_ne_nil b r)).symm⟩
  obtain ⟨os, t, heq, -⟩ := ht.framed
  rw [hz, ← List.append_assoc, ← List.cons_append] at heq
  obtain ⟨-, he⟩ := List.append_inj' heq rfl
  rw [he] at hz
  exact ⟨z, t, hz⟩

/-- The first loop for pairs counts those from the roving pointer on. -/
lemma Tiled.scan_behind (ht : Tiled h (l ++ b :: r)) (hx : x = h.heapListp + extent Block.size l) :
    scan h.mem (fun cursor => getSize h.mem (hdrp (nextBlkp h.mem cursor)) > 0)
      (countIf (isContiguous h.mem)) (walkBound h) x n = some (n + freePairs (b :: r)) := by
  have himg := (image_append.mp ht.image).2
  rw [← hx] at himg
  have hlen := ht.length_lt (List.cons_ne_nil b r)
  obtain ⟨z, t, hz⟩ := ht.split_epilogue
  rw [hz, freePairs_concat_alloc rfl]
  rw [hz] at himg
  rcases List.eq_nil_or_concat z with rfl | ⟨z, d, rfl⟩
  · -- the roving pointer is at the epilogue
    have heAt : BlockAt h.mem x (Block.epilogue t) := (image_cons.mp himg).1
    rw [scan_eq (Image.nil h.mem x) (by simp) ?_ (by simp only [List.length_nil]; omega)]
    · simp [freePairs]
    · simp [heAt.nextBlkp, heAt.getSize_hdrp]
  · rw [List.concat_eq_append] at hz himg ⊢
    obtain ⟨himg, heImg⟩ := image_append.mp himg
    have heAt := (image_cons.mp heImg).1
    have ht' : Tiled h ((l ++ (z ++ [d])) ++ [Block.epilogue t]) := by
      rw [List.append_assoc, ← hz]
      exact ht
    have hsize : ∀ c ∈ z ++ [d], c.size ≠ 0 := fun c hc => by
      have := ht'.framed.size_of_left (by simp) (List.mem_append_right l hc)
      omega
    have hfuel := ht'.length_lt (by simp)
    have hdAt : BlockAt h.mem (x + extent Block.size z) d :=
      (image_cons.mp (image_append.mp himg).2).1
    rw [scan_eq (image_append.mp himg).1, foldl_countIf, countP_isContiguous himg hsize]
    · rintro ⟨y, c⟩ hc
      -- the block behind `c` is not the epilogue
      obtain ⟨z₁, z₂, rfl, rfl⟩ := mem_placed_iff.mp hc
      obtain ⟨e, r', he⟩ : ∃ e r', z₂ ++ [d] = e :: r' := List.exists_cons_of_ne_nil (by simp)
      rw [List.append_assoc, List.cons_append, he] at himg hsize
      obtain ⟨hcAt, hrest⟩ := image_cons.mp (image_append.mp himg).2
      have heAt := (image_cons.mp hrest).1
      have hesize := hsize e (by simp)
      simp only [hcAt.nextBlkp, heAt.getSize_hdrp, decide_eq_true_eq]
      omega
    · simp only [extent_append, extent_cons, extent_nil, Nat.add_zero, ← Nat.add_assoc] at heAt
      simp [hdAt.nextBlkp, heAt.getSize_hdrp]
    · simp only [List.length_append] at hfuel
      omega

/-- The second loop for pairs counts those in front of the roving pointer. -/
lemma Tiled.scan_front (ht : Tiled h (l ++ b :: r))
    (hx : h.currentBlock = h.heapListp + extent Block.size l) :
    scan h.mem (fun cursor => nextBlkp h.mem cursor < h.currentBlock) (countIf (isContiguous h.mem))
      (walkBound h) (nextBlkp h.mem h.heapListp) n = some (n + freePairs l) := by
  have hnext : ∀ y, y ≤ nextBlkp h.mem y := fun y => Nat.le_add_right y _
  have hlen := ht.length_lt (List.cons_ne_nil b r)
  -- a loop that makes no step
  have hnone : h.currentBlock ≤ nextBlkp h.mem h.heapListp → freePairs l = 0 →
      scan h.mem (fun cursor => nextBlkp h.mem cursor < h.currentBlock)
        (countIf (isContiguous h.mem)) (walkBound h) (nextBlkp h.mem h.heapListp) n =
          some (n + freePairs l) := by
    intro hle hzero
    rw [scan_eq (Image.nil h.mem _) (by simp) ?_ (by simp only [List.length_nil]; omega)]
    · simp [hzero]
    · simpa using hle.trans (hnext _)
  cases l with
  | nil =>
    refine hnone ?_ rfl
    rw [hx, extent_nil, Nat.add_zero]
    exact hnext _
  | cons p l =>
    obtain ⟨rfl, -⟩ := ht.framed.first
    have hpAt : BlockAt h.mem h.heapListp Block.prologue := (image_cons.mp ht.image).1
    rw [freePairs_cons_alloc rfl] at hnone ⊢
    rcases List.eq_nil_or_concat l with rfl | ⟨z, d, rfl⟩
    · refine hnone ?_ rfl
      rw [hx, hpAt.nextBlkp]
      simp
    · rw [List.concat_eq_append] at ht hx ⊢
      have himg := (image_cons.mp (image_append.mp ht.image).1).2
      have hsize : ∀ c ∈ z ++ [d], 8 ≤ c.size := fun c hc =>
        ht.framed.size_of_left (List.cons_ne_nil b r) (List.mem_cons_of_mem _ hc)
      have hdsize := hsize d (by simp)
      have hdAt := (image_cons.mp (image_append.mp himg).2).1
      have hfuel := ht.length_lt (List.cons_ne_nil b r)
      simp only [extent_cons, extent_append, extent_nil, Nat.add_zero] at hx
      rw [hpAt.nextBlkp, scan_eq (image_append.mp himg).1, foldl_countIf,
        countP_isContiguous himg fun c hc => by have := hsize c hc; omega]
      · rintro ⟨y, c⟩ hc
        have hend := add_le_of_mem_placed hc
        have hcAt : BlockAt h.mem y c := (image_append.mp himg).1 (y, c) hc
        simp only [hcAt.nextBlkp, decide_eq_true_eq]
        omega
      · simp only [hdAt.nextBlkp, decide_eq_false_iff_not]
        omega
      · simp only [List.length_cons, List.length_append] at hfuel
        omega

lemma Tiled.scanPairs_eq (ht : Tiled h (l ++ b :: r))
    (hx : h.currentBlock = h.heapListp + extent Block.size l) :
    scanPairs h = some ((freePairs l : ℤ) + freePairs (b :: r)) := by
  rw [scanPairs, ht.scan_behind hx, Option.bind_some, ht.scan_front hx]
  simp [add_comm]

/-- The block list is walked once by two loops that start at the roving pointer and at the first
block. A test that never holds counts nothing. -/
lemma Tiled.scanEach_eq (ht : Tiled h (l ++ b :: r))
    (hx : h.currentBlock = h.heapListp + extent Block.size l) {test : ℕ → Bool}
    (htest : ∀ y, test y = false) : scanEach h test = some 0 := by
  have hcount : ∀ (q : List (ℕ × Block)) (n : ℤ),
      q.foldl (fun n q => countIf test n q.1) n = n := fun q n => by
    rw [foldl_countIf]
    simp [htest]
  have himg := (image_append.mp ht.image).2
  rw [← hx] at himg
  have hlen := ht.length_lt (List.cons_ne_nil b r)
  obtain ⟨z, t, hz⟩ := ht.split_epilogue
  rw [hz] at himg
  have ht' : Tiled h ((l ++ z) ++ [Block.epilogue t]) := by
    rw [List.append_assoc, ← hz]
    exact ht
  have heAt : BlockAt h.mem (h.currentBlock + extent Block.size z) (Block.epilogue t) :=
    (image_cons.mp (image_append.mp himg).2).1
  have hfuel := ht'.length_lt (by simp)
  have hbehind : scan h.mem (fun cursor => getSize h.mem (hdrp cursor) > 0) (countIf test)
      (walkBound h) h.currentBlock 0 = some 0 := by
    rw [scan_eq (image_append.mp himg).1, hcount]
    · rintro ⟨y, c⟩ hc
      have hcAt : BlockAt h.mem y c := (image_append.mp himg).1 (y, c) hc
      have := ht'.framed.size_of_left (by simp) (List.mem_append_right l (mem_of_mem_placed hc))
      simp only [hcAt.getSize_hdrp, decide_eq_true_eq]
      omega
    · simp [heAt.getSize_hdrp]
    · simp only [List.length_append] at hfuel
      omega
  rw [scanEach, hbehind, Option.bind_some]
  cases l with
  | nil =>
    have hle : h.heapListp ≤ nextBlkp h.mem h.heapListp := Nat.le_add_right _ _
    rw [scan_eq (Image.nil h.mem _) (by simp) ?_ (by simp only [List.length_nil]; omega)]
    · simp
    · simpa [hx] using hle
  | cons p l =>
    obtain ⟨rfl, -⟩ := ht.framed.first
    have hpAt : BlockAt h.mem h.heapListp Block.prologue := (image_cons.mp ht.image).1
    have hlImg := (image_cons.mp (image_append.mp ht.image).1).2
    simp only [extent_cons] at hx
    rw [hpAt.nextBlkp, scan_eq hlImg, hcount]
    · rintro ⟨y, c⟩ hc
      have hend := add_le_of_mem_placed hc
      have := ht.framed.size_of_left (List.cons_ne_nil b r)
        (List.mem_cons_of_mem _ (mem_of_mem_placed hc))
      simp only [decide_eq_true_eq]
      omega
    · simp only [decide_eq_false_iff_not]
      omega
    · simp only [List.length_cons] at hlen
      omega

/-- The counting loop finds the prologue and the ordinary blocks. -/
lemma Tiled.scanBlocks_eq (ht : Tiled h bs) : scanBlocks h =
    some ((freeCount bs : ℤ) - 1, (bs.length : ℤ) - 2 - freeCount bs) := by
  have hfold : ∀ (a : ℕ) (l : List Block), Image h.mem a l → ∀ s : ℤ × ℤ,
      (placed Block.size a l).foldl (fun s q => if getAlloc h.mem (hdrp q.1) ≠ 0 then (s.1, s.2 + 1)
        else (s.1 + 1, s.2)) s = (s.1 + freeCount l, s.2 + (l.length - freeCount l)) := by
    intro a l
    induction l generalizing a with
    | nil => simp
    | cons c l ih =>
      intro himg s
      obtain ⟨hc, hl⟩ := image_cons.mp himg
      rw [placed_cons, List.foldl_cons, ih _ hl, hc.getAlloc_hdrp, freeCount_cons]
      cases c.alloc <;> (simp; ring)
  have hlistp := ht.listp
  have hbrk := ht.brk
  obtain ⟨os, t, rfl, -⟩ := ht.framed
  rw [← List.cons_append] at ht hbrk ⊢
  have himg := (image_append.mp ht.image).1
  simp only [extent_append, extent_cons, extent_nil, Block.epilogue_size, Nat.add_zero] at hbrk
  rw [scanBlocks, scan_eq himg, hfold _ _ himg]
  · simp only [freeCount_append, freeCount_cons, freeCount_nil, Block.epilogue_alloc,
      List.length_append, List.length_cons, List.length_nil]
    push_cast
    congr 2
    simp
    ring
  · rintro ⟨y, c⟩ hc
    have hend := add_le_of_mem_placed hc
    have := ht.framed.size_of_left (by simp) (mem_of_mem_placed hc)
    simp only [extent_cons] at hend
    refine decide_eq_true (show y < h.memBrk - 1 from ?_)
    omega
  · simp only [extent_cons]
    refine decide_eq_false (show ¬_ < h.memBrk - 1 from ?_)
    omega
  · exact ht.length_lt (by simp)

lemma isOverlapping_eq (m : Memory) (y : ℕ) : isOverlapping m y = false := by
  have hself : ¬y + getSize m (hdrp y) > nextBlkp m y := lt_irrefl _
  rw [isOverlapping, decide_eq_false hself, Bool.and_false]

lemma isUnaligned_eq (m : Memory) (y : ℕ) : isUnaligned m y = false := by
  have hmod : ¬(nextBlkp m y - y) % alignment ≠ 0 := by
    rw [nextBlkp, Nat.add_sub_cancel_left, getSize_eq, not_not]
    exact Nat.mul_mod_left _ _
  rw [isUnaligned, decide_eq_false hmod, Bool.and_false]

/-- What `mm_check` reports of a tiled heap. Neither an overlap nor an unaligned block is ever
found. -/
theorem Tiled.mmCheck_eq (ht : Tiled h (l ++ b :: r))
    (hx : h.currentBlock = h.heapListp + extent Block.size l) : mmCheck h =
    some ⟨(freeCount (l ++ b :: r) : ℤ) - 1,
      ((l ++ b :: r).length : ℤ) - 2 - freeCount (l ++ b :: r),
      (freePairs l : ℤ) + freePairs (b :: r), 0, 0⟩ := by
  unfold mmCheck
  rw [ht.scanBlocks_eq, ht.scanPairs_eq hx, ht.scanEach_eq hx (isOverlapping_eq h.mem),
    ht.scanEach_eq hx (isUnaligned_eq h.mem)]
  rfl

end Tiled

/-! ### Adjacent free blocks -/

/-- The block at the roving pointer and the one in front of it are both free. -/
def SeamFree (h : Heap) : Prop :=
  ∃ x p b, (x, p) ∈ blockList h ∧ x + p.size = h.currentBlock ∧ p.alloc = false ∧
    (h.currentBlock, b) ∈ blockList h ∧ b.alloc = false

/-- In every tiled heap whose roving pointer is at a block, `mm_check` counts the adjacent free
blocks correctly exactly where the roving pointer is not at the second one of such a pair. -/
theorem numCoalesceErrs_iff {h : Heap} (ht : ∃ bs, Tiled h bs)
    (hcur : ∃ b, (h.currentBlock, b) ∈ blockList h) :
    (∃ r, mmCheck h = some r ∧
      r.numCoalesceErrs = freePairs ((blockList h).map Prod.snd)) ↔ ¬SeamFree h := by
  obtain ⟨bs, ht⟩ := ht
  obtain ⟨b, hb⟩ := hcur
  unfold SeamFree
  rw [ht.blockList_eq] at hb ⊢
  rw [map_snd_placed]
  obtain ⟨l, r, rfl, hx⟩ := mem_placed_iff.mp hb
  rw [ht.mmCheck_eq hx]
  simp only [Option.some.injEq, exists_eq_left']
  rcases List.eq_nil_or_concat l with rfl | ⟨l, p, rfl⟩
  · -- the roving pointer is at the prologue
    simp only [List.nil_append, freePairs, Nat.cast_zero, zero_add, true_iff]
    rintro ⟨x, p, c, hp, hend, hpfree, -, -⟩
    have hle := le_of_mem_placed hp
    have hsize := (ht.framed.size_of_right (l := []) (mem_of_mem_placed hp))
    obtain ⟨-, hr⟩ := ht.framed.first
    simp only [extent_nil, Nat.add_zero] at hx
    obtain ⟨l₁, l₂, heq, rfl⟩ := mem_placed_iff.mp hp
    rw [List.nil_append] at ht
    rw [heq] at ht
    have := ht.framed.ne_nil_of_free hpfree
    have := ht.framed.ordinary this.1 this.2
    omega
  · rw [List.concat_eq_append] at ht hx hb ⊢
    have hseam : (∃ x q c, (x, q) ∈ placed Block.size h.heapListp ((l ++ [p]) ++ b :: r) ∧
        x + q.size = h.currentBlock ∧ q.alloc = false ∧
        (h.currentBlock, c) ∈ placed Block.size h.heapListp ((l ++ [p]) ++ b :: r) ∧
          c.alloc = false) ↔ p.alloc = false ∧ b.alloc = false := by
      have ht' : Tiled h (l ++ p :: b :: r) := by simpa using ht
      have hxp : (h.heapListp + extent Block.size l, p) ∈
          placed Block.size h.heapListp ((l ++ [p]) ++ b :: r) := by simp
      have hpend : h.heapListp + extent Block.size l + p.size = h.currentBlock := by
        simp [hx, Nat.add_assoc]
      have hp8 := ht.framed.size_of_left (List.cons_ne_nil b r) (b := p) (by simp)
      constructor
      · rintro ⟨x, q, c, hq, hend, hqfree, hc, hcfree⟩
        obtain ⟨l₁, r₁, heq, -⟩ := mem_placed_iff.mp hq
        obtain ⟨l₂, r₂, heq', -⟩ := mem_placed_iff.mp hc
        have hq16 : 16 ≤ q.size := by
          have hfr := ht.framed
          rw [heq] at hfr
          exact hfr.ordinary (hfr.ne_nil_of_free hqfree).1 (hfr.ne_nil_of_free hqfree).2
        have hc16 : 16 ≤ c.size := by
          have hfr := ht.framed
          rw [heq'] at hfr
          exact hfr.ordinary (hfr.ne_nil_of_free hcfree).1 (hfr.ne_nil_of_free hcfree).2
        have hb0 : 0 < b.size := by
          by_contra hzero
          have hr : r = [] := by
            by_contra hr
            have := ht.framed.ordinary (by simp) hr
            omega
          have hcend := add_le_of_mem_placed hc
          rw [hr, extent_append, extent_cons, extent_nil] at hcend
          omega
        obtain ⟨-, rfl⟩ := placed_inj_end hq hxp (by omega) (by omega) (by omega)
        obtain rfl := placed_inj hb hc hb0 (by omega)
        exact ⟨hqfree, hcfree⟩
      · rintro ⟨hpfree, hbfree⟩
        exact ⟨_, p, b, hxp, hpend, hpfree, hb, hbfree⟩
    rw [hseam, List.append_assoc, List.singleton_append, freePairs_append]
    push_cast
    constructor
    · intro hcount hfree
      rw [if_pos hfree] at hcount
      omega
    · intro hfree
      rw [if_neg hfree]
      ring

/-- A free tagged block stands in front of a free block, and the roving pointer is behind the two. -/
theorem check_counts_pairs : ∃ s r, run Session.step (Session.begin (fun _ => 0) 4096)
    [.malloc 200, .malloc 16, .malloc 16, .malloc 16, .realloc 4112 1, .free 4320, .free 4344] =
      some s ∧ freePairs ((blockList s.heap).map Prod.snd) = 1 ∧ mmCheck s.heap = some r ∧
      r.numCoalesceErrs = freePairs ((blockList s.heap).map Prod.snd) := by
  have hk : run Sketch.step (Sketch.begin 4096) [.malloc 200, .malloc 16, .malloc 16, .malloc 16,
      .realloc 4112 1, .free 4320, .free 4344] =
      some ⟨⟨4096, [Block.prologue, ⟨208, true, false, rfl⟩, ⟨24, false, true, rfl⟩,
        ⟨24, false, false, rfl⟩, ⟨24, true, false, rfl⟩, ⟨3816, false, false, rfl⟩,
        Block.epilogue false], 4368⟩, [(4112, 1), (4368, 16)]⟩ := by decide
  obtain ⟨s, hrun, hs⟩ := (Shows.begin _ (by decide)).run hk
  have hlist : blockList s.heap = [(4104, Block.prologue), (4112, ⟨208, true, false, rfl⟩),
      (4320, ⟨24, false, true, rfl⟩), (4344, ⟨24, false, false, rfl⟩),
      (4368, ⟨24, true, false, rfl⟩), (4392, ⟨3816, false, false, rfl⟩),
      (8208, Block.epilogue false)] := hs.refines.blockList_eq
  have hcur : s.heap.currentBlock = 4368 := hs.refines.roving
  have hseam : ¬SeamFree s.heap := by
    rintro ⟨x, p, b, -, -, -, hb, hfree⟩
    rw [hlist, hcur] at hb
    simp only [List.mem_cons, Prod.mk.injEq, List.not_mem_nil, or_false] at hb
    obtain rfl : b = ⟨24, true, false, rfl⟩ := by simpa using hb
    cases hfree
  obtain ⟨r, hr, hcount⟩ := (numCoalesceErrs_iff ⟨_, hs.refines.toTiled⟩
    ⟨⟨24, true, false, rfl⟩, by rw [hlist, hcur]; decide⟩).mpr hseam
  exact ⟨s, r, hrun, by rw [hlist]; decide, hr, hcount⟩

/-- A free tagged block stands in front of the free block at the roving pointer. -/
theorem check_misses_pair : ∃ s r, run Session.step (Session.begin (fun _ => 0) 4096)
    [.malloc 200, .malloc 16, .malloc 16, .realloc 4112 1, .free 4320, .free 4344] = some s ∧
      WellFormed s.heap ∧ s.heap.currentBlock = 4344 ∧
      freePairs ((blockList s.heap).map Prod.snd) = 1 ∧
      mmCheck s.heap = some r ∧ r.numCoalesceErrs = 0 := by
  have hk : run Sketch.step (Sketch.begin 4096)
      [.malloc 200, .malloc 16, .malloc 16, .realloc 4112 1, .free 4320, .free 4344] =
      some ⟨⟨4096, [Block.prologue, ⟨208, true, false, rfl⟩, ⟨24, false, true, rfl⟩,
        ⟨3864, false, false, rfl⟩, Block.epilogue false], 4344⟩, [(4112, 1)]⟩ := by decide
  obtain ⟨s, hrun, hs⟩ := (Shows.begin _ (by decide)).run hk
  have hw := hs.refines.toWellFormedAs
  have hlist : blockList s.heap = [(4104, Block.prologue), (4112, ⟨208, true, false, rfl⟩),
      (4320, ⟨24, false, true, rfl⟩), (4344, ⟨3864, false, false, rfl⟩),
      (8208, Block.epilogue false)] := hs.refines.blockList_eq
  have hcur : s.heap.currentBlock = 4344 := hs.refines.roving
  have ht : Tiled s.heap ([Block.prologue, ⟨208, true, false, rfl⟩, ⟨24, false, true, rfl⟩] ++
      ⟨3864, false, false, rfl⟩ :: [Block.epilogue false]) := hs.refines.toTiled
  have hx : s.heap.currentBlock = s.heap.heapListp + extent Block.size
      [Block.prologue, ⟨208, true, false, rfl⟩, ⟨24, false, true, rfl⟩] := by
    rw [hcur, hs.refines.first]
    decide
  exact ⟨s, _, hrun, ⟨_, hw⟩, hcur, by rw [hlist]; decide, ht.mmCheck_eq hx, by decide⟩

end SystemsLabs.Malloc
