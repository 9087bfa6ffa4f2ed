import SystemsLabs.Malloc.Reallocate

/-!
# The abstract allocator

What the allocator is for, without its memory: a list of blocks from the prologue to the
epilogue and the roving pointer into it. A request takes the block that `seek` finds or a
new one at the end, and a freed block is joined with its free neighbours. The functions of
`mm.c` compute these operations on the bytes of the heap.
-/

namespace SystemsLabs.Malloc
open Library

/-! ### Operations on block lists -/

/-- Applies `f` to the part of the list that starts at address `x`. -/
def modifyAt (f : List Block → List Block) (x : ℕ) : ℕ → List Block → List Block
  | _, [] => []
  | a, b :: l => if a = x then f (b :: l) else b :: modifyAt f x (a + b.size) l

/-- Allocates `asize` bytes of the first block. -/
def carveHead (asize : ℕ) (hmod : asize % 8 = 0) : List Block → List Block
  | [] => []
  | b :: l => b.carve asize hmod ++ l

/-- Tags the block behind the first one. -/
def reserveHead : List Block → List Block
  | b :: n :: l => b :: n.withTag true :: l
  | l => l

/-- Frees the block at address `x` and joins it with its neighbours. -/
def freeAt (x : ℕ) : ℕ → List Block → List Block
  | a, p :: b :: n :: post =>
    if a + p.size = x then joinPrev p (joinNext b.freed (n.withTag false :: post))
    else p :: freeAt x (a + p.size) (b :: n :: post)
  | _, l => l

/-- Puts the free block `c` in front of a new epilogue. -/
def growBy (c : Block) : List Block → List Block
  | [] => []
  | [e] => [e]
  | [p, _] => joinPrev p (joinNext c [Block.epilogue false])
  | p :: l => p :: growBy c l

section Lists

variable {f : List Block → List Block} {a x : ℕ} {l r pre post : List Block} {p b n c e : Block}

lemma modifyAt_append (hl : ∀ b ∈ l, 0 < b.size) (hx : x = a + extent Block.size l) :
    modifyAt f x a (l ++ b :: r) = l ++ f (b :: r) := by
  subst hx
  induction l generalizing a with
  | nil => simp [modifyAt]
  | cons c l ih =>
    have hc := hl c (by simp)
    have hne : a ≠ a + extent Block.size (c :: l) := by
      rw [extent_cons]
      omega
    rw [List.cons_append, modifyAt, if_neg hne, extent_cons, ← Nat.add_assoc,
      ih (fun d hd => hl d (List.mem_cons_of_mem c hd))]
    rfl

lemma freeAt_cons (hne : a + c.size ≠ x) (hl : 2 ≤ l.length) :
    freeAt x a (c :: l) = c :: freeAt x (a + c.size) l := by
  cases l with
  | nil => simp at hl
  | cons d l =>
    cases l with
    | nil => simp at hl
    | cons e l => rw [freeAt, if_neg hne]

lemma freeAt_append (hpre : ∀ b ∈ pre, 0 < b.size) (hp : 0 < p.size)
    (hx : x = a + extent Block.size pre + p.size) :
    freeAt x a (pre ++ p :: b :: n :: post) = freedList pre p b n post := by
  subst hx
  induction pre generalizing a with
  | nil => simp [freeAt, freedList]
  | cons c pre ih =>
    have hrest := ih (a := a + c.size) (fun d hd => hpre d (List.mem_cons_of_mem c hd))
    rw [List.cons_append, extent_cons, ← Nat.add_assoc, freeAt_cons (by omega) (by simp; omega), hrest]
    rfl

lemma growBy_append : growBy c (pre ++ [p, e]) = grownList pre p c := by
  induction pre with
  | nil => rfl
  | cons d pre ih =>
    rw [grownList] at ih ⊢
    cases pre with
    | nil => rfl
    | cons d' pre =>
      rw [List.cons_append, List.cons_append, List.cons_append, ← ih]
      cases pre <;> rfl

end Lists

/-! ### The abstract state -/

/-- The start of the heap, its blocks and the roving pointer. -/
structure Outline where
  start : ℕ
  blocks : List Block
  current : ℕ
deriving DecidableEq

namespace Outline

variable (o : Outline)

/-- The address of the prologue block. -/
def first : ℕ := o.start + 8

def brk : ℕ := o.first + extent Block.size o.blocks

/-- The heap that `mm_init` sets up. -/
def init (start : ℕ) : Outline where
  start := start
  blocks := [Block.prologue, Block.epilogue false]
  current := start + 8

lemma adjustSize_mod (n : ℕ) : adjustSize n % 8 = 0 := by
  unfold adjustSize
  split
  · rfl
  · unfold toUnsigned wrapUnsigned
    simp only [dsize]
    omega

/-- The free block by which a request extends the heap. -/
def extension (n : ℕ) : Block where
  size := max (adjustSize n) chunksize
  alloc := false
  tag := false
  size_mod := by
    have := adjustSize_mod n
    simp only [chunksize]
    omega

def malloc (n : ℕ) : Outline × ℕ :=
  let carveIn (x : ℕ) (bs : List Block) :=
    modifyAt (carveHead (adjustSize n) (adjustSize_mod n)) x o.first bs
  let found := seek (adjustSize n) o.first o.blocks o.current
  if n = 0 then (o, null)
  else
    match found.1 with
    | some q => ({ o with blocks := carveIn q.1 o.blocks, current := found.2 }, q.1)
    | none =>
      if o.start + maxHeap < o.brk + (extension n).size then (o, null)
      else
        let grown := growBy (extension n) o.blocks
        let x := cover Block.size o.first grown o.brk
        ({ o with
          blocks := carveIn x grown
          current := cover Block.size o.first grown o.current }, x)

def free (x : ℕ) : Outline :=
  let bs := freeAt x o.first o.blocks
  { o with blocks := bs, current := cover Block.size o.first bs o.current }

/-- Reserves the block behind the one at `x`. -/
def reserve (x : ℕ) : Outline :=
  { o with blocks := modifyAt reserveHead x o.first o.blocks }

/-- Reallocates the block of `k` bytes at `x` to a size for which it is large enough. -/
def keep (x k n : ℕ) : Outline :=
  if k - bodySize n < 2 * padding then o.reserve x else o

end Outline

/-- The heap shows the outline `o`. -/
structure Refines (h : Heap) (o : Outline) : Prop extends WellFormedAs h o.blocks where
  start : h.memStartBrk = o.start
  roving : h.currentBlock = o.current

section Refines

variable {h h' : Heap} {o : Outline} {x k n : ℕ}

lemma Refines.first (hr : Refines h o) : h.heapListp = o.first := by
  rw [hr.listp, hr.start]
  rfl

lemma Refines.brk_eq (hr : Refines h o) : h.memBrk = o.brk := by
  rw [hr.brk, hr.first]
  rfl

lemma Refines.blockList_eq (hr : Refines h o) :
    blockList h = placed Block.size o.first o.blocks := by
  rw [hr.toTiled.blockList_eq, hr.first]

lemma Framed.pos_of_left {l r : List Block} (hfr : Framed (l ++ r)) (hr : r ≠ []) :
    ∀ b ∈ l, 0 < b.size := by
  intro b hb
  have := hfr.size_of_left hr hb
  omega

/-- The old break lies in the block that an extended heap ends with. -/
lemma cover_grown (pre : List Block) (a : ℕ) (p : Block) {c : Block} (hc : 0 < c.size) :
    cover Block.size a (grownList pre p c) (a + extent Block.size pre + p.size) =
      joinStart (a + extent Block.size pre) p := by
  rw [grownList_eq]
  have hplace : (joinStart (a + extent Block.size pre) p, lastGrown p c) ∈ placed Block.size a
      ((if p.closed then pre ++ [p] else pre) ++ [lastGrown p c, Block.epilogue false]) := by
    refine mem_placed_iff.mpr ⟨_, _, rfl, ?_⟩
    rw [joinStart]
    split <;> simp [Nat.add_assoc]
  refine cover_eq hplace ?_ ?_
  · rw [joinStart]
    split <;> omega
  · rw [joinStart, lastGrown]
    split <;> simp <;> omega

/-- `mm_init` of an aligned heap whose break is at its start. -/
theorem mmInit_refines {h : Heap} (halign : h.memStartBrk % 8 = 0) (hbrk : h.memBrk = h.memStartBrk)
    (hmax : h.memMaxAddr = h.memStartBrk + maxHeap) :
    (mmInit h).2 = 0 ∧ Refines (mmInit h).1 (Outline.init h.memStartBrk) := by
  set s := h.memStartBrk with hs
  have hsbrk : memSbrk { h with numExpectedFreeBlocks := 0, numExpectedBlocks := 0 }
      (4 * wsize) = some ({ h with
        numExpectedFreeBlocks := 0
        numExpectedBlocks := 0
        memBrk := h.memBrk + 16 }, h.memBrk) := by
    simp only [maxHeap] at hmax
    have hroom : ¬((4 * wsize : ℤ) < 0 ∨ (h.memBrk : ℤ) + 4 * wsize > h.memMaxAddr) := by
      simp only [wsize]
      omega
    exact if_neg hroom
  generalize hm : put (put (put (put h.mem s 0) (s + 1 * wsize) (pack dsize 1)) (s + 2 * wsize)
    (pack dsize 1)) (s + 3 * wsize) (pack 0 1) = m
  have hinit : mmInit h = ({ h with
      mem := m
      memBrk := s + 16
      heapListp := s + 8
      currentBlock := s + 8
      numExpectedFreeBlocks := 0
      numExpectedBlocks := 0 }, 0) := by
    unfold mmInit
    dsimp only
    rw [hsbrk]
    dsimp only
    rw [hbrk, hm]
    rfl
  have himg : Image m (s + 8) [Block.prologue, Block.epilogue false] := by
    refine image_cons.mpr ⟨blockAt_of_words (t := false) ?_ ?_,
      image_cons.mpr ⟨⟨?_, fun hne => absurd rfl hne⟩, Image.nil _ _⟩⟩
    · simp only [← hm, put, wsize]
      rw [loadWord_storeWord_of_disjoint (by omega), loadWord_storeWord_of_disjoint (by omega)]
      exact loadWord_storeWord (by decide)
    · simp only [← hm, put, wsize, Block.prologue_size]
      rw [loadWord_storeWord_of_disjoint (by omega)]
      exact loadWord_storeWord (by decide)
    · simp only [← hm, put, wsize, Block.prologue_size]
      exact loadWord_storeWord (by decide)
  rw [hinit]
  refine ⟨rfl, ⟨⟨⟨halign, hmax, rfl, rfl, ?_, ?_, himg, ?_⟩, ?_⟩, rfl, rfl⟩⟩
  · simp only [maxHeap] at hmax ⊢
    omega
  · exact ⟨[], false, rfl, by simp⟩
  · simp [Outline.init, TagBehind]
  · exact ⟨Block.prologue, by simp [Outline.init], by simp⟩

theorem mmMalloc_refines (hr : Refines h o) (hn : n + 15 < 2 ^ 32) :
    ∃ h', mmMalloc h n = some (h', (o.malloc n).2) ∧ Refines h' (o.malloc n).1 := by
  have hmod := Outline.adjustSize_mod n
  have hmax := hr.maxAddr
  rcases mmMalloc_cases hr.toWellFormedAs hn rfl hmod with ⟨hfail, hwhy⟩ | ⟨hn0, hfit | hext⟩
  · -- nothing changes
    rcases hwhy with rfl | ⟨hnone, hroom⟩
    · exact ⟨h, hfail, hr⟩
    have hroom' : o.start + maxHeap < o.brk + (Outline.extension n).size := by
      rw [← hr.start, ← hmax, ← hr.brk_eq]
      exact hroom
    rw [hr.first, hr.roving] at hnone
    have hmalloc : o.malloc n = (o, null) := by
      simp only [Outline.malloc, hnone, if_pos hroom', ite_self]
    rw [hmalloc]
    exact ⟨h, hfail, hr⟩
  · obtain ⟨h', l, b, r, heq, hbs, hfound, hcur, he⟩ := hfit
    rw [hr.first, hr.roving] at hfound hcur
    have hpos := Framed.pos_of_left (hbs ▸ hr.framed) (by simp)
    have hcarve : modifyAt (carveHead (adjustSize n) hmod) (o.first + extent Block.size l) o.first
        o.blocks = l ++ b.carve (adjustSize n) hmod ++ r := by
      rw [hbs, modifyAt_append hpos rfl, carveHead, List.append_assoc]
    have hmalloc : o.malloc n = ({ o with
        blocks := l ++ b.carve (adjustSize n) hmod ++ r
        current := (seek (adjustSize n) o.first o.blocks o.current).2 },
        o.first + extent Block.size l) := by
      simp only [Outline.malloc, if_neg hn0, hfound, hcarve]
    rw [hmalloc]
    exact ⟨h', hr.first ▸ heq, he.wellFormed, he.start.trans hr.start, hcur⟩
  · obtain ⟨h', pre, p, t, c, heq, hbs, hnone, hroom, hcsize, hca, hct, hcur, he⟩ := hext
    obtain rfl : c = Outline.extension n := by
      ext
      · exact hcsize
      · exact hca
      · exact hct
    rw [hr.first, hr.roving] at hnone
    have hroom' : ¬o.start + maxHeap < o.brk + (Outline.extension n).size := by
      rw [← hr.start, ← hmax, ← hr.brk_eq]
      simp only [Outline.extension]
      omega
    have hgrown : growBy (Outline.extension n) o.blocks = grownList pre p (Outline.extension n) := by
      rw [hbs, growBy_append]
    have hbrk : o.brk = o.first + extent Block.size pre + p.size := by
      rw [Outline.brk, hbs]
      simp [Nat.add_assoc]
    have hpos' : 0 < (Outline.extension n).size := by
      simp only [Outline.extension, chunksize]
      omega
    have hcover := cover_grown pre o.first p hpos'
    rw [← hbrk] at hcover
    have hfr := hr.framed
    rw [hbs] at hfr
    have hpos : ∀ b ∈ (if p.closed then pre ++ [p] else pre), 0 < b.size := by
      have hpre := Framed.pos_of_left (l := pre ++ [p]) (r := [Block.epilogue t])
        (by simpa using hfr) (by simp)
      split
      · exact hpre
      · exact fun b hb => hpre b (by simp [hb])
    have hcarve : modifyAt (carveHead (adjustSize n) hmod)
        (joinStart (o.first + extent Block.size pre) p) o.first
        (grownList pre p (Outline.extension n)) =
        (if p.closed then pre ++ [p] else pre) ++
          (lastGrown p (Outline.extension n)).carve (adjustSize n) hmod ++
            [Block.epilogue false] := by
      rw [grownList_eq, modifyAt_append hpos, carveHead, List.append_assoc]
      rw [joinStart]
      split <;> simp [Nat.add_assoc]
    have hmalloc : o.malloc n = ({ o with
        blocks := (if p.closed then pre ++ [p] else pre) ++
          (lastGrown p (Outline.extension n)).carve (adjustSize n) hmod ++ [Block.epilogue false]
        current := cover Block.size o.first (grownList pre p (Outline.extension n)) o.current },
        joinStart (o.first + extent Block.size pre) p) := by
      simp only [Outline.malloc, if_neg hn0, hnone, if_neg hroom', hgrown, hcover, hcarve]
    rw [hmalloc]
    rw [hr.first, hr.roving] at hcur
    exact ⟨h', hr.first ▸ heq, he.wellFormed, he.start.trans hr.start, hcur⟩

theorem mmFree_refines (hr : Refines h o) (hx : Occupied o.first o.blocks x k) :
    Refines (mmFree h x) (o.free x) := by
  rw [← hr.first] at hx
  obtain ⟨pre, p, b, n, post, hbs, hxp, halloc, -⟩ := hr.toTiled.split_occupied hx
  have hw := hr.toWellFormedAs
  rw [hbs] at hw
  obtain ⟨m, heq, hw', hcur, -, -⟩ := mmFree_spec hw halloc hxp
  have hfr := hw.framed
  have hpre : ∀ b ∈ pre ++ [p], 0 < b.size :=
    Framed.pos_of_left (l := pre ++ [p]) (r := b :: n :: post) (by simpa using hfr) (by simp)
  have hfree : freeAt x o.first o.blocks = freedList pre p b n post := by
    rw [hbs]
    exact freeAt_append (fun b hb => hpre b (by simp [hb])) (hpre p (by simp)) (hr.first ▸ hxp)
  refine ⟨?_, ?_, ?_⟩
  · simp only [Outline.free, hfree]
    exact hw'
  · rw [heq]
    exact hr.start
  · rw [hcur, hr.first, hr.roving]
    simp only [Outline.free, hfree]

theorem mmRealloc_refines (hr : Refines h o) (hx : Occupied o.first o.blocks x k) (hn0 : n ≠ 0)
    (hfits : bodySize n ≤ k) :
    ∃ h', mmRealloc h x n = some (h', x) ∧ Refines h' (o.keep x k n) := by
  rw [← hr.first] at hx
  obtain ⟨pre, p, b, d, post, hbs, hxp, halloc, rfl⟩ := hr.toTiled.split_occupied hx
  have ht := hr.toTiled
  rw [hbs] at ht
  refine ⟨_, mmRealloc_inPlace ht hxp hn0 hfits, ?_⟩
  have hlt := ht.size_lt (b := b) (by simp)
  have hnat : toUnsigned ((b.size : ℤ) - bodySize n) = b.size - bodySize n := by
    rw [← Nat.cast_sub hfits]
    exact wrapUnsigned_natCast (by omega)
  unfold Outline.keep
  by_cases hlow : b.size - bodySize n < 2 * padding
  · -- the block behind is reserved
    obtain ⟨ht', -⟩ := ht.reserve halloc hxp ((b.size : ℤ) - bodySize n)
    have hreserved : d.reserved ((b.size : ℤ) - bodySize n) = d.withTag true := by
      rw [Block.reserved, hnat, if_pos hlow]
    have hpos := Framed.pos_of_left (l := pre ++ [p]) (r := b :: d :: post)
      (by simpa using ht.framed) (by simp)
    have htag : modifyAt reserveHead x o.first o.blocks = pre ++ p :: b :: d.withTag true :: post := by
      have hmod := modifyAt_append (f := reserveHead) (a := o.first) (b := b) (r := d :: post) hpos
        (show x = o.first + extent Block.size (pre ++ [p]) by
          rw [hxp, hr.first]; simp [Nat.add_assoc])
      simpa [hbs, reserveHead] using hmod
    rw [hreserved] at ht'
    rw [if_pos hlow, Outline.reserve, htag]
    refine ⟨⟨ht', ?_⟩, ?_, ?_⟩
    · rw [reallocReserve_current, (reallocReserve_arena h x _).2.2.1]
      have hcur := hr.current
      rw [hbs] at hcur
      exact (start_congr (by simp)).mpr hcur
    · rw [(reallocReserve_arena h x _).1]
      exact hr.start
    · rw [reallocReserve_current]
      exact hr.roving
  · have hkeep : reallocReserve h x ((b.size : ℤ) - bodySize n) = h := by
      rw [reallocReserve, hnat, if_neg hlow]
    rw [hkeep, if_neg hlow]
    exact hr

end Refines

end SystemsLabs.Malloc
