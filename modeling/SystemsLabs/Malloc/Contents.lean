import SystemsLabs.Malloc.Sketch

/-!
# What `mm_realloc` keeps

On every branch of `mm_realloc` the first bytes of the old block arrive at the start of the
returned one, also where the growing branch leaves a heap that is no longer tiled. Without an
extension behind the block the heap is tiled again, and all other allocated blocks stay.
-/

namespace SystemsLabs.Malloc
open Library

/-! ### The data of the block -/

/-- The first `c` bytes at `x` in `m` stand at `q` in `m'`, where a header leaves room for them. -/
structure Carries (c : ℕ) (m : Memory) (x : ℕ) (m' : Memory) (q : ℕ) : Prop where
  room : c + 8 ≤ getSize m' (hdrp q)
  bytes : ∀ i < c, m' (q + i) = m (x + i)

section Carries

variable {c n x q k body : ℕ} {h h' : Heap} {m m' : Memory} {bs l r : List Block} {b : Block}

lemma reallocReserve_apply {w : ℕ} (hw : w + 4 < q + getSize h.mem (hdrp q)) (remaining : ℤ) :
    (reallocReserve h q remaining).mem w = h.mem w := by
  unfold reallocReserve
  split
  · apply storeWord_apply_of_disjoint
    left
    simp only [hdrp, wsize, nextBlkp] at hw ⊢
    omega
  · rfl

lemma Carries.finish (hc : Carries c m x h.mem q) (n : ℕ) :
    ∀ i < c, (reallocFinish n h q).1.mem (q + i) = m (x + i) := by
  intro i hi
  have hroom := hc.room
  rw [← hc.bytes i hi]
  exact reallocReserve_apply (by omega) _

lemma BlockAt.carries (hb : BlockAt m' q b) (hroom : c + 8 ≤ b.size)
    (hbytes : ∀ i < c, m' (q + i) = m (x + i)) : Carries c m x m' q :=
  ⟨by rw [hb.getSize_hdrp]; exact hroom, hbytes⟩

lemma writeOver_carries {size : ℕ} (hx : 4 ≤ x) (hmod : size % 8 = 0) (hroom : c + 8 ≤ size)
    (hlt : size < 2 ^ 32) (hbytes : ∀ i < c, m' (x + i) = m (x + i)) :
    Carries c m x (writeOver m' x size) x := by
  obtain ⟨hsize, hinner⟩ := writeOver_spec (m := m') hx hmod (by omega) hlt
  refine ⟨by rw [hsize]; exact hroom, fun i hi => ?_⟩
  rw [hinner (x + i) (by omega) (by omega)]
  exact hbytes i hi

lemma reallocNext_carries (hw : WellFormedAs h (l ++ b :: r)) (hr : r ≠ [])
    (hocc : Occupied h.heapListp (l ++ b :: r) x b.size)
    (hx : x = h.heapListp + extent Block.size l) (hmod : body % 8 = 0) (hbody : body < 2 ^ 31)
    (hlt : b.size < body) (hc : c + 8 ≤ b.size)
    (heq : reallocNext h x body ((b.size : ℤ) - body) = some (h', true)) :
    Carries c h.mem x h'.mem x := by
  have hlistp := hw.listp
  obtain ⟨g, bs', size, hmem, hframe, hsize, hsmod, hslt⟩ :=
    reallocNext_grown hw hr hx hmod (by omega) hlt heq
  rw [hmem]
  refine writeOver_carries (by omega) hsmod (by omega) (by omega) fun i hi => ?_
  exact hframe.payload x b.size (Set.notMem_empty x) hocc (x + i) (by omega) (by omega)

/-- Every branch of `mm_realloc` carries the data of the block over to the result. -/
lemma mmRealloc_carries (hw : WellFormedAs h bs) (hx : Occupied h.heapListp bs x k) (hn0 : n ≠ 0)
    (hn : n + 15 + padding < 2 ^ 31) (hck : c + 8 ≤ k) (hcn : c ≤ n)
    (heq : mmRealloc h x n = some (h', q)) (hq : q ≠ null) :
    ∀ i < c, h'.mem (q + i) = h.mem (x + i) := by
  obtain ⟨hmod, h16, hle, hlt⟩ := bodySize_spec hn
  obtain ⟨pre, p, b, d, post, rfl, hxp, halloc, rfl⟩ := hw.split_occupied hx
  have hbAt : BlockAt h.mem x b := hw.toTiled.blockAt_behind hxp
  obtain ⟨g, hbranch, rfl⟩ := mmRealloc_branch hw.toTiled hxp hn0 (by omega) heq hq
  suffices hc : Carries c h.mem x g.mem q from hc.finish n
  cases hbranch with
  | stays => exact hbAt.carries hck fun _ _ => rfl
  | slides hlt hd hp hroom =>
    -- the data slide down over the boundary tags of the two blocks
    rw [show x - p.size = h.heapListp + extent Block.size pre by omega]
    obtain ⟨e, hsize, -, ht', -, -, -, hdata⟩ := hw.toTiled.slide (by simp) hp hxp hle hroom
    refine (ht'.blockAt placed_at).carries (by omega) fun i hi => ?_
    exact hdata i (by omega) (by omega)
  | copies hlt hd hslide hcopy =>
    rcases reallocCopy_spec hw hx (hw.toTiled.occupied_behind hxp hd) h16 (by omega) hle with
      hfault | ⟨h₁, q₁, bs₁, hcopied, -, hr, hdata⟩
    · rw [hfault] at hcopy
      cases hcopy
    · rw [hcopied] at hcopy
      obtain ⟨rfl, rfl⟩ := Prod.mk.inj (Option.some.inj hcopy)
      obtain ⟨j, hj, e, hemem, -, -, rfl⟩ := hr.occupied
      have heAt := hr.wellFormed.blockAt (hr.listp.symm ▸ hemem)
      refine heAt.carries (by omega) fun i hi => ?_
      exact hdata i (by omega) (by omega)
  | grows hlt hd hnext =>
    have hw' : WellFormedAs h ((pre ++ [p]) ++ b :: d :: post) := by simpa using hw
    exact reallocNext_carries hw' (by simp) (by simpa using hx) (by simp [hxp, Nat.add_assoc]) hmod
      (by omega) hlt hck hnext

end Carries

/-- In every well-formed heap, `mm_realloc` of an allocated block to `m` bytes that returns a
pointer has moved the first `min n m` bytes there, if the block has room for `n`. -/
theorem realloc_keeps_data {h h' : Heap} {p q n m : ℕ} {b : Block} (hw : WellFormed h)
    (hb : AllocatedAt h p b) (hn : n + 8 ≤ b.size) (hm : m + 15 + padding < 2 ^ 31)
    (heq : mmRealloc h p m = some (h', q)) (hq : q ≠ null) :
    ∀ i < min n m, h'.mem (q + i) = h.mem (p + i) := by
  obtain ⟨bs, hw⟩ := hw
  have hp := hw.allocatedAt_iff.mp ⟨b, hb, rfl⟩
  have hm0 : m ≠ 0 := by
    rintro rfl
    exact hq (Prod.mk.inj (Option.some.inj heq)).2.symm
  exact mmRealloc_carries hw hp hm0 hm (by omega) (by omega) heq hq

/-- A block slides down by 208 bytes into a free one. -/
theorem realloc_slides_data : ∃ s h', run Session.step (Session.begin (fun _ => 0) 4096)
    [.malloc 200, .malloc 16, .malloc 16, .free 4112] = some s ∧
      mmRealloc s.heap 4320 40 = some (h', 4112) ∧
        ∀ i < min 16 40, h'.mem (4112 + i) = s.heap.mem (4320 + i) := by
  have hk : run Sketch.step (Sketch.begin 4096) [.malloc 200, .malloc 16, .malloc 16, .free 4112] =
      some ⟨⟨4096, [Block.prologue, ⟨208, false, false, rfl⟩, ⟨24, true, false, rfl⟩,
        ⟨24, true, false, rfl⟩, ⟨3840, false, false, rfl⟩, Block.epilogue false], 4344⟩,
        [(4344, 16), (4320, 16)]⟩ := by decide
  obtain ⟨s, hrun, hs⟩ := (Shows.begin _ (by decide)).run hk
  have ht : Tiled s.heap ([Block.prologue] ++ ⟨208, false, false, rfl⟩ :: ⟨24, true, false, rfl⟩ ::
      ⟨24, true, false, rfl⟩ :: [⟨3840, false, false, rfl⟩, Block.epilogue false]) :=
    hs.refines.toTiled
  have hfirst : s.heap.heapListp = 4104 := hs.refines.first
  have hb : AllocatedAt s.heap 4320 ⟨24, true, false, rfl⟩ :=
    hs.allocatedAt (by decide) rfl (by decide)
  have hbody : bodySize 40 = 176 := by decide
  have heq := mmRealloc_eq (x := 4320) (n := 40) ht (by rw [hfirst]; rfl) (by decide)
    (by rw [hbody]; decide)
  simp only [hbody] at heq
  exact ⟨s, _, hrun, heq, realloc_keeps_data ⟨_, hs.refines.toWellFormedAs⟩ hb (by decide)
    (by decide) heq (by decide)⟩

/-! ### The rest of the heap -/

/-- The signed room together with the free blocks behind the block. -/
def expandableSize (h : Heap) (ptr size : ℕ) : Option ℤ :=
  (extendHeapRecycle h ptr (toUnsigned (-remainingSize h ptr size))).map fun r =>
    remainingSize h ptr size + r.2

/-- `mm_realloc` calls `extend_heap` itself: the block is too small, the next one is free and the
free blocks behind have too few bytes. -/
def extendsBehind (h : Heap) (ptr size : ℕ) : Prop :=
  size ≠ 0 ∧ remainingSize h ptr size < 0 ∧ ¬isBlockAllocated h.mem (nextBlkp h.mem ptr) ∧
    ∃ e, expandableSize h ptr size = some e ∧ e < 0

section Retile

variable {h h' g : Heap} {bs bs' l r : List Block} {b : Block} {x q n asize : ℕ}

lemma bodySize_mod (n : ℕ) : bodySize n % 8 = 0 := by
  have := Outline.adjustSize_mod n
  unfold bodySize toUnsigned wrapUnsigned
  simp only [padding]
  omega

/-- A block that is too small misses at most `2 ^ 31` bytes, else the difference wraps. -/
lemma remainingSize_neg (hb : BlockAt h.mem x b) (hlt : b.size < 2 ^ 25)
    (hneg : remainingSize h x n < 0) : b.size < bodySize n ∧ bodySize n - b.size ≤ 2 ^ 31 ∧
      remainingSize h x n = (b.size : ℤ) - bodySize n := by
  have hbody : bodySize n < 2 ^ 32 := by
    unfold bodySize toUnsigned wrapUnsigned
    omega
  simp only [remainingSize, hb.getSize_hdrp, toInt, wrapSigned, wrapUnsigned] at hneg ⊢
  omega

lemma Tiled.expandableSize_eq (ht : Tiled h (l ++ b :: r)) (hr : r ≠ [])
    (hx : x = h.heapListp + extent Block.size l) (hneg : remainingSize h x n < 0) :
    ∃ i j : ℤ, extendHeapRecycle h x (toUnsigned (-remainingSize h x n)) = some (countBlocks h i j,
        (extent Block.size (freeRun (bodySize n - b.size) 0 r) : ℤ)) ∧
      expandableSize h x n = some ((b.size : ℤ) - bodySize n +
        extent Block.size (freeRun (bodySize n - b.size) 0 r)) := by
  have hbAt : BlockAt h.mem x b := hx ▸ ht.blockAt placed_at
  obtain ⟨hlt, hle, hrem⟩ := remainingSize_neg hbAt (ht.size_lt (by simp)) hneg
  have hmod := bodySize_mod n
  have hbmod := b.size_mod
  have hneg : toUnsigned (-((b.size : ℤ) - bodySize n)) = bodySize n - b.size := by
    rw [show -((b.size : ℤ) - bodySize n) = ((bodySize n - b.size : ℕ) : ℤ) by omega]
    exact wrapUnsigned_natCast (by omega)
  have hrec := extendHeapRecycle_eq ht hr hx (show (bodySize n - b.size) % 8 = 0 by omega)
    (by omega)
  rw [expandableSize, hrem, hneg, hrec]
  exact ⟨_, _, rfl, rfl⟩

/-- The heap is tiled again, an allocated block of at least `asize` bytes starts at `q`, and the
allocated blocks other than the one at `x` stay. -/
structure Resized (x asize q : ℕ) (h : Heap) (bs : List Block) (h' : Heap) (bs' : List Block) :
    Prop where
  tiled : Tiled h' bs'
  listp : h'.heapListp = h.heapListp
  frame : PayloadFrame {x, q} h.heapListp h.mem bs h'.mem bs'
  occupied : ∃ k, asize ≤ k ∧ Occupied h.heapListp bs' q k
  fresh : q ≠ x → ∀ k, ¬Occupied h.heapListp bs q k

lemma Resized.finish (hr : Resized x asize q h bs g bs') (n : ℕ) :
    ∃ bs'', Resized x asize q h bs (reallocFinish n g q).1 bs'' := by
  obtain ⟨k, hk, hocc⟩ := hr.occupied
  obtain ⟨pre, p, b, d, post, rfl, hxp, halloc, -⟩ := hr.tiled.split_occupied (hr.listp ▸ hocc)
  obtain ⟨ht, hf⟩ := hr.tiled.reserve halloc hxp (toInt (getSize g.mem (hdrp q) - bodySize n))
  rw [hr.listp] at hf
  refine ⟨_, ht, (reallocReserve_arena g q _).2.2.1.trans hr.listp,
    hr.frame.trans (hf.mono (Set.empty_subset _)), ⟨k, hk, ?_⟩, hr.fresh⟩
  exact (hf.occupied q k (Set.notMem_empty q)).mpr hocc

lemma reallocNext_resized (ht : Tiled h (l ++ b :: r)) (hl : l ≠ []) (hr : r ≠ [])
    (hx : x = h.heapListp + extent Block.size l) (hn : n + 15 + padding < 2 ^ 31)
    (hlt : b.size < bodySize n)
    (hroom : bodySize n - b.size ≤ extent Block.size (freeRun (bodySize n - b.size) 0 r)) :
    ∃ g bs', reallocNext h x (bodySize n) ((b.size : ℤ) - bodySize n) = some (g, true) ∧
      Resized x (bodySize n) x h (l ++ b :: r) g bs' := by
  obtain ⟨hmod, -, -, hbody⟩ := bodySize_spec hn
  have heq := reallocNext_eq ht hr hx hmod (by omega) hlt
  dsimp only at heq
  have hb16 := ht.framed.ordinary hl hr
  obtain ⟨rest, hsplit, hfree, -⟩ := freeRun_spec (bodySize n - b.size) 0 r
  generalize freeRun (bodySize n - b.size) 0 r = run at *
  rw [if_pos hroom] at heq
  subst hsplit
  have hrest : rest ≠ [] := by
    have hfr : Framed ((l ++ [b]) ++ run ++ rest) := by simpa using ht.framed
    exact hfr.ne_nil_of_run (by simp) hr hfree
  have ht' : Tiled (countBlocks h (-(run.length : ℤ)) (-(run.length : ℤ))) (l ++ b :: run ++ rest) := by
    rw [show l ++ b :: run ++ rest = l ++ b :: (run ++ rest) by simp]
    exact ht.congr ⟨rfl, rfl, rfl, rfl⟩ rfl
  obtain ⟨c, -, -, htc, hf, hocc, -⟩ := ht'.grow hl hrest hb16 hfree hx rfl
  refine ⟨_, l ++ c :: rest, heq, htc, rfl, ?_, ⟨_, by omega, hocc⟩, fun hne => absurd rfl hne⟩
  rw [show l ++ b :: (run ++ rest) = l ++ b :: run ++ rest by simp]
  exact hf.mono (by simp)

lemma mmRealloc_resized {k : ℕ} (hw : WellFormedAs h bs) (hx : Occupied h.heapListp bs x k)
    (hn0 : n ≠ 0) (hn : n + 15 + padding < 2 ^ 31) (hext : ¬extendsBehind h x n)
    (heq : mmRealloc h x n = some (h', q)) (hq : q ≠ null) :
    ∃ bs', Resized x (n + 8) q h bs h' bs' := by
  obtain ⟨hmod, h16, hle, hlt⟩ := bodySize_spec hn
  obtain ⟨pre, p, b, d, post, rfl, hxp, halloc, rfl⟩ := hw.split_occupied hx
  have hfr : Framed ((pre ++ [p]) ++ b :: d :: post) := by simpa using hw.framed
  have hp8 := hfr.size_of_left (b := p) (by simp) (by simp)
  obtain ⟨g, hbranch, rfl⟩ := mmRealloc_branch hw.toTiled hxp hn0 (by omega) heq hq
  suffices hr : ∃ bs₁, Resized x (bodySize n) q h (pre ++ p :: b :: d :: post) g bs₁ by
    obtain ⟨bs₁, hr⟩ := hr
    obtain ⟨bs', hr'⟩ := hr.finish n
    obtain ⟨j, hj, hocc⟩ := hr'.occupied
    exact ⟨bs', hr'.tiled, hr'.listp, hr'.frame, ⟨j, by omega, hocc⟩, hr'.fresh⟩
  cases hbranch with
  | stays hfits =>
    exact ⟨_, hw.toTiled, rfl, PayloadFrame.refl _ _ _ _, ⟨_, hfits, hx⟩, fun hne => absurd rfl hne⟩
  | slides hlt hd hp hroom =>
    rw [show x - p.size = h.heapListp + extent Block.size pre by omega]
    obtain ⟨c, -, -, ht', hf, hocc, -⟩ := hw.toTiled.slide (by simp) hp hxp hle hroom
    exact ⟨_, ht', rfl, hf, ⟨_, hroom, hocc⟩, fun _ k => not_occupied_free hp (by omega)⟩
  | copies hlt hd hslide hcopy =>
    rcases reallocCopy_spec hw hx (hw.toTiled.occupied_behind hxp hd) h16 (by omega) hle with
      hfault | ⟨g, y, bs₁, hcopied, -, hr, -⟩
    · rw [hfault] at hcopy
      cases hcopy
    · rw [hcopied] at hcopy
      obtain ⟨rfl, rfl⟩ := Prod.mk.inj (Option.some.inj hcopy)
      exact ⟨bs₁, hr.wellFormed.toTiled, hr.listp, hr.frame, hr.occupied,
        fun hne => (hr.moved hne).2⟩
  | grows hlt hd hnext =>
    -- the free blocks behind have room
    have ht : Tiled h ((pre ++ [p]) ++ b :: d :: post) := by simpa using hw.toTiled
    have hxp' : x = h.heapListp + extent Block.size (pre ++ [p]) := by simp [hxp, Nat.add_assoc]
    have hbAt : BlockAt h.mem x b := hxp' ▸ ht.blockAt placed_at
    have hdAt : BlockAt h.mem (x + b.size) d := hw.toTiled.blockAt_behind₂ hxp
    have hblt := ht.size_lt (b := b) (by simp)
    have hrem : remainingSize h x n = (b.size : ℤ) - bodySize n := by
      rw [remainingSize, hbAt.getSize_hdrp]
      exact wrapSigned_of_bounds (w := 31) (by omega) (by omega)
    have hneg : remainingSize h x n < 0 := by omega
    obtain ⟨-, -, -, hexp⟩ := ht.expandableSize_eq (n := n) (by simp) hxp' hneg
    have hroom : bodySize n - b.size ≤
        extent Block.size (freeRun (bodySize n - b.size) 0 (d :: post)) := by
      by_contra hshort
      refine hext ⟨hn0, hneg, ?_, _, hexp, by omega⟩
      rw [hbAt.nextBlkp, hdAt.isBlockAllocated]
      simpa using hd
    obtain ⟨g, bs₁, hgrow, hr⟩ := reallocNext_resized ht (by simp) (by simp) hxp' hn hlt hroom
    rw [hgrow] at hnext
    obtain ⟨rfl, -⟩ := Prod.mk.inj (Option.some.inj hnext)
    rw [show (pre ++ [p]) ++ b :: d :: post = pre ++ p :: b :: d :: post by simp] at hr
    exact ⟨bs₁, hr⟩

end Retile

/-- In every well-formed heap, a call of `mm_realloc` that returns a pointer without extending the
heap itself leaves a tiled heap and a block with room for the request, and every other allocated
block keeps its place, its size and its payload. -/
theorem realloc_tiles {h h' : Heap} {p q m : ℕ} {b : Block} (hw : WellFormed h)
    (hb : AllocatedAt h p b) (hm1 : 1 ≤ m) (hm : m + 15 + padding < 2 ^ 31)
    (hext : ¬extendsBehind h p m) (heq : mmRealloc h p m = some (h', q)) (hq : q ≠ null) :
    (∃ bs', Tiled h' bs') ∧ (∃ c, AllocatedAt h' q c ∧ m + 8 ≤ c.size) ∧
      ∀ y c, AllocatedAt h y c → y ≠ p → (∃ c', AllocatedAt h' y c' ∧ c'.size = c.size) ∧
        ∀ w, y ≤ w → w + 8 < y + c.size → h'.mem w = h.mem w := by
  obtain ⟨bs, hw⟩ := hw
  have hp := hw.allocatedAt_iff.mp ⟨b, hb, rfl⟩
  obtain ⟨bs', hr⟩ := mmRealloc_resized hw hp (by omega) hm hext heq hq
  refine ⟨⟨bs', hr.tiled⟩, ?_, ?_⟩
  · obtain ⟨k, hk, hocc⟩ := hr.occupied
    obtain ⟨c, hc, rfl⟩ := hr.tiled.allocatedAt_iff.mpr (hr.listp.symm ▸ hocc)
    exact ⟨c, hc, hk⟩
  · intro y c hc hyp
    have hocc := hw.allocatedAt_iff.mp ⟨c, hc, rfl⟩
    have hy : y ∉ ({p, q} : Set ℕ) := by
      rintro (rfl | rfl)
      · exact hyp rfl
      · exact hr.fresh hyp _ hocc
    refine ⟨?_, hr.frame.payload y c.size hy hocc⟩
    exact hr.tiled.allocatedAt_iff.mpr (hr.listp.symm ▸ (hr.frame.occupied y c.size hy).mpr hocc)

/-- A block absorbs the free block behind it, at which the roving pointer is. -/
theorem realloc_tiles_absorbing : ∃ s h', run Session.step (Session.begin (fun _ => 0) 4096)
    [.malloc 16, .malloc 16, .free 4136] = some s ∧ mmRealloc s.heap 4112 100 = some (h', 4112) ∧
      (∃ bs', Tiled h' bs') ∧ (∃ c, AllocatedAt h' 4112 c ∧ 100 + 8 ≤ c.size) ∧
        ∀ y c, AllocatedAt s.heap y c → y ≠ 4112 → (∃ c', AllocatedAt h' y c' ∧ c'.size = c.size) ∧
          ∀ w, y ≤ w → w + 8 < y + c.size → h'.mem w = s.heap.mem w := by
  have hk : run Sketch.step (Sketch.begin 4096) [.malloc 16, .malloc 16, .free 4136] =
      some ⟨⟨4096, [Block.prologue, ⟨24, true, false, rfl⟩, ⟨4072, false, false, rfl⟩,
        Block.epilogue false], 4136⟩, [(4112, 16)]⟩ := by decide
  obtain ⟨s, hrun, hs⟩ := (Shows.begin _ (by decide)).run hk
  have ht : Tiled s.heap ([] ++ Block.prologue :: ⟨24, true, false, rfl⟩ ::
      [⟨4072, false, false, rfl⟩] ++ [Block.epilogue false]) := hs.refines.toTiled
  have ht' : Tiled s.heap ([Block.prologue] ++ ⟨24, true, false, rfl⟩ ::
      [⟨4072, false, false, rfl⟩, Block.epilogue false]) := ht
  have hx : 4112 = s.heap.heapListp + extent Block.size [Block.prologue] := by
    rw [hs.refines.first]
    rfl
  have hb : AllocatedAt s.heap 4112 ⟨24, true, false, rfl⟩ :=
    hs.allocatedAt (by decide) rfl (by decide)
  have hbody : bodySize 100 = 240 := by decide
  obtain ⟨h', -, hm, -⟩ := mmRealloc_absorbs (n := 100) ht
    (by rw [hbody]; rfl) (by simp) hx (by decide) (by decide) (by rw [hbody]; decide)
    (by rw [hbody]; decide)
  have hext : ¬extendsBehind s.heap 4112 100 := by
    rintro ⟨-, hneg, -, e, he, hlt⟩
    obtain ⟨-, -, -, hroom⟩ := ht'.expandableSize_eq (n := 100) (by simp) hx hneg
    rw [hroom, hbody] at he
    obtain rfl := Option.some.inj he
    exact absurd hlt (by decide)
  exact ⟨s, h', hrun, hm, realloc_tiles ⟨_, hs.refines.toWellFormedAs⟩ hb (by decide) (by decide)
    hext hm (by decide)⟩

end SystemsLabs.Malloc
