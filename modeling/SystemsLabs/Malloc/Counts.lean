import SystemsLabs.Malloc.Checker

/-!
# The expected counts

The `DEBUG` build adjusts its counters where the block list changes. `extend_heap` counts a new
block which it does not count as free, `coalesce` takes off what it joins, `place` counts the
remainder, and `mm_malloc` takes off the free block that the search found. The sums over the
paths of a call agree with the block list, so `mm_check` finds the expected number of allocated
blocks.
-/

namespace SystemsLabs.Malloc
open Library

/-! ### The counters and the block list -/

/-- The counters agree with a block list, but for `d` free blocks that are not counted as free.
Neither the prologue nor the epilogue is counted. -/
structure Counted (h : Heap) (bs : List Block) (d : ℤ) : Prop where
  numBlocks : h.numExpectedBlocks + 2 = bs.length
  numFree : h.numExpectedFreeBlocks + d = freeCount bs

section Lists

variable {b n : Block} {post : List Block} {asize : ℕ}

/-- `coalesce` takes off as many blocks as it joins. -/
lemma length_join (p b n : Block) (post : List Block) :
    (joinPrev p (joinNext b (n :: post))).length + joinCount p n = (p :: b :: n :: post).length := by
  unfold joinPrev joinNext joinCount
  cases hpk : p.closed <;> cases hna : n.alloc <;> simp [hna]

/-- All the blocks that `coalesce` takes off are free. -/
lemma freeCount_join (p n : Block) (post : List Block) (hb : b.alloc = false) :
    freeCount (joinPrev p (joinNext b (n :: post))) + joinCount p n =
      freeCount (p :: b :: n :: post) := by
  unfold joinPrev joinNext joinCount Block.closed
  cases hpa : p.alloc <;> cases hpt : p.tag <;> cases hna : n.alloc <;> simp [hb, hpa, hna]

lemma length_carve (b : Block) (hmod : asize % 8 = 0) : 1 ≤ (b.carve asize hmod).length := by
  unfold Block.carve
  split <;> simp

lemma freeCount_carve (b : Block) (hmod : asize % 8 = 0) :
    freeCount (b.carve asize hmod) + 1 = (b.carve asize hmod).length := by
  unfold Block.carve
  split <;> simp

end Lists

/-! ### What the functions do to the counters -/

section Functions

variable {h h' : Heap} {pre post l r bs : List Block} {p b c n : Block} {t : Bool}
  {d : ℤ} {x k s e size : ℕ} {m : Memory}

lemma Counted.congr (hc : Counted h bs d) (hblocks : h'.numExpectedBlocks = h.numExpectedBlocks)
    (hfree : h'.numExpectedFreeBlocks = h.numExpectedFreeBlocks) : Counted h' bs d :=
  ⟨hblocks ▸ hc.numBlocks, hfree ▸ hc.numFree⟩

lemma Counted.count (hc : Counted h bs d) (k : ℤ) : Counted (countBlocks h 0 k) bs (d - k) := by
  have hblocks := hc.numBlocks
  have hfree := hc.numFree
  constructor
  · simp only [countBlocks]
    omega
  · simp only [countBlocks]
    omega

/-- `coalesce`, whatever free blocks are not counted. -/
lemma Counted.join (hc : Counted h (pre ++ p :: b :: n :: post) d) (hb : b.alloc = false) :
    Counted (joinedHeap h m s e (joinCount p n)) (pre ++ joinPrev p (joinNext b (n :: post))) d := by
  have hlen := length_join p b n post
  have hfree := freeCount_join p n post hb
  have hblocks := hc.numBlocks
  have hcount := hc.numFree
  rw [List.length_append] at hblocks
  rw [freeCount_append] at hcount
  constructor
  · rw [List.length_append]
    simp only [joinedHeap]
    omega
  · rw [freeCount_append]
    simp only [joinedHeap]
    omega

/-- `extend_heap` counts the new block, but not as a free one. -/
lemma Counted.grow (hc : Counted h (pre ++ [p, Block.epilogue t]) 0) (halloc : c.alloc = false)
    (hbrk : ℕ) : Counted (joinedHeap (countBlocks { h with memBrk := hbrk } 1 0) m s e
      (joinCount p (Block.epilogue false))) (grownList pre p c) 1 := by
  apply Counted.join _ halloc
  have hblocks := hc.numBlocks
  have hcount := hc.numFree
  simp only [List.length_append, List.length_cons, List.length_nil] at hblocks
  simp only [freeCount_append, freeCount_cons, freeCount_nil, Block.epilogue_alloc] at hcount
  constructor
  · simp only [countBlocks, List.length_append, List.length_cons, List.length_nil]
    omega
  · simp only [countBlocks, freeCount_append, freeCount_cons, freeCount_nil, Block.epilogue_alloc,
      halloc]
    simp at hcount ⊢
    omega

/-- `place` counts the remainder, but the block that it takes is still counted as free. -/
lemma Counted.place (hc : Counted h (l ++ b :: r) d) (ht : Tiled h (l ++ b :: r))
    (hx : x = h.heapListp + extent Block.size l) (hb : b.alloc = false) (hmod : size % 8 = 0)
    (h16 : 16 ≤ size) (hle : size ≤ b.size) :
    Counted (Malloc.place h x size) (l ++ b.carve size hmod ++ r) (d - 1) := by
  have hlistp := ht.listp
  have hlt := ht.size_lt (b := b) (by simp)
  subst hx
  obtain ⟨m, heq, -⟩ := place_blocks hmod (ht.blockAt placed_at) (by omega) h16 hle (by omega)
  have hlen := length_carve b hmod
  have hfree := freeCount_carve b hmod
  have hblocks := hc.numBlocks
  have hcount := hc.numFree
  simp only [List.length_append, List.length_cons] at hblocks
  simp only [freeCount_append, freeCount_cons, hb, if_true] at hcount
  rw [heq]
  constructor
  · simp only [countBlocks, List.length_append]
    omega
  · simp only [countBlocks, freeCount_append]
    omega

/-- `mm_malloc` counts right on every path. -/
theorem Counted.malloc (hc : Counted h bs 0) (hw : WellFormedAs h bs) (hn : k + 15 < 2 ^ 32)
    (hm : mmMalloc h k = some (h', x)) : ∃ bs', WellFormedAs h' bs' ∧ Counted h' bs' 0 := by
  obtain ⟨hmod, h16, hroom, hmax, -⟩ := adjustSize_spec hn
  rcases mmMalloc_cases hw hn rfl hmod with ⟨hfail, -⟩ | ⟨hk, hfit | hext⟩
  · -- nothing changed
    rw [hfail] at hm
    obtain ⟨rfl, -⟩ := Prod.mk.inj (Option.some.inj hm)
    exact ⟨bs, hw, hc⟩
  · -- a free block was found
    obtain ⟨h₁, l, b, r, heq, rfl, hfound, -, he⟩ := hfit
    rw [heq] at hm
    obtain ⟨rfl, rfl⟩ := Prod.mk.inj (Option.some.inj hm)
    rw [mmMalloc_fits hw hk hfound] at heq
    obtain ⟨rfl, -⟩ := Prod.mk.inj (Option.some.inj heq)
    obtain ⟨-, hfits⟩ := seek_some hfound
    simp only [Block.fits, Bool.and_eq_true, decide_eq_true_eq, Bool.not_eq_true'] at hfits
    set cur := (seek (adjustSize k) h.heapListp (l ++ b :: r) h.currentBlock).2
    have hcur : WellFormedAs { h with currentBlock := cur } (l ++ b :: r) :=
      hw.congr_current (seek_start hw.framed hw.current)
    have hsame : Counted { h with currentBlock := cur } (l ++ b :: r) 0 := hc.congr rfl rfl
    have hplace := hsame.place hcur.toTiled rfl hfits.1.2 hmod h16 hfits.1.1
    exact ⟨_, he.wellFormed, by simpa using hplace.count (-1)⟩
  · -- the heap was extended
    obtain ⟨h₁, pre, p, t, c, heq, rfl, hfound, hspace, hcsize, hca, hct, -, he⟩ := hext
    rw [heq] at hm
    obtain ⟨rfl, rfl⟩ := Prod.mk.inj (Option.some.inj hm)
    have halign := align_extend hmod hmax
    rw [← hcsize] at halign hspace
    have hsizes : 16 ≤ c.size ∧ c.size < 2 ^ 32 := by
      simp only [chunksize] at hcsize
      omega
    rcases extendHeap_joins hw halign hsizes.1 hsizes.2 hca hct with ⟨-, hno⟩ | ⟨m, hgrow, -, -, hev⟩
    · omega
    have hx : joinStart (h.heapListp + extent Block.size pre) p ≠ null := by
      have hlistp := hw.listp
      simp only [joinStart, null]
      split <;> omega
    rw [mmMalloc_extends hw hk hfound, ← hcsize, hgrow, if_neg hx] at heq
    obtain ⟨rfl, -⟩ := Prod.mk.inj (Option.some.inj heq)
    obtain ⟨hla, -, hlsize⟩ := lastGrown_spec p hca hct
    have ht := hev.wellFormed.toTiled
    have hgrown := hc.grow (m := m) (s := joinStart (h.heapListp + extent Block.size pre) p)
      (e := joinEnd (h.heapListp + extent Block.size pre) p c (Block.epilogue false)) hca
      (h.memBrk + c.size)
    rw [grownList_eq] at ht hgrown
    exact ⟨_, he.wellFormed,
      hgrown.place ht (joinStart_eq h.heapListp pre p) hla hmod h16 (by omega)⟩

/-- `mm_free` counts the block as a free one before it is joined. -/
theorem Counted.free (hc : Counted h bs 0) (hw : WellFormedAs h bs)
    (hx : Occupied h.heapListp bs x k) :
    ∃ bs', WellFormedAs (mmFree h x) bs' ∧ Counted (mmFree h x) bs' 0 := by
  obtain ⟨pre, p, b, n, post, rfl, hxp, hb, -⟩ := hw.split_occupied hx
  obtain ⟨m, heq, hw', -⟩ := mmFree_spec hw hb hxp
  refine ⟨_, hw', ?_⟩
  rw [heq]
  have hfreed : Counted (countBlocks h 0 1) (pre ++ p :: b.freed :: n.withTag false :: post) 0 := by
    have hblocks := hc.numBlocks
    have hfree := hc.numFree
    have hb' : b.freed.alloc = false := rfl
    have hn : (n.withTag false).alloc = n.alloc := rfl
    simp only [List.length_append, List.length_cons] at hblocks
    simp only [freeCount_append, freeCount_cons, hb] at hfree
    constructor
    · simpa [countBlocks] using hblocks
    · simp only [countBlocks, freeCount_append, freeCount_cons, hb', hn]
      simp at hfree ⊢
      omega
  exact hfreed.join rfl

end Functions

/-! ### Sessions -/

/-- The blocks between the prologue and the epilogue. -/
def ordinaryBlocks (h : Heap) : List Block := ((blockList h).map Prod.snd).tail.dropLast

section Sessions

variable {s s' : Session} {h : Heap} {bs : List Block} {c : Call}

/-- The counters are the numbers of the ordinary blocks and of the free ones among them. -/
lemma Counted.ordinary (hc : Counted h bs 0) (ht : Tiled h bs) :
    h.numExpectedBlocks = (ordinaryBlocks h).length ∧
      h.numExpectedFreeBlocks = freeCount (ordinaryBlocks h) := by
  have hblocks := hc.numBlocks
  have hfree := hc.numFree
  unfold ordinaryBlocks
  rw [ht.blockList_eq, map_snd_placed]
  obtain ⟨os, t, rfl, -⟩ := ht.framed
  rw [List.tail_cons, List.dropLast_concat]
  simp only [List.length_cons, List.length_append, List.length_nil] at hblocks
  simp only [freeCount_cons, freeCount_append, freeCount_nil] at hfree
  constructor
  · omega
  · simpa using hfree

/-- The comparison of `mm_check` with the counters never complains. -/
lemma Counted.matched (hc : Counted h bs 0) (hw : WellFormedAs h bs) :
    ∃ r, mmCheck h = some r ∧ ∀ expected actual, .notMatched expected actual ∉ r.complaints h := by
  obtain ⟨b, hb, -⟩ := hw.current
  obtain ⟨l, r, rfl, hx⟩ := mem_placed_iff.mp hb
  refine ⟨_, hw.toTiled.mmCheck_eq hx, ?_⟩
  have hblocks := hc.numBlocks
  have hfree := hc.numFree
  have hequal : h.numExpectedBlocks - h.numExpectedFreeBlocks =
      ((l ++ b :: r).length : ℤ) - 2 - freeCount (l ++ b :: r) := by omega
  intro expected actual
  simp [Report.complaints, hequal]

lemma mmInit_counts (h : Heap) : (mmInit h).1.numExpectedBlocks = 0 ∧
    (mmInit h).1.numExpectedFreeBlocks = 0 := by
  unfold mmInit memSbrk
  dsimp only
  split_ifs <;> exact ⟨rfl, rfl⟩

lemma Counted.begin (mem : Memory) (start : ℕ) :
    Counted (Session.begin mem start).heap (Outline.init start).blocks 0 := by
  obtain ⟨g, hg⟩ : ∃ g, g = memInit mem start := ⟨_, rfl⟩
  have hinit := mmInit_counts g
  constructor
  · simp only [Session.begin, ← hg, hinit.1]
    simp [Outline.init]
  · simp only [Session.begin, ← hg, hinit.2]
    simp [Outline.init]

lemma Counted.step (hs : Sound s bs) (hc : Counted s.heap bs 0) (hplain : c.Plain)
    (hstep : s.step c = some s') : ∃ bs', Sound s' bs' ∧ Counted s'.heap bs' 0 := by
  obtain ⟨bs', hs', -⟩ := hs.step hplain.noWrap (hplain.safe s) hstep
  refine ⟨bs', hs', ?_⟩
  cases c with
  | malloc n =>
    obtain ⟨h', p, hm, hcase⟩ := Session.step_malloc.mp hstep
    have hheap : s'.heap = h' := by
      obtain ⟨-, rfl⟩ | ⟨-, rfl⟩ := hcase <;> rfl
    obtain ⟨bs₁, hw₁, hc₁⟩ := hc.malloc hs.wellFormed hplain hm
    have hw' := hs'.wellFormed
    rw [hheap] at hw' ⊢
    rwa [hw'.toTiled.unique hw₁.toTiled]
  | free p =>
    obtain ⟨a, hp, rfl⟩ := Session.step_free.mp hstep
    obtain ⟨k, -, hocc⟩ := hs.occupied_of_find hp
    obtain ⟨bs₁, hw₁, hc₁⟩ := hc.free hs.wellFormed hocc
    rwa [hs'.wellFormed.toTiled.unique hw₁.toTiled]
  | realloc p n => exact hplain.elim
  | write p i v =>
    obtain ⟨a, hp, hi, rfl⟩ := Session.step_write.mp hstep
    obtain ⟨-, hs₁⟩ := hs.write (v := v) hp hi (Function.update a.written i (some v))
    rw [hs'.wellFormed.toTiled.unique hs₁.wellFormed.toTiled]
    exact hc.congr rfl rfl

end Sessions

/-- Along runs without `mm_realloc` the counters of the `DEBUG` build are the numbers of blocks,
and `mm_check` finds the expected number of allocated ones. -/
theorem counters_of_reaches {mem : Memory} {start : ℕ} {s : Session} (halign : start % 8 = 0)
    (h : Reaches Session.step (fun _ c => c.Plain) (Session.begin mem start) s) :
    s.heap.numExpectedBlocks = (ordinaryBlocks s.heap).length ∧
      s.heap.numExpectedFreeBlocks = freeCount (ordinaryBlocks s.heap) ∧
      ∃ r, mmCheck s.heap = some r ∧
        ∀ expected actual, .notMatched expected actual ∉ r.complaints s.heap := by
  obtain ⟨bs, hs, hc⟩ := h.invariant (fun s => ∃ bs, Sound s bs ∧ Counted s.heap bs 0)
    ⟨_, Sound.begin halign, Counted.begin mem start⟩ (by
      rintro s c s' ⟨bs, hs, hc⟩ hplain hstep
      exact hc.step hs hplain hstep)
  obtain ⟨hblocks, hfree⟩ := hc.ordinary hs.wellFormed.toTiled
  exact ⟨hblocks, hfree, hc.matched hs.wellFormed⟩

theorem counters_after_free : ∃ s r, run Session.step (Session.begin (fun _ => 0) 4096)
    [.malloc 16, .malloc 5000, .write 4112 3 7, .free 4112] = some s ∧
      s.heap.numExpectedFreeBlocks = freeCount (ordinaryBlocks s.heap) ∧ mmCheck s.heap = some r := by
  have hk : run Sketch.step (Sketch.begin 4096)
      [.malloc 16, .malloc 5000, .write 4112 3 7, .free 4112] =
      some ⟨⟨4096, [Block.prologue, ⟨24, false, false, rfl⟩, ⟨5008, true, false, rfl⟩,
        ⟨4072, false, false, rfl⟩, Block.epilogue false], 4104⟩, [(4136, 5000)]⟩ := by
    decide
  obtain ⟨s, hrun, -⟩ := (Shows.begin _ (by decide)).run hk
  obtain ⟨-, hfree, r, hr, -⟩ := counters_of_reaches (by decide)
    (reaches_of_run (by simp [Call.Plain]) hrun)
  exact ⟨s, r, hrun, hfree, hr⟩

end SystemsLabs.Malloc
