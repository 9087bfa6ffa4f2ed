import SystemsLabs.Malloc.Refusal

/-!
# Serving a request

`find_fit` misses no block: it takes the first fit from the roving pointer on, and else the best
one in front of it. `mm_malloc` leaves no trace when it fails. It hands out blocks with room for
the request exactly as long as the rounding of the request does not wrap.
-/

namespace SystemsLabs.Malloc
open Library

variable {h : Heap} {bs : List Block} {asize n : ℕ}

/-! ### `find_fit` -/

/-- A free untagged block of at least `asize` bytes starts at `x`. -/
def FitsAt (h : Heap) (asize x : ℕ) (b : Block) : Prop :=
  (x, b) ∈ blockList h ∧ b.alloc = false ∧ b.tag = false ∧ asize ≤ b.size

lemma Tiled.fitsAt_iff (ht : Tiled h bs) {x : ℕ} {b : Block} :
    FitsAt h asize x b ↔ (x, b) ∈ placed Block.size h.heapListp bs ∧ b.fits asize = true := by
  unfold FitsAt Block.fits
  rw [ht.blockList_eq]
  simp only [Bool.and_eq_true, decide_eq_true_eq, Bool.not_eq_true']
  tauto

/-- The search of a tiled heap whose roving pointer is at a block, the epilogue included. It fails
exactly where no block fits. A fit from the roving pointer on is taken in the order of the
addresses, and the roving pointer moves to it. Without one, the roving pointer stays and a smallest
fit in front of it is taken, the lowest one among equals. -/
theorem findFit_complete (ht : ∃ bs, Tiled h bs)
    (hcur : ∃ b, (h.currentBlock, b) ∈ blockList h) :
    ∃ h' q, findFit h asize = some (h', q) ∧
      (q = null ↔ ∀ x b, ¬FitsAt h asize x b) ∧
      (∀ x b, FitsAt h asize x b → h.currentBlock ≤ x →
        (∃ c, FitsAt h asize q c) ∧ h.currentBlock ≤ q ∧ q ≤ x ∧ h' = { h with currentBlock := q }) ∧
      ((∀ x b, FitsAt h asize x b → x < h.currentBlock) → h' = h ∧ (q ≠ null →
        ∃ b, FitsAt h asize q b ∧ q < h.currentBlock ∧ ∀ x c, FitsAt h asize x c →
          b.size < c.size ∨ b.size = c.size ∧ q ≤ x)) := by
  obtain ⟨bs, ht⟩ := ht
  obtain ⟨b, hcur⟩ := hcur
  rw [ht.blockList_eq] at hcur
  have hlistp := ht.listp
  have hpos : ∀ {q : ℕ × Block}, (seek asize h.heapListp bs h.currentBlock).1 = some q →
      q.1 ≠ null := fun {q} hq => by
    have := le_of_mem_placed (seek_some hq).1
    simp only [null]
    omega
  refine ⟨_, _, ht.findFit_seek hcur asize, ?_, ?_, ?_⟩
  · cases hs : (seek asize h.heapListp bs h.currentBlock).1 with
    | none =>
      refine ⟨fun _ x b hb => ?_, fun _ => rfl⟩
      obtain ⟨hmem, hfit⟩ := ht.fitsAt_iff.mp hb
      rw [(seek_none hs).2 b (mem_of_mem_placed hmem)] at hfit
      cases hfit
    | some q =>
      refine ⟨fun hnull => absurd hnull (hpos hs), fun hno => ?_⟩
      exact absurd (ht.fitsAt_iff.mpr (seek_some hs)) (hno q.1 q.2)
  · intro x b hb hx
    obtain ⟨hmem, hfit⟩ := ht.fitsAt_iff.mp hb
    obtain ⟨r, hr, hrmem, hrfit, hcurr, hle⟩ := seek_behind hmem hfit hx
    rw [hr]
    exact ⟨⟨r.2, ht.fitsAt_iff.mpr ⟨hrmem, hrfit⟩⟩, hcurr, hle, rfl⟩
  · intro hno
    have hfront : ∀ q ∈ placed Block.size h.heapListp bs, q.2.fits asize = true →
        q.1 < h.currentBlock := fun q hq hfit => hno q.1 q.2 (ht.fitsAt_iff.mpr ⟨hq, hfit⟩)
    obtain ⟨hstay, hsmall⟩ := seek_front hfront
    rw [hstay]
    refine ⟨rfl, fun hnull => ?_⟩
    cases hs : (seek asize h.heapListp bs h.currentBlock).1 with
    | none =>
      rw [hs] at hnull
      exact absurd rfl hnull
    | some q =>
      have hq := ht.fitsAt_iff.mpr (seek_some hs)
      refine ⟨q.2, hq, hno q.1 q.2 hq, fun x c hc => ?_⟩
      obtain ⟨hmem, hfit⟩ := ht.fitsAt_iff.mp hc
      exact hsmall q hs (x, c) hmem hfit

/-- The roving pointer is behind the only block that fits. -/
theorem findFit_freed : ∃ s h', run Session.step (Session.begin (fun _ => 0) 4096)
    [.malloc 4072, .malloc 8, .free 4112] = some s ∧ s.heap.currentBlock = 8192 ∧
      findFit s.heap 24 = some (h', 4112) := by
  have hk : run Sketch.step (Sketch.begin 4096) [.malloc 4072, .malloc 8, .free 4112] =
      some ⟨⟨4096, [Block.prologue, ⟨4080, false, false, rfl⟩, ⟨16, true, false, rfl⟩,
        Block.epilogue false], 8192⟩, [(8192, 8)]⟩ := by decide
  obtain ⟨s, hrun, hs⟩ := (Shows.begin _ (by decide)).run hk
  have hlist : blockList s.heap = [(4104, Block.prologue), (4112, ⟨4080, false, false, rfl⟩),
      (8192, ⟨16, true, false, rfl⟩), (8208, Block.epilogue false)] := hs.refines.blockList_eq
  have hfit : ∀ {x b}, FitsAt s.heap 24 x b → x = 4112 := by
    rintro x b ⟨hmem, hfree, -, -⟩
    rw [hlist] at hmem
    simp only [List.mem_cons, Prod.mk.injEq, List.not_mem_nil, or_false] at hmem
    rcases hmem with ⟨-, rfl⟩ | ⟨rfl, -⟩ | ⟨-, rfl⟩ | ⟨-, rfl⟩
    · cases hfree
    · rfl
    · cases hfree
    · cases hfree
  have hcur : s.heap.currentBlock = 8192 := hs.refines.roving
  obtain ⟨h', q, heq, hnull, -, hfront⟩ := @findFit_complete s.heap 24
    ⟨_, hs.refines.toTiled⟩ ⟨⟨16, true, false, rfl⟩, by rw [hlist, hcur]; decide⟩
  have hq : q ≠ null := fun hq => hnull.mp hq 4112 ⟨4080, false, false, rfl⟩
    ⟨by rw [hlist]; decide, rfl, rfl, by decide⟩
  obtain ⟨-, hsmall⟩ := hfront fun x b hb => by rw [hfit hb, hcur]; decide
  obtain ⟨b, hb, -⟩ := hsmall hq
  rw [hfit hb] at heq
  exact ⟨s, h', hrun, hcur, heq⟩

/-! ### Failing requests -/

lemma Tiled.sbrkRefuses_iff (ht : Tiled h bs) {words : ℕ} (hmod : words % 8 = 0)
    (hlt : words + 7 < 2 ^ 32) : sbrkRefuses h words ↔ h.memMaxAddr < h.memBrk + words := by
  have halign : align words = words := by
    rw [align_eq hlt]
    omega
  have hmax := ht.maxAddr
  have hlistp := ht.listp
  have hbrk := ht.brk
  simp only [maxHeap] at hmax
  unfold sbrkRefuses memSbrk
  simp only [halign, ite_eq_left_iff, reduceCtorEq, imp_false, not_not]
  rcases Nat.lt_or_ge words (2 ^ 31) with hsmall | hbig
  · rw [show toInt words = words from wrapSigned_of_bounds (w := 31) (by omega) (by omega)]
    omega
  · have hneg : toInt words < 0 := wrapSigned_neg (w := 31) (by omega) (by omega)
    omega

/-- A request that does not wrap ends. It fails exactly when it asks for no byte, or when no block
fits and `mem_sbrk` refuses the extension, and then it changes neither a byte nor the break nor the
roving pointer. -/
theorem malloc_failsAtomically (hw : WellFormed h) (hn : n + 15 < 2 ^ 32) :
    ∃ h' q, mmMalloc h n = some (h', q) ∧
      (q = null ↔ n = 0 ∨ (∀ x b, ¬FitsAt h (adjustSize n) x b) ∧
        sbrkRefuses h (max (adjustSize n) chunksize)) ∧
      (q = null → h'.mem = h.mem ∧ h'.memBrk = h.memBrk ∧ h'.currentBlock = h.currentBlock) := by
  obtain ⟨bs, hw⟩ := hw
  have hlistp := hw.listp
  obtain ⟨hmod, h16, -, hlt, -⟩ := adjustSize_spec hn
  have hrefuse : sbrkRefuses h (max (adjustSize n) chunksize) ↔
      h.memMaxAddr < h.memBrk + max (adjustSize n) chunksize := by
    apply hw.toTiled.sbrkRefuses_iff <;> (simp only [chunksize]; omega)
  rw [hrefuse]
  rcases mmMalloc_cases hw hn rfl hmod with ⟨hfail, hcause⟩ | ⟨hn0, hfit | hext⟩
  · refine ⟨h, null, hfail, ⟨fun _ => hcause.imp_right ?_, fun _ => rfl⟩, fun _ => ⟨rfl, rfl, rfl⟩⟩
    rintro ⟨hnone, hroom⟩
    refine ⟨fun x b hb => ?_, hroom⟩
    obtain ⟨hmem, hfit⟩ := hw.toTiled.fitsAt_iff.mp hb
    rw [(seek_none hnone).2 b (mem_of_mem_placed hmem)] at hfit
    cases hfit
  · obtain ⟨h', l, b, r, heq, -, hfound, -, -⟩ := hfit
    have hnull : h.heapListp + extent Block.size l ≠ null := by
      simp only [null]
      omega
    refine ⟨h', _, heq, ⟨fun hq => absurd hq hnull, ?_⟩, fun hq => absurd hq hnull⟩
    rintro (hzero | ⟨hno, -⟩)
    · exact absurd hzero hn0
    · exact absurd (hw.toTiled.fitsAt_iff.mpr (seek_some hfound)) (hno _ b)
  · obtain ⟨h', pre, p, t, c, heq, -, -, hroom, -⟩ := hext
    have hnull : joinStart (h.heapListp + extent Block.size pre) p ≠ null := by
      simp only [joinStart, null]
      split <;> omega
    refine ⟨h', _, heq, ⟨fun hq => absurd hq hnull, ?_⟩, fun hq => absurd hq hnull⟩
    rintro (hzero | ⟨-, hno⟩)
    · exact absurd hzero hn0
    · exact absurd hno (not_lt.mpr hroom)

theorem malloc_fails_large : ∃ s h', run Session.step (Session.begin (fun _ => 0) 4096)
    [.malloc 16] = some s ∧ mmMalloc s.heap 33554432 = some (h', null) ∧ h'.mem = s.heap.mem ∧
      h'.memBrk = s.heap.memBrk ∧ h'.currentBlock = s.heap.currentBlock := by
  have hk : run Sketch.step (Sketch.begin 4096) [.malloc 16] =
      some ⟨⟨4096, [Block.prologue, ⟨24, true, false, rfl⟩, ⟨4072, false, false, rfl⟩,
        Block.epilogue false], 4104⟩, [(4112, 16)]⟩ := by decide
  obtain ⟨s, hrun, hs⟩ := (Shows.begin _ (by decide)).run hk
  have hlist : blockList s.heap = [(4104, Block.prologue), (4112, ⟨24, true, false, rfl⟩),
      (4136, ⟨4072, false, false, rfl⟩), (8208, Block.epilogue false)] := hs.refines.blockList_eq
  have hasize : adjustSize 33554432 = 33554440 := by decide
  obtain ⟨h', q, heq, hnull, hkeep⟩ := malloc_failsAtomically (n := 33554432)
    ⟨_, hs.refines.toWellFormedAs⟩ (by decide)
  have hq : q = null := by
    rw [hnull, hasize]
    refine Or.inr ⟨fun x b hb => ?_, ?_⟩
    · obtain ⟨hmem, -, -, hsize⟩ := hb
      rw [hlist] at hmem
      have hbound : ∀ c ∈ ([(4104, Block.prologue), (4112, ⟨24, true, false, rfl⟩),
          (4136, ⟨4072, false, false, rfl⟩), (8208, Block.epilogue false)] : List (ℕ × Block)),
          c.2.size < 33554440 := by decide
      exact absurd (hbound _ hmem) (not_lt.mpr hsize)
    · apply sbrkRefuses_of_room (by decide) (by decide)
      rw [hs.refines.maxAddr, hs.refines.brk_eq, hs.refines.start]
      decide
  subst hq
  exact ⟨s, h', hrun, heq, hkeep rfl⟩

/-! ### Requests that wrap -/

/-- `mm_malloc` rounds the request up, places no block below the minimal size, and returns `NULL` or
a block with room for the request and its boundary tags. -/
structure Serves (h : Heap) (n : ℕ) : Prop where
  rounded : n ≤ adjustSize n
  placed : ∀ h' q, mmMalloc h n = some (h', q) → q ≠ null → 16 ≤ adjustSize n
  room : ∃ h' q, mmMalloc h n = some (h', q) ∧ (q = null ∨ getSize h'.mem (hdrp q) % 8 = 0 ∧
    16 ≤ getSize h'.mem (hdrp q) ∧ n + 8 ≤ getSize h'.mem (hdrp q))

/-- The rounding of a request near `2 ^ 32` wraps to at most eight bytes. -/
lemma adjustSize_wrapped (hn : 2 ^ 32 ≤ n + 15) (hlt : n < 2 ^ 32) : adjustSize n ≤ 8 := by
  have hinner : toUnsigned ((n : ℤ) + (8 : ℕ) + ((8 : ℕ) - 1)) = n + 15 - 2 ^ 32 := by
    unfold toUnsigned wrapUnsigned
    omega
  unfold adjustSize
  rw [if_neg (by simp only [dsize]; omega)]
  simp only [dsize]
  rw [hinner]
  unfold toUnsigned wrapUnsigned
  omega

lemma mmMalloc_returns (hw : WellFormedAs h bs) (n : ℕ) : ∃ h' q, mmMalloc h n = some (h', q) := by
  have hlistp := hw.listp
  simp only [mmMalloc, if_neg (show ¬h.heapListp = 0 by omega), findFit_seek hw]
  split_ifs
  · exact ⟨_, _, rfl⟩
  · exact ⟨_, _, rfl⟩
  · exact ⟨_, _, rfl⟩
  · exact ⟨_, _, rfl⟩

lemma mmMalloc_fitting {g : Heap} {p : ℕ} (hlistp : h.heapListp ≠ 0) (hn : n ≠ 0)
    (hasize : adjustSize n = asize) (hfind : findFit h asize = some (g, p)) (hp : p ≠ null) :
    mmMalloc h n = some (countBlocks (place g p asize) 0 (-1), p) := by
  simp only [mmMalloc, if_neg hlistp, if_neg hn, hasize, hfind, if_pos hp]

/-- A block that is handed out for a request that wraps is too small for it. -/
lemma handedOut_wrapped {h' : Heap} {q : ℕ} (hn : 2 ^ 32 ≤ n + 15) :
    getSize h'.mem (hdrp q) < n + 8 := by
  have hword := loadWord_lt h'.mem (hdrp q)
  rw [getSize_eq]
  omega

end SystemsLabs.Malloc
