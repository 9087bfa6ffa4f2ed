import SystemsLabs.Malloc.Requests

/-!
# The size that `mm_realloc` returns

`mm_realloc` compares the size of the block with the rounded and padded request in 32-bit
arithmetic and takes the sign of the difference as an `int`. The block that it returns has at least
the computed size on every branch. The computed size is too small where the rounding wraps, and the
sign is wrong where the difference exceeds `2 ^ 31`.
-/

namespace SystemsLabs.Malloc
open Library

/-! ### Releasing a block in a heap that is not tiled -/

section Release

variable {h : Heap} {x s : ℕ} {b d : Block}

lemma putWithTag_apply_of_disjoint {m : Memory} {p v w : ℕ} (hw : w < p ∨ p + 4 ≤ w) :
    putWithTag m p v w = m w := storeWord_apply_of_disjoint hw

/-- `mm_free` of a block in front of an allocated one writes into the block, its boundary tags, the
header behind it and the header that the footer in front of it leads to. The rest of the heap does
not matter. -/
lemma mmFree_agree (hbAt : BlockAt h.mem x b) (hb16 : 16 ≤ b.size) (hlt : b.size < 2 ^ 32)
    (hnext : loadWord h.mem (x + b.size - 4) = d.header) (hd : d.alloc = true)
    (hdlt : d.size < 2 ^ 32) (hprev : getSize h.mem (x - 8) = s) (hs : 8 ≤ s) (hsx : s + 4 ≤ x)
    (hlistp : h.heapListp ≠ 0) {w : ℕ} (hw : w < x - s - 4 ∨ x - s ≤ w)
    (hw' : w < x - 4 ∨ x + b.size ≤ w) : (mmFree h x).mem w = h.mem w := by
  obtain ⟨m₁, hm₁⟩ : ∃ m, m = deleteTag h.mem (hdrp (x + b.size)) := ⟨_, rfl⟩
  have hm₁eq : m₁ = storeWord h.mem (x + b.size - 4) (d.withTag false).header := by
    rw [hm₁, deleteTag, hdrp, wsize, hnext, header_land_untag d (Block.header_lt hdlt)]
  have hx₁ : loadWord m₁ (x - 4) = b.header := by
    rw [hm₁eq, loadWord_storeWord_of_disjoint (by omega), hbAt.1]
  obtain ⟨hblock, hag⟩ := putWithTag_block (m := m₁) (x := x) (b := b.freed) (by omega)
    (by rw [Block.freed_size]; omega) hlt (by rw [Block.freed_tag]; exact getTag_header hx₁)
  obtain ⟨m₂, hm₂⟩ : ∃ m, m = putWithTag (putWithTag m₁ (hdrp x) (pack b.size 0))
      (ftrp (putWithTag m₁ (hdrp x) (pack b.size 0)) x) (pack b.size 0) := ⟨_, rfl⟩
  change BlockAt (putWithTag (putWithTag m₁ (hdrp x) (pack b.size 0))
      (ftrp (putWithTag m₁ (hdrp x) (pack b.size 0)) x) (pack b.size 0)) x b.freed at hblock
  change AgreeOutside (x - 4) (x + b.size - 4) m₁ (putWithTag (putWithTag m₁ (hdrp x)
      (pack b.size 0)) (ftrp (putWithTag m₁ (hdrp x) (pack b.size 0)) x) (pack b.size 0)) at hag
  rw [← hm₂] at hblock hag
  have hnextAlloc : getAlloc m₂ (hdrp (nextBlkp m₂ x)) ≠ 0 := by
    have hword : loadWord m₂ (x + b.size - 4) = (d.withTag false).header := by
      rw [loadWord_congr (m := m₁) fun y h1 h2 => hag y (by omega), hm₁eq,
        loadWord_storeWord (Block.header_lt (b := d.withTag false) hdlt)]
    rw [hblock.nextBlkp, Block.freed_size, hdrp, wsize, getAlloc_header hword, Block.withTag_alloc,
      hd]
    decide
  have hfooter : ∀ {v : ℕ}, prevBlkp (putWithTag m₂ (ftrp m₂ x) v) x = x - s := by
    intro v
    have hword : getSize (putWithTag m₂ (ftrp m₂ x) v) (x - 8) = s := by
      rw [getSize_eq, loadWord_congr (m := h.mem), ← getSize_eq, hprev]
      intro y h1 h2
      rw [putWithTag_apply_of_disjoint (by rw [hblock.ftrp, Block.freed_size]; omega),
        hag y (by omega), hm₁eq, storeWord_apply_of_disjoint (by omega)]
    rw [prevBlkp, dsize, hword]
  have hkeep : m₂ w = h.mem w := by
    rw [hag w (by omega), hm₁eq, storeWord_apply_of_disjoint (by omega)]
  -- the counters aside, `mm_free` is `coalesce` of the block marked free
  have hfree : ∃ g : Heap, g.mem = m₂ ∧ mmFree h x = (coalesce g x).1 := by
    obtain ⟨h₁, hh₁, hmem, hl⟩ : ∃ h₁ : Heap,
        h₁ = (if isBlockAllocated h.mem x then countBlocks h 0 1 else h) ∧ h₁.mem = h.mem ∧
          h₁.heapListp = h.heapListp := by
      refine ⟨_, rfl, ?_, ?_⟩ <;> split <;> rfl
    unfold mmFree
    rw [if_neg (show ¬x = 0 by omega)]
    dsimp only
    rw [← hh₁, if_neg (by rw [hl]; exact hlistp), hmem, hbAt.nextBlkp, hbAt.getSize_hdrp, ← hm₁]
    exact ⟨_, hm₂.symm, rfl⟩
  obtain ⟨g, rfl, hfree⟩ := hfree
  rw [hfree, ← hkeep]
  unfold coalesce
  simp only [hnextAlloc, ne_eq, not_false_eq_true, not_true_eq_false, and_true, and_false, if_false]
  split_ifs with hprevAlloc
  · rfl
  · -- the joined block starts where the footer in front leads to
    rw [hfooter]
    have hrepair : ∀ (g : Heap) (y : ℕ), (repairCurrent g y).mem = g.mem := by
      intro g y
      unfold repairCurrent
      split <;> rfl
    rw [hrepair]
    change putWithTag (putWithTag g.mem (ftrp g.mem x) _) (hdrp (x - s)) _ w = g.mem w
    rw [putWithTag_apply_of_disjoint (by simp only [hdrp, wsize]; omega),
      putWithTag_apply_of_disjoint (by rw [hblock.ftrp, Block.freed_size]; omega)]

end Release

/-! ### Copying a block -/

section Copy

variable {h h' : Heap} {bs l r pre post : List Block} {p b d e : Block} {x q k n body : ℕ}

/-- `mm_malloc` does not hand out the bytes directly in front of a block whose left neighbour does
not fit. -/
lemma mmMalloc_apart (hw : WellFormedAs h (pre ++ p :: b :: d :: post))
    (hx : x = h.heapListp + extent Block.size pre + p.size) (hd : d.size ≠ 0)
    (hp : ¬(p.alloc = false ∧ body ≤ p.size)) (hn : n + 15 < 2 ^ 32) (hbody : body ≤ adjustSize n)
    (heq : mmMalloc h n = some (h', q)) (hq : q ≠ null) :
    ∃ bs' k, HandsOut q (adjustSize n) h (pre ++ p :: b :: d :: post) h' bs' ∧
      adjustSize n ≤ k ∧ Occupied h.heapListp bs' q k ∧ q + k ≠ x := by
  obtain ⟨hmod, h16, -, -, -⟩ := adjustSize_spec hn
  have hfr : Framed ((pre ++ [p]) ++ b :: d :: post) := by simpa using hw.framed
  have hp8 := hfr.size_of_left (b := p) (by simp) (by simp)
  have hxb : (x, b) ∈ placed Block.size h.heapListp (pre ++ p :: b :: d :: post) := placed_behind hx
  have hyp : (h.heapListp + extent Block.size pre, p) ∈
    placed Block.size h.heapListp (pre ++ p :: b :: d :: post) := placed_at
  have hxd : (x + b.size, d) ∈ placed Block.size h.heapListp (pre ++ p :: b :: d :: post) :=
    mem_placed_iff.mpr ⟨pre ++ [p, b], post, by simp, by simp [hx, Nat.add_assoc]⟩
  rcases mmMalloc_cases hw hn rfl hmod with ⟨hfail, -⟩ | ⟨-, hfit | hext⟩
  · rw [hfail] at heq
    exact absurd (Prod.mk.inj (Option.some.inj heq)).2.symm hq
  · -- the carved block fits, so it is not the left neighbour
    obtain ⟨g, l, f, r, hmalloc, hbs, hfound, -, he⟩ := hfit
    rw [hmalloc] at heq
    obtain ⟨rfl, rfl⟩ := Prod.mk.inj (Option.some.inj heq)
    obtain ⟨hf, hfits⟩ := seek_some hfound
    simp only [Block.fits, Bool.and_eq_true, decide_eq_true_eq, Bool.not_eq_true'] at hfits
    obtain ⟨⟨hsize, hfree⟩, -⟩ := hfits
    obtain ⟨c, rest, hcarve, -, -, hcsize, -⟩ := carve_eq_cons hmod f
    obtain ⟨k, hk, hocc⟩ := he.occupied
    have hck : c.size = k ∧ c.size ≤ f.size := by
      have hext := extent_carve hmod f
      rw [hcarve] at hext
      simp only [extent_cons, extent_nil] at hext
      obtain ⟨e, hemem, -, he16, rfl⟩ := hocc
      rw [hcarve, List.append_assoc, List.cons_append] at hemem
      obtain rfl := placed_inj placed_at hemem (by omega) (by omega)
      exact ⟨rfl, by omega⟩
    refine ⟨_, k, he, hk, hocc, fun hend => ?_⟩
    have hle := placed_disjoint hf hxb (by omega)
    have hfp := placed_inj_end hf hyp (by omega) (by omega) (by omega)
    obtain ⟨-, rfl⟩ := hfp
    exact hp ⟨hfree, by omega⟩
  · -- the new bytes are behind the block
    obtain ⟨g, pre', p', t, c, hmalloc, hbs, -, -, -, -, -, -, he⟩ := hext
    rw [hmalloc] at heq
    obtain ⟨rfl, rfl⟩ := Prod.mk.inj (Option.some.inj heq)
    obtain ⟨k, hk, hocc⟩ := he.occupied
    refine ⟨_, k, he, hk, hocc, fun hend => ?_⟩
    have hlast : x + b.size ≤ h.heapListp + extent Block.size pre' := by
      rw [hbs] at hxd
      rcases mem_placed_mid.mp hxd with hd' | ⟨hd', -⟩ | hd'
      · have := add_le_of_mem_placed hd'
        omega
      · omega
      · obtain rfl : d = Block.epilogue t := by simpa using mem_of_mem_placed hd'
        exact absurd rfl hd
    unfold joinStart at hend
    split at hend <;> omega

/-- Bytes written over a block that does not end in front of `x` leave its header alone when the
block at `x` is released, also where they run over the footer and the next header. -/
lemma mmFree_moved_size {y j len : ℕ} {c : Block} (hw : WellFormedAs h bs)
    (hc : (y, c) ∈ placed Block.size h.heapListp bs) (hc16 : 16 ≤ c.size)
    (hx : Occupied h.heapListp bs x k) (hbehind : Occupied h.heapListp bs (x + k) j) (hyx : y ≠ x)
    (hyk : y ≠ x + k) (hapart : y + c.size ≠ x) (hlen : len ≤ c.size) :
    getSize (mmFree { h with mem := moveBytes h.mem y x len } x).mem (hdrp y) = c.size := by
  obtain ⟨-, -, -, hk16⟩ := hw.occupied_bounds hx
  obtain ⟨pre, p, b, d, post, rfl, hxp, -, rfl⟩ := hw.split_occupied hx
  obtain ⟨e, hemem, hea, -, -⟩ := hbehind
  have hlistp := hw.listp
  have hfr : Framed ((pre ++ [p]) ++ b :: d :: post) := by simpa using hw.framed
  have hp8 := hfr.size_of_left (b := p) (by simp) (by simp)
  have hyp : (h.heapListp + extent Block.size pre, p) ∈
    placed Block.size h.heapListp (pre ++ p :: b :: d :: post) := placed_at
  have hxb : (x, b) ∈ placed Block.size h.heapListp (pre ++ p :: b :: d :: post) := placed_behind hxp
  have hymod := hw.start_mod hc
  have hxmod := hw.start_mod hxb
  have hcmod := c.size_mod
  have hbmod := b.size_mod
  have hblt := hw.size_lt (mem_of_mem_placed hxb)
  have helt := hw.size_lt (mem_of_mem_placed hemem)
  have hylo := le_of_mem_placed hc
  -- the bytes stay clear of the block at `x` and of the footer in front of it
  have hclear : y + c.size + 8 ≤ x ∨ x + b.size + 8 ≤ y := by
    rcases Nat.lt_or_gt_of_ne hyx with hlt | hgt
    · have := placed_disjoint hc hxb hlt
      omega
    · have := placed_disjoint hxb hc hgt
      omega
  have hprev : y + c.size ≤ x - p.size ∨ x ≤ y := by
    rcases Nat.lt_trichotomy y (h.heapListp + extent Block.size pre) with hlt | heq | hgt
    · have := placed_disjoint hc hyp hlt
      omega
    · rw [heq] at hc
      obtain rfl := placed_inj hyp hc (by omega) (by omega)
      omega
    · have := placed_disjoint hyp hc hgt
      omega
  have hmove : ∀ w, w < y ∨ y + c.size ≤ w → moveBytes h.mem y x len w = h.mem w := fun w hw => by
    apply moveBytes_apply_of_disjoint
    omega
  generalize moveBytes h.mem y x len = m at hmove ⊢
  have hold : BlockAt m x b :=
    (hw.blockAt hxb).congr (by omega) (by omega) fun z h1 h2 => hmove z (by omega)
  have hnext : loadWord m (x + b.size - 4) = e.header := by
    rw [← (hw.blockAt hemem).1]
    exact loadWord_congr fun z h1 h2 => hmove z (by omega)
  have hfooter : getSize m (x - 8) = p.size := by
    have hpf := ((hw.blockAt hyp).2 (by omega)).1
    rw [show h.heapListp + extent Block.size pre + p.size - 8 = x - 8 by omega] at hpf
    rw [← hpf, getSize_eq, getSize_eq]
    rw [loadWord_congr (m := h.mem) fun z h1 h2 => hmove z (by omega)]
  rw [getSize_eq, loadWord_congr (m := h.mem), ← getSize_eq, (hw.blockAt hc).getSize_hdrp]
  intro w h1 h2
  simp only [hdrp, wsize] at h1 h2
  have hfree : (mmFree { h with mem := m } x).mem w = m w :=
    mmFree_agree (h := { h with mem := m }) hold hk16 (by omega) hnext hea (by omega) hfooter hp8
      (by omega) (show h.heapListp ≠ 0 by omega) (by omega) (by omega)
  rw [hfree, hmove w (by omega)]

/-- The block that the copying branch returns has at least the computed size, also where the copied
bytes run over its end. -/
lemma reallocCopy_size (hw : WellFormedAs h (pre ++ p :: b :: d :: post)) (hb : b.alloc = true)
    (hx : x = h.heapListp + extent Block.size pre + p.size) (hd : d.alloc = true ∧ d.size ≠ 0)
    (hp : ¬(p.alloc = false ∧ body ≤ p.size)) (hmod : body % 8 = 0) (h16 : 16 ≤ body)
    (hbody : body + 7 < 2 ^ 32) (heq : reallocCopy h x n body = some (h', q)) :
    body ≤ getSize h'.mem (hdrp q) ∧ getSize h'.mem (hdrp q) < 2 ^ 25 := by
  have hfr : Framed ((pre ++ [p]) ++ b :: d :: post) := by simpa using hw.framed
  have hocc : Occupied h.heapListp (pre ++ p :: b :: d :: post) x b.size :=
    ⟨b, placed_behind hx, hb, hfr.ordinary (by simp) (by simp), rfl⟩
  obtain ⟨j, hj⟩ := hw.toTiled.occupied_behind hx hd
  have hsub : toUnsigned ((body : ℤ) - (dsize : ℕ)) = body - 8 := by
    rw [show (body : ℤ) - (dsize : ℕ) = ((body - 8 : ℕ) : ℤ) by simp only [dsize]; omega]
    exact wrapUnsigned_natCast (by omega)
  obtain ⟨-, -, hle, -, -⟩ := adjustSize_spec (n := body - 8) (by omega)
  simp only [reallocCopy, hsub] at heq
  rcases hmalloc : mmMalloc h (body - 8) with _ | ⟨h₁, y⟩
  · rw [hmalloc] at heq
    cases heq
  rw [hmalloc] at heq
  dsimp only at heq
  by_cases hy : y = null
  · rw [if_pos hy] at heq
    cases heq
  rw [if_neg hy] at heq
  obtain ⟨rfl, rfl⟩ := Prod.mk.inj (Option.some.inj heq)
  obtain ⟨bs₁, k, he, hk, hnew, hapart⟩ := mmMalloc_apart hw hx hd.2 hp (by omega)
    (show body ≤ adjustSize (body - 8) by omega) hmalloc hy
  have hyx : y ≠ x := by
    rintro rfl
    exact he.fresh _ hocc
  have hyd : y ≠ x + b.size := by
    rintro rfl
    exact he.fresh _ hj
  -- the old block and the one behind it are still there
  have hold := (he.frame.occupied x _ fun hxy => hyx hxy.symm).mpr hocc
  have hbehind := (he.frame.occupied _ _ fun hxy => hyd hxy.symm).mpr hj
  rw [← he.listp] at hnew hold hbehind
  obtain ⟨c, hc, -, hc16, rfl⟩ := hnew
  rw [mmFree_moved_size he.wellFormed hc hc16 hold hbehind hyx hyd hapart (by omega)]
  exact ⟨by omega, he.wellFormed.size_lt (mem_of_mem_placed hc)⟩

end Copy

/-! ### The other branches -/

section Branches

variable {h h' g : Heap} {bs l r pre post : List Block} {p b d : Block} {x q k n body : ℕ}

lemma reallocFinish_size (h8 : 8 ≤ getSize g.mem (hdrp q)) :
    getSize (reallocFinish n g q).1.mem (hdrp q) = getSize g.mem (hdrp q) := by
  rw [getSize_eq, getSize_eq, loadWord_congr]
  intro w h1 h2
  simp only [hdrp, wsize] at h1 h2
  exact reallocReserve_apply (by omega) _

lemma reallocPrev_size (ht : Tiled h (pre ++ p :: b :: d :: post))
    (hx : x = h.heapListp + extent Block.size pre + p.size) :
    getSize (reallocPrev h x n body ((b.size : ℤ) - body + p.size)).mem
      (hdrp (h.heapListp + extent Block.size pre)) = p.size + b.size := by
  have hlistp := ht.listp
  have hlt := ht.extent_lt
  simp only [extent_append, extent_cons] at hlt
  have hfr : Framed ((pre ++ [p]) ++ b :: d :: post) := by simpa using ht.framed
  have hp8 := hfr.size_of_left (b := p) (by simp) (by simp)
  have hpmod := p.size_mod
  have hbmod := b.size_mod
  have hpack : toUnsigned ((body : ℤ) + ((b.size : ℤ) - body + p.size)) = p.size + b.size := by
    rw [show (body : ℤ) + ((b.size : ℤ) - body + p.size) = ((p.size + b.size : ℕ) : ℤ) by
      push_cast; ring]
    exact wrapUnsigned_natCast (by omega)
  have hsize : getSize (writeOver h.mem (h.heapListp + extent Block.size pre) (p.size + b.size))
      (hdrp (h.heapListp + extent Block.size pre)) = p.size + b.size :=
    (writeOver_spec (by omega) (by omega) (by omega) (by omega)).1
  simp only [reallocPrev, ht.prevBlkp_eq hx, hpack]
  change getSize (moveBytes (writeOver h.mem (h.heapListp + extent Block.size pre)
    (p.size + b.size)) (h.heapListp + extent Block.size pre) x (min n body)) _ = _
  refine Eq.trans ?_ hsize
  rw [getSize_eq, getSize_eq, loadWord_congr]
  intro w h1 h2
  simp only [hdrp, wsize] at h1 h2
  exact moveBytes_apply_of_disjoint (Or.inl (by omega))

lemma reallocNext_size (hw : WellFormedAs h (l ++ b :: r)) (hr : r ≠ [])
    (hx : x = h.heapListp + extent Block.size l) (hmod : body % 8 = 0)
    (hbody : body ≤ b.size + 2 ^ 31) (hlt : b.size < body) (h8 : 8 ≤ b.size)
    (heq : reallocNext h x body ((b.size : ℤ) - body) = some (g, true)) :
    body ≤ getSize g.mem (hdrp x) ∧ getSize g.mem (hdrp x) < 2 ^ 26 := by
  have hlistp := hw.listp
  obtain ⟨g', -, size, hmem, -, hsize, hsmod, hslt⟩ := reallocNext_grown hw hr hx hmod hbody hlt heq
  rw [hmem, (writeOver_spec (by omega) hsmod (by omega) (by omega)).1]
  exact ⟨hsize, hslt⟩

/-- If the difference of the sizes is at most `2 ^ 31`, the block that `mm_realloc` returns has at
least the computed size, and no block exceeds the heap by much. -/
lemma mmRealloc_size (hw : WellFormedAs h bs) (hx : Occupied h.heapListp bs x k) (hn0 : n ≠ 0)
    (hbody : bodySize n ≤ k + 2 ^ 31) (heq : mmRealloc h x n = some (h', q)) (hq : q ≠ null) :
    bodySize n ≤ getSize h'.mem (hdrp q) ∧ getSize h'.mem (hdrp q) < 2 ^ 26 := by
  obtain ⟨-, -, -, hk16⟩ := hw.occupied_bounds hx
  obtain ⟨pre, p, b, d, post, rfl, hxp, halloc, rfl⟩ := hw.split_occupied hx
  have hmod := bodySize_mod n
  have hbAt : BlockAt h.mem x b := hw.toTiled.blockAt_behind hxp
  have hblt := hw.size_lt (b := b) (by simp)
  have hplt := hw.size_lt (b := p) (by simp)
  obtain ⟨g, hbranch, rfl⟩ := mmRealloc_branch hw.toTiled hxp hn0 hbody heq hq
  suffices hg : 8 ≤ getSize g.mem (hdrp q) ∧ bodySize n ≤ getSize g.mem (hdrp q) ∧
      getSize g.mem (hdrp q) < 2 ^ 26 by
    rw [reallocFinish_size hg.1]
    exact hg.2
  cases hbranch with
  | stays hfits =>
    rw [hbAt.getSize_hdrp]
    omega
  | slides hlt hd hp hroom =>
    rw [show x - p.size = h.heapListp + extent Block.size pre by omega,
      reallocPrev_size hw.toTiled hxp]
    omega
  | copies hlt hd hslide hcopy =>
    have hsize := reallocCopy_size hw halloc hxp hd (fun hp => hslide ⟨hp.1, by omega⟩) hmod
      (by omega) (by omega) hcopy
    omega
  | grows hlt hd hnext =>
    have hw' : WellFormedAs h ((pre ++ [p]) ++ b :: d :: post) := by simpa using hw
    have hsize := reallocNext_size hw' (by simp) (by simp [hxp, Nat.add_assoc]) hmod hbody hlt
      (by omega) hnext
    omega

end Branches

/-! ### Calls that return a block -/

section Returns

variable {h h' g : Heap} {bs l r pre post : List Block} {p b d : Block} {x q k n body : ℕ}

lemma mmRealloc_stays (hn0 : n ≠ 0) (hrem : ¬remainingSize h x n < 0) :
    mmRealloc h x n = some (reallocReserve h x (remainingSize h x n), x) := by
  simp only [mmRealloc, if_neg hn0]
  exact if_neg hrem

lemma reallocCopy_returns (hw : WellFormedAs h bs) (h16 : 16 ≤ body) (hbody : body + 7 < 2 ^ 32)
    (href : ¬mallocRefused h (toUnsigned ((body : ℤ) - (dsize : ℕ)))) :
    ∃ g y, reallocCopy h x n body = some (g, y) ∧ y ≠ null := by
  have hlistp := hw.listp
  have hsub : toUnsigned ((body : ℤ) - (dsize : ℕ)) = body - 8 := by
    rw [show (body : ℤ) - (dsize : ℕ) = ((body - 8 : ℕ) : ℤ) by simp only [dsize]; omega]
    exact wrapUnsigned_natCast (by omega)
  rw [hsub] at href
  simp only [reallocCopy, hsub]
  have hreq : body - 8 + 15 < 2 ^ 32 := by omega
  obtain ⟨hmod, -, -, hlt, -⟩ := adjustSize_spec hreq
  rcases mmMalloc_cases hw hreq rfl hmod with ⟨-, hcause⟩ | ⟨-, hfit | hext⟩
  · -- `mm_malloc` fails for want of room only
    obtain ⟨hnone, hroom⟩ := hcause.resolve_left (by omega)
    have hfind := findFit_seek hw (adjustSize (body - 8))
    rw [hnone] at hfind
    refine absurd ⟨_, hfind, ?_⟩ href
    have hg : Tiled { h with currentBlock := (seek (adjustSize (body - 8)) h.heapListp bs
        h.currentBlock).2 } bs := hw.toTiled.congr ⟨rfl, rfl, rfl, rfl⟩ rfl
    refine (hg.sbrkRefuses_iff ?_ ?_).mpr hroom <;> (simp only [chunksize]; omega)
  · obtain ⟨g, l, f, r, hmalloc, -⟩ := hfit
    have hy : h.heapListp + extent Block.size l ≠ null := by
      simp only [null]
      omega
    rw [hmalloc]
    exact ⟨_, _, if_neg hy, hy⟩
  · obtain ⟨g, pre, f, t, c, hmalloc, -⟩ := hext
    have hy : joinStart (h.heapListp + extent Block.size pre) f ≠ null := by
      simp only [joinStart, null]
      split <;> omega
    rw [hmalloc]
    exact ⟨_, _, if_neg hy, hy⟩

lemma reallocNext_returns (hw : WellFormedAs h (l ++ b :: r)) (hr : r ≠ [])
    (hx : x = h.heapListp + extent Block.size l) (hn0 : n ≠ 0)
    (hbody : bodySize n ≤ b.size + 2 ^ 31) (hlt : b.size < bodySize n)
    (hnext : ¬isBlockAllocated h.mem (nextBlkp h.mem x)) (href : ¬behindRefused h x n) :
    ∃ g, reallocNext h x (bodySize n) ((b.size : ℤ) - bodySize n) = some (g, true) := by
  have hmod := bodySize_mod n
  have hbmod := b.size_mod
  have hbAt : BlockAt h.mem x b := hx ▸ hw.blockAt placed_at
  have hblt := hw.size_lt (b := b) (by simp)
  have hneg : remainingSize h x n < 0 := by
    rw [remainingSize, hbAt.getSize_hdrp]
    rw [show toInt ((b.size : ℤ) - bodySize n) = (b.size : ℤ) - bodySize n from
      wrapSigned_of_bounds (w := 31) (by omega) (by omega)]
    omega
  obtain ⟨-, -, -, hexp⟩ := hw.toTiled.expandableSize_eq hr hx hneg
  rw [reallocNext_eq hw.toTiled hr hx hmod hbody hlt]
  dsimp only
  generalize freeRun (bodySize n - b.size) 0 r = run at *
  have hrun := extent_mod run
  by_cases hge : bodySize n - b.size ≤ extent Block.size run
  · rw [if_pos hge]
    exact ⟨_, rfl⟩
  rw [if_neg hge]
  obtain ⟨words, hwords⟩ : ∃ w, w = max (bodySize n - b.size - extent Block.size run) chunksize :=
    ⟨_, rfl⟩
  rw [← hwords]
  have hmax := hwords
  simp only [chunksize] at hmax
  rcases extendHeap_evolves hw (w := words) (by omega) (by omega) (by omega) with hno | hext
  · refine absurd ⟨hn0, hneg, hnext, _, hexp, by omega, ?_⟩ href
    have hmissing : toUnsigned (-((b.size : ℤ) - bodySize n + extent Block.size run)) =
        bodySize n - b.size - extent Block.size run := by
      rw [show -((b.size : ℤ) - bodySize n + extent Block.size run) =
        ((bodySize n - b.size - extent Block.size run : ℕ) : ℤ) by omega]
      exact wrapUnsigned_natCast (by omega)
    have hsame : toUnsigned (toInt (words : ℤ)) = words := by
      simp only [toUnsigned, toInt, wrapUnsigned, wrapSigned]
      omega
    rw [hmissing, ← Nat.cast_max, ← hwords, hsame]
    exact (hw.toTiled.sbrkRefuses_iff (by omega) (by omega)).mpr hno.2
  · obtain ⟨g, y, bs', hext, hnull, -⟩ := hext
    rw [hext, if_neg hnull]
    exact ⟨_, rfl⟩

/-- If the difference of the sizes is at most `2 ^ 31`, `mm_realloc` returns a block unless the bytes
that it needs are refused. -/
lemma mmRealloc_returns (hw : WellFormedAs h bs) (hx : Occupied h.heapListp bs x k) (hn0 : n ≠ 0)
    (hbody : bodySize n ≤ k + 2 ^ 31) (href : ¬spaceRefused h x n) :
    ∃ h' q, mmRealloc h x n = some (h', q) ∧ q ≠ null := by
  have hlistp := hw.listp
  obtain ⟨-, hlo, -, hk16⟩ := hw.occupied_bounds hx
  obtain ⟨pre, p, b, d, post, rfl, hxp, halloc, rfl⟩ := hw.split_occupied hx
  have hblt := hw.size_lt (b := b) (by simp)
  have hplt := hw.size_lt (b := p) (by simp)
  have hbAt : BlockAt h.mem x b := hw.toTiled.blockAt_behind hxp
  have hdAt : BlockAt h.mem (x + b.size) d := hw.toTiled.blockAt_behind₂ hxp
  have hpAt : BlockAt h.mem (h.heapListp + extent Block.size pre) p := hw.blockAt placed_at
  have hprev := hw.toTiled.prevBlkp_eq hxp
  have hxnull : x ≠ null := by
    simp only [null]
    omega
  rw [mmRealloc_eq hw.toTiled hxp hn0 hbody]
  by_cases hfits : bodySize n ≤ b.size
  · rw [if_pos hfits]
    exact ⟨_, _, rfl, hxnull⟩
  rw [if_neg hfits]
  have hrem : remainingSize h x n = (b.size : ℤ) - bodySize n := by
    rw [remainingSize, hbAt.getSize_hdrp]
    exact wrapSigned_of_bounds (w := 31) (by omega) (by omega)
  by_cases hd : d.alloc = true ∧ d.size ≠ 0
  · rw [if_pos hd]
    by_cases hslide : p.alloc = false ∧ bodySize n ≤ p.size + b.size
    · rw [if_pos hslide]
      refine ⟨_, _, rfl, ?_⟩
      simp only [null]
      omega
    · rw [if_neg hslide]
      have hmod := bodySize_mod n
      have hserved : ¬mallocRefused h (toUnsigned ((bodySize n : ℤ) - (dsize : ℕ))) := by
        intro hmalloc
        refine href (Or.inr ⟨hn0, by omega, ?_, ?_, hmalloc⟩)
        · rw [hbAt.nextBlkp, hdAt.isBlockAllocated]
          simpa using hd
        · rw [hprev, hpAt.isBlockAllocated, hpAt.getSize_hdrp, hrem, show toInt (p.size : ℤ) = p.size
            from wrapSigned_of_bounds (w := 31) (by omega) (by omega)]
          rintro ⟨hfree, hroom⟩
          have hfr : Framed ((pre ++ [p]) ++ b :: d :: post) := by simpa using hw.framed
          have hp8 := hfr.size_of_left (b := p) (by simp) (by simp)
          have hp0 : p.size ≠ 0 := by omega
          exact hslide ⟨by simpa [hp0] using hfree, by omega⟩
      obtain ⟨g, y, hcopy, hy⟩ := reallocCopy_returns (x := x) (n := n) hw
        (show 16 ≤ bodySize n by omega) (by omega) hserved
      rw [hcopy]
      exact ⟨_, _, rfl, hy⟩
  · rw [if_neg hd]
    have hw' : WellFormedAs h ((pre ++ [p]) ++ b :: d :: post) := by simpa using hw
    obtain ⟨g, hgrow⟩ := reallocNext_returns hw' (by simp) (by simp [hxp, Nat.add_assoc]) hn0 hbody
      (by omega) (by rw [hbAt.nextBlkp, hdAt.isBlockAllocated]; simpa using hd)
      fun hbehind => href (Or.inl hbehind)
    rw [hgrow]
    exact ⟨_, _, rfl, hxnull⟩

end Returns

/-! ### The condition -/

/-- The rounded and padded request as an exact number. -/
def paddedSize (size : ℕ) : ℕ :=
  (if size ≤ dsize then 2 * dsize else dsize * ((size + dsize + (dsize - 1)) / dsize)) + padding

/-- The block that `mm_realloc` returns has room for the request and its boundary tags. -/
def ReturnsRoom (h : Heap) (ptr size : ℕ) : Prop :=
  ∀ h' q, mmRealloc h ptr size = some (h', q) → q ≠ null → size + 8 ≤ getSize h'.mem (hdrp q)

lemma paddedSize_bounds (n : ℕ) : n + 8 ≤ paddedSize n ∧ paddedSize n ≤ n + 144 := by
  unfold paddedSize
  by_cases hsmall : n ≤ dsize
  · rw [if_pos hsmall]
    simp only [dsize, padding] at hsmall ⊢
    omega
  · rw [if_neg hsmall]
    simp only [dsize, padding] at hsmall ⊢
    omega

lemma bodySize_padded {n : ℕ} (hn : n < 2 ^ 32) : bodySize n = paddedSize n % 2 ^ 32 := by
  unfold bodySize adjustSize paddedSize
  by_cases hsmall : n ≤ dsize
  · rw [if_pos hsmall, if_pos hsmall]
    rfl
  · rw [if_neg hsmall, if_neg hsmall]
    simp only [dsize, padding, toUnsigned, wrapUnsigned] at hsmall ⊢
    omega

/-- In every well-formed heap, `mm_realloc` of an allocated block returns only blocks with room for
the request exactly where the padded request exceeds the block by at most `2 ^ 31` bytes, or where
the bytes that the call needs are refused. -/
theorem returnsRoom_iff {h : Heap} {p m : ℕ} {b : Block} (hw : WellFormed h)
    (hb : AllocatedAt h p b) (hm : m < 2 ^ 32) :
    ReturnsRoom h p m ↔ paddedSize m ≤ b.size + 2 ^ 31 ∨ spaceRefused h p m := by
  obtain ⟨bs, hw⟩ := hw
  have hp := hw.allocatedAt_iff.mp ⟨b, hb, rfl⟩
  have hmem := hw.toTiled.blockList_eq ▸ hb.1
  have hbAt := hw.blockAt hmem
  have hblt := hw.size_lt (mem_of_mem_placed hmem)
  obtain ⟨-, -, -, hb16⟩ := hw.occupied_bounds hp
  obtain ⟨hlow, hhigh⟩ := paddedSize_bounds m
  have hbody := bodySize_padded hm
  constructor
  · intro hroom
    by_contra hno
    obtain ⟨hlarge, href⟩ := not_or.mp hno
    have hm0 : m ≠ 0 := by omega
    rcases Nat.lt_or_ge (paddedSize m) (2 ^ 32) with hlt | hge
    · -- the difference of the sizes wraps to a positive `int`
      rw [Nat.mod_eq_of_lt hlt] at hbody
      have hpos : ¬remainingSize h p m < 0 := by
        rw [remainingSize, hbAt.getSize_hdrp, hbody]
        simp only [toInt, wrapSigned, wrapUnsigned]
        omega
      have hnull : p ≠ null := by
        have := (hw.occupied_bounds hp).2.1
        simp only [null]
        omega
      have hsize := hroom _ _ (mmRealloc_stays hm0 hpos) hnull
      have hkeep : getSize (reallocReserve h p (remainingSize h p m)).mem (hdrp p) = b.size := by
        rw [← hbAt.getSize_hdrp, getSize_eq, getSize_eq, loadWord_congr]
        intro w h1 h2
        have hget := hbAt.getSize_hdrp
        simp only [hdrp, wsize] at h1 h2 hget
        exact reallocReserve_apply (by simp only [hdrp, wsize]; omega) _
      omega
    · -- the rounding wraps to a few bytes
      obtain ⟨h', q, heq, hq⟩ := mmRealloc_returns hw hp hm0 (by omega) href
      obtain ⟨-, hsmall⟩ := mmRealloc_size hw hp hm0 (by omega) heq hq
      have hsize := hroom h' q heq hq
      omega
  · rintro (hle | href) h' q heq hq
    · have hm0 : m ≠ 0 := by
        rintro rfl
        exact hq (Prod.mk.inj (Option.some.inj heq)).2.symm
      rw [Nat.mod_eq_of_lt (by omega)] at hbody
      obtain ⟨hsize, -⟩ := mmRealloc_size hw hp hm0 (by omega) heq hq
      omega
    · rcases href with hbehind | hcopy
      · obtain ⟨pre, c, d, e, post, rfl, hx, -, -⟩ := hw.split_occupied hp
        have ht : Tiled h ((pre ++ [c]) ++ d :: e :: post) := by simpa using hw.toTiled
        rw [mmRealloc_behindRefused ht (by simp) (by simp [hx, Nat.add_assoc]) hbehind] at heq
        exact absurd (Prod.mk.inj (Option.some.inj heq)).2.symm hq
      · rw [mmRealloc_copyRefused hw hp hcopy] at heq
        cases heq

theorem realloc_returns_room : ∃ s, run Session.step (Session.begin (fun _ => 0) 4096)
    [.malloc 16] = some s ∧ ReturnsRoom s.heap 4112 100 := by
  have hk : run Sketch.step (Sketch.begin 4096) [.malloc 16] =
      some ⟨⟨4096, [Block.prologue, ⟨24, true, false, rfl⟩, ⟨4072, false, false, rfl⟩,
        Block.epilogue false], 4104⟩, [(4112, 16)]⟩ := by decide
  obtain ⟨s, hrun, hs⟩ := (Shows.begin _ (by decide)).run hk
  have hb : AllocatedAt s.heap 4112 ⟨24, true, false, rfl⟩ :=
    hs.allocatedAt (by decide) rfl (by decide)
  exact ⟨s, hrun, (returnsRoom_iff ⟨_, hs.refines.toWellFormedAs⟩ hb (by decide)).mpr
    (Or.inl (by decide))⟩

/-- A request of 2147484648 bytes is padded to 2147484784. The difference from the 24 bytes of the
block is a positive `int`, so the block is returned as it is. -/
theorem realloc_keeps_small : ∃ s h', run Session.step (Session.begin (fun _ => 0) 4096)
    [.malloc 16] = some s ∧ WellFormed s.heap ∧ AllocatedAt s.heap 4112 ⟨24, true, false, rfl⟩ ∧
      remainingSize s.heap 4112 2147484648 = 2147482536 ∧
      mmRealloc s.heap 4112 2147484648 = some (h', 4112) ∧ getSize h'.mem (hdrp 4112) = 24 ∧
      ¬ReturnsRoom s.heap 4112 2147484648 := by
  have hk : run Sketch.step (Sketch.begin 4096) [.malloc 16] =
      some ⟨⟨4096, [Block.prologue, ⟨24, true, false, rfl⟩, ⟨4072, false, false, rfl⟩,
        Block.epilogue false], 4104⟩, [(4112, 16)]⟩ := by decide
  obtain ⟨s, hrun, hs⟩ := (Shows.begin _ (by decide)).run hk
  have hw := hs.refines.toWellFormedAs
  have hb : AllocatedAt s.heap 4112 ⟨24, true, false, rfl⟩ :=
    hs.allocatedAt (by decide) rfl (by decide)
  have hbAt : BlockAt s.heap.mem 4112 ⟨24, true, false, rfl⟩ :=
    hw.blockAt (hw.toTiled.blockList_eq ▸ hb.1)
  have hbody : bodySize 2147484648 = 2147484784 := by decide
  have hrem : remainingSize s.heap 4112 2147484648 = 2147482536 := by
    rw [remainingSize, hbAt.getSize_hdrp, hbody]
    decide
  have heq := mmRealloc_stays (h := s.heap) (x := 4112) (n := 2147484648) (by decide)
    (by rw [hrem]; decide)
  have hkeep : reallocReserve s.heap 4112 2147482536 = s.heap := if_neg (by decide)
  rw [hrem, hkeep] at heq
  refine ⟨s, _, hrun, ⟨_, hw⟩, hb, hrem, heq, hbAt.getSize_hdrp, fun hroom => ?_⟩
  have hsize := hroom _ _ heq (by decide)
  rw [hbAt.getSize_hdrp] at hsize
  exact absurd hsize (by decide)

end SystemsLabs.Malloc
