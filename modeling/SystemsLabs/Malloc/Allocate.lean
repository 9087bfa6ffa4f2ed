import SystemsLabs.Malloc.Fit
import SystemsLabs.Malloc.Free

/-!
# Allocating

`place` carves a block out of a free one, `extend_heap` appends a free block in front of a
new epilogue, and `mm_malloc` puts the search and both of them together. The heap stays well
formed, the new block is large enough, and no other allocated block is touched.
-/

namespace SystemsLabs.Malloc
open Library

/-- A well-formed heap becomes another one; the allocated blocks outside `S` stay. -/
structure Evolves (S : Set ℕ) (h : Heap) (bs : List Block) (h' : Heap) (bs' : List Block) :
    Prop where
  start : h'.memStartBrk = h.memStartBrk
  brk : h.memBrk ≤ h'.memBrk
  listp : h'.heapListp = h.heapListp
  frame : PayloadFrame S h.heapListp h.mem bs h'.mem bs'
  wellFormed : WellFormedAs h' bs'

section Evolves

variable {S T : Set ℕ} {h h' h'' : Heap} {bs bs' bs'' : List Block}

lemma Evolves.refl (S : Set ℕ) (hw : WellFormedAs h bs) : Evolves S h bs h bs :=
  ⟨rfl, le_rfl, rfl, PayloadFrame.refl _ _ _ _, hw⟩

lemma Evolves.mono (he : Evolves S h bs h' bs') (hST : S ⊆ T) : Evolves T h bs h' bs' :=
  ⟨he.start, he.brk, he.listp, he.frame.mono hST, he.wellFormed⟩

lemma Evolves.trans (he : Evolves S h bs h' bs') (he' : Evolves S h' bs' h'' bs'') :
    Evolves S h bs h'' bs'' :=
  ⟨he'.start.trans he.start, he.brk.trans he'.brk, he'.listp.trans he.listp,
    he.frame.trans (he.listp ▸ he'.frame), he'.wellFormed⟩

lemma WellFormedAs.congr_current {c : ℕ} (hw : WellFormedAs h bs) (hc : Start h.heapListp bs c) :
    WellFormedAs { h with currentBlock := c } bs :=
  ⟨hw.toTiled.congr ⟨rfl, rfl, rfl, rfl⟩ rfl, hc⟩

/-- The counters of the `DEBUG` build play no part in well-formedness. -/
lemma WellFormedAs.congr (hw : WellFormedAs h bs) (ha : SameArena h h') (hm : h'.mem = h.mem)
    (hc : h'.currentBlock = h.currentBlock) : WellFormedAs h' bs :=
  ⟨hw.toTiled.congr ha hm, by rw [ha.2.2.1, hc]; exact hw.current⟩

end Evolves

/-- A well-formed heap becomes another one in which an allocated block of at least `asize` bytes
starts at `x`, where no allocated block started before. -/
structure HandsOut (x asize : ℕ) (h : Heap) (bs : List Block) (h' : Heap) (bs' : List Block) :
    Prop extends Evolves {x} h bs h' bs' where
  occupied : ∃ k, asize ≤ k ∧ Occupied h.heapListp bs' x k
  fresh : ∀ k, ¬Occupied h.heapListp bs x k

/-! ### `place` -/

/-- The blocks that `place` leaves of a free block. -/
def Block.carve (b : Block) (asize : ℕ) (hmod : asize % 8 = 0) : List Block :=
  if asize + 16 ≤ b.size then
    [⟨asize, true, b.tag, hmod⟩, ⟨b.size - asize, false, false, by have := b.size_mod; omega⟩]
  else [{ b with alloc := true }]

section Place

variable {h : Heap} {l r : List Block} {b : Block} {asize x : ℕ} (hmod : asize % 8 = 0)

lemma extent_carve (b : Block) :
    extent Block.size (b.carve asize hmod) = extent Block.size [b] := by
  unfold Block.carve
  split
  · simp only [extent_cons, extent_nil]
    omega
  · rfl

lemma carve_eq_cons (b : Block) : ∃ c rest, b.carve asize hmod = c :: rest ∧ c.alloc = true ∧
    c.tag = b.tag ∧ (asize ≤ b.size → asize ≤ c.size) ∧
      ∀ d ∈ rest, d.alloc = false ∧ d.tag = false ∧ 16 ≤ d.size := by
  unfold Block.carve
  split
  · refine ⟨_, _, rfl, rfl, rfl, fun _ => le_rfl, fun d hd => ?_⟩
    obtain rfl := List.mem_singleton.mp hd
    exact ⟨rfl, rfl, by simp only; omega⟩
  · exact ⟨_, _, rfl, rfl, rfl, id, by simp⟩

lemma carve_tags (hchain : (l ++ b :: r).IsChain TagBehind) (hb : b.alloc = false) :
    (l ++ b.carve asize hmod ++ r).IsChain TagBehind := by
  unfold Block.carve
  split <;> simp_all [List.isChain_append, List.isChain_cons, TagBehind]

lemma carve_keptApart (hchain : (l ++ b :: r).IsChain KeptApart) (hb : b.alloc = false)
    (htag : b.tag = false) : (l ++ b.carve asize hmod ++ r).IsChain KeptApart := by
  unfold Block.carve
  split <;> simp_all [List.isChain_append, List.isChain_cons, KeptApart]

lemma place_blocks (hb : BlockAt h.mem x b) (hx : 4 ≤ x) (h16 : 16 ≤ asize) (hle : asize ≤ b.size)
    (hlt : b.size < 2 ^ 32) :
    ∃ m, place h x asize = countBlocks { h with mem := m } ((b.carve asize hmod).length - 1)
        ((b.carve asize hmod).length - 1) ∧
      Image m x (b.carve asize hmod) ∧ AgreeOutside (x - 4) (x + b.size - 4) h.mem m := by
  have hrem : toUnsigned ((b.size : ℤ) - asize) = b.size - asize := by
    rw [← Nat.cast_sub hle]
    exact wrapUnsigned_natCast (by omega)
  unfold place
  simp only [hb.getSize_hdrp, hrem]
  unfold Block.carve
  by_cases hsplit : asize + 16 ≤ b.size
  · rw [if_pos hsplit, if_pos (by simp only [dsize]; omega)]
    set c : Block := ⟨asize, true, b.tag, hmod⟩ with hc
    set d : Block := ⟨b.size - asize, false, false, by have := b.size_mod; omega⟩ with hd
    obtain ⟨hcAt, hag⟩ := putWithTag_block (b := c) hx (by simp only [hc]; omega)
      (by simp only [hc]; omega) hb.getTag_hdrp
    set m₂ := putWithTag _ _ _ with hm₂
    obtain ⟨hdAt, hag'⟩ := put_block (m := m₂) (x := x + asize) (b := d) (by omega)
      (by simp only [hd]; omega) (by simp only [hd]; omega) rfl
    -- the header of the first block is read again to find the remainder
    have hcAt' : BlockAt (put m₂ (hdrp (x + asize)) (pack d.size 0)) x c := by
      apply hcAt.congr hx (Or.inl (by simp only [hc]; omega))
      intro y _ hy
      apply storeWord_apply_of_disjoint
      simp only [hc, hdrp, wsize] at hy ⊢
      omega
    have hnext : nextBlkp m₂ x = x + asize := hcAt.nextBlkp
    have hnext' : nextBlkp (put m₂ (hdrp (x + asize)) (pack d.size 0)) x = x + asize :=
      hcAt'.nextBlkp
    refine ⟨_, ?_, image_cons.mpr ⟨?_, image_cons.mpr ⟨hdAt, Image.nil _ _⟩⟩, ?_⟩
    · rw [hnext, hnext']
      rfl
    · refine hcAt.congr hx (Or.inl (by simp only [hc]; omega)) fun y _ h2 => hag' y ?_
      simp only [hc] at h2
      omega
    · exact (hag.mono le_rfl (by simp only [hc]; omega)).trans
        (hag'.mono (by omega) (by simp only [hd]; omega))
  · rw [if_neg hsplit, if_neg (by simp only [dsize]; omega)]
    obtain ⟨hblock, hag⟩ := putWithTag_block (b := { b with alloc := true }) hx
      (by simp only; omega) hlt hb.getTag_hdrp
    refine ⟨_, ?_, image_cons.mpr ⟨hblock, Image.nil _ _⟩, hag⟩
    simp [countBlocks]

end Place

/-- `place` on a free untagged block that is large enough. -/
theorem place_spec {h : Heap} {l r : List Block} {b : Block} {asize x : ℕ}
    (hw : WellFormedAs h (l ++ b :: r)) (hx : x = h.heapListp + extent Block.size l)
    (hb : b.alloc = false) (hmod : asize % 8 = 0) (h16 : 16 ≤ asize) (hle : asize ≤ b.size) :
    HandsOut x asize h (l ++ b :: r) (place h x asize) (l ++ b.carve asize hmod ++ r) := by
  subst hx
  have ht := hw.toTiled
  have hlistp := ht.listp
  obtain ⟨hl, hr⟩ := ht.framed.ne_nil_of_free hb
  have hlt := ht.size_lt (b := b) (by simp)
  obtain ⟨m, heq, himg, hag⟩ := place_blocks hmod (ht.blockAt placed_at) (by omega) h16 hle
    (by omega)
  obtain ⟨c, rest, hcarve, hc, -, hcsize, hrest⟩ := carve_eq_cons hmod b
  have hext := extent_carve hmod b
  have ht' : Tiled h (l ++ [b] ++ r) := by simpa using ht
  have hag' : AgreeOutside (h.heapListp + extent Block.size l - 4)
      (h.heapListp + extent Block.size l + extent Block.size [b] - 4) h.mem m := by
    rwa [extent_cons, extent_nil, Nat.add_zero]
  have hsizes : ∀ d ∈ b.carve asize hmod, 16 ≤ d.size := fun d hd => by
    rw [hcarve, List.mem_cons] at hd
    rcases hd with rfl | hd
    · exact h16.trans (hcsize hle)
    · exact (hrest d hd).2.2
  have htiled : Tiled (place h (h.heapListp + extent Block.size l) asize)
      (l ++ b.carve asize hmod ++ r) := by
    rw [heq]
    exact ht'.splice ⟨rfl, rfl, rfl, rfl⟩ hl hr hsizes hext himg hag' (carve_tags hmod ht.tags hb)
  have hcAt : (h.heapListp + extent Block.size l, c) ∈
      placed Block.size h.heapListp (l ++ b.carve asize hmod ++ r) := by
    rw [hcarve, List.append_assoc, List.cons_append]
    exact placed_at
  have hframe := PayloadFrame.splice (S := {h.heapListp + extent Block.size l}) (r := r)
    (by omega) hext (hag'.mono le_rfl (by omega))
    (fun y d hd halloc => by
      obtain rfl := List.mem_singleton.mp (mem_of_mem_placed hd)
      rw [hb] at halloc
      cases halloc)
    (fun y d hd halloc => by
      rw [hcarve, placed_cons, List.mem_cons] at hd
      rcases hd with hd | hd
      · exact (Prod.mk.inj hd).1
      · rw [(hrest d (mem_of_mem_placed hd)).1] at halloc
        cases halloc)
  refine ⟨⟨?_, ?_, ?_, ?_, htiled, ?_⟩, ⟨c.size, hcsize hle, c, ?_, hc, ?_, rfl⟩, ?_⟩
  · rw [heq]; rfl
  · rw [heq]; exact le_rfl
  · rw [heq]; rfl
  · rw [heq]
    change PayloadFrame _ _ h.mem _ m _
    simpa using hframe
  · -- the roving pointer is not inside the carved block
    rw [heq]
    obtain ⟨d, hd, hne⟩ := hw.current
    change Start h.heapListp _ h.currentBlock
    rcases mem_placed_mid.mp hd with hd | ⟨hcur, rfl⟩ | hd
    · exact ⟨d, (mem_placed_splice hext).mpr (Or.inl hd), hne⟩
    · rw [hcur]
      have := hcsize hle
      exact ⟨c, hcAt, by omega⟩
    · refine ⟨d, (mem_placed_splice hext).mpr (Or.inr (Or.inr ?_)), hne⟩
      rwa [extent_cons, extent_nil, Nat.add_zero]
  · exact hcAt
  · exact h16.trans (hcsize hle)
  · rintro k ⟨d, hd, halloc, hsize, -⟩
    obtain rfl := placed_inj placed_at hd (by omega) (by omega)
    rw [hb] at halloc
    cases halloc

/-- No block of the list carries a tag. -/
def Untagged (bs : List Block) : Prop := ∀ b ∈ bs, b.tag = false

lemma carve_untagged {l r : List Block} {b : Block} {asize : ℕ} (hmod : asize % 8 = 0)
    (h : Untagged (l ++ b :: r)) : Untagged (l ++ b.carve asize hmod ++ r) := by
  simp only [Untagged, List.forall_mem_append, List.forall_mem_cons] at h
  unfold Block.carve Untagged
  split <;> simp_all [or_imp]

/-! ### `extend_heap` -/

lemma align_eq {words : ℕ} (hw : words + 7 < 2 ^ 32) : align words = (words + 7) / 8 * 8 := by
  have h : align words = toUnsigned (words + (alignment - 1)) / 8 * 8 :=
    land_high_mask (w := 32) (k := 3) (wrapUnsigned_lt _ _) (by norm_num)
  have hwrap : toUnsigned ((words : ℤ) + ((alignment : ℕ) - 1)) = words + 7 := by
    rw [show (words : ℤ) + ((alignment : ℕ) - 1) = ((words + 7 : ℕ) : ℤ) by
      simp only [alignment]; push_cast; ring]
    exact wrapUnsigned_natCast hw
  rw [h, hwrap]

lemma align_extend {asize : ℕ} (hmod : asize % 8 = 0) (hlt : asize + 8 ≤ 2 ^ 32) :
    align (max asize chunksize) = max asize chunksize := by
  rw [align_eq (by simp only [chunksize]; omega)]
  simp only [chunksize]
  omega

/-- The block list after a heap that ends with the block `p` is extended by the block `c`. -/
def grownList (pre : List Block) (p c : Block) : List Block :=
  pre ++ joinPrev p (joinNext c [Block.epilogue false])

def lastGrown (p c : Block) : Block := if p.closed then c else p.merge c

lemma grownList_eq (pre : List Block) (p c : Block) : grownList pre p c =
    (if p.closed then pre ++ [p] else pre) ++ [lastGrown p c, Block.epilogue false] := by
  unfold grownList lastGrown joinNext joinPrev
  cases p.closed <;> simp

lemma joinStart_eq (a : ℕ) (pre : List Block) (p : Block) : joinStart (a + extent Block.size pre) p =
    a + extent Block.size (if p.closed then pre ++ [p] else pre) := by
  rw [joinStart]
  split <;> simp [Nat.add_assoc]

lemma lastGrown_spec (p : Block) {c : Block} (hc : c.alloc = false) (htag : c.tag = false) :
    (lastGrown p c).alloc = false ∧ (lastGrown p c).tag = false ∧
      c.size ≤ (lastGrown p c).size := by
  unfold lastGrown
  cases hp : p.closed
  · simp_all [Block.closed]
  · simp [hc, htag]

/-- The three words that `extend_heap` writes behind the old break. -/
lemma extend_blocks (m : Memory) {x : ℕ} {b : Block} (hx : 4 ≤ x) (hb : 8 ≤ b.size)
    (hlt : b.size < 2 ^ 32) (halloc : b.alloc = false) (htag : b.tag = false) :
    let m₁ := put m (hdrp x) (pack b.size 0)
    let m₂ := put m₁ (ftrp m₁ x) (pack b.size 0)
    let m₃ := put m₂ (hdrp (nextBlkp m₂ x)) (pack 0 1)
    Image m₃ x [b, Block.epilogue false] ∧ AgreeOutside (x - 4) (x + b.size) m m₃ := by
  intro m₁ m₂ m₃
  obtain ⟨hblock, hag⟩ := put_block (m := m) hx hb hlt htag
  rw [halloc] at hblock hag
  have hm₃ : m₃ = storeWord m₂ (x + b.size - 4) (Block.epilogue false).header := by
    have hnext : nextBlkp m₂ x = x + b.size := hblock.nextBlkp
    simp only [m₃, hnext, put, hdrp, wsize]
    rfl
  rw [hm₃]
  refine ⟨image_cons.mpr ⟨?_, image_cons.mpr ⟨⟨?_, fun hne => absurd rfl hne⟩, Image.nil _ _⟩⟩, ?_⟩
  · exact hblock.congr hx (Or.inl hb) fun y _ h2 => storeWord_apply_of_disjoint (by omega)
  · exact loadWord_storeWord (Block.header_lt (by simp))
  · exact (hag.mono le_rfl (by omega)).storeWord (by omega) (by omega)

/-- Writing a free block and a new epilogue behind the old break. -/
lemma Tiled.append {h : Heap} {l : List Block} {c : Block} {m : Memory} {t : Bool}
    (ht : Tiled h (l ++ [Block.epilogue t])) (hl : l ≠ []) (hc : 16 ≤ c.size)
    (htag : c.tag = false) (halloc : c.alloc = false) (hroom : h.memBrk + c.size ≤ h.memMaxAddr)
    (himg : Image m h.memBrk [c, Block.epilogue false])
    (hag : AgreeOutside (h.memBrk - 4) (h.memBrk + c.size) h.mem m) :
    Tiled { h with mem := m, memBrk := h.memBrk + c.size } (l ++ [c, Block.epilogue false]) ∧
      PayloadFrame ∅ h.heapListp h.mem (l ++ [Block.epilogue t]) m
        (l ++ [c, Block.epilogue false]) := by
  have hlistp := ht.listp
  have hbrk := ht.brk
  simp only [extent_append, extent_cons, extent_nil, Block.epilogue_size, Nat.add_zero] at hbrk
  have hag' : ∀ x, x < h.heapListp + extent Block.size l - 4 → m x = h.mem x :=
    fun x hx => hag x (Or.inl (by omega))
  refine ⟨⟨ht.aligned, ht.maxAddr, ht.listp, ?_, hroom, ?_, ?_, ?_⟩, ?_⟩
  · simp only [extent_append, extent_cons, extent_nil, Block.epilogue_size]
    omega
  · have hfr : Framed (l ++ [] ++ [Block.epilogue t]) := by simpa using ht.framed
    obtain ⟨l', r', t', rfl, -, hsizes⟩ := hfr.split hl (by simp)
    refine ⟨l' ++ [c], false, by simp, fun d hd => ?_⟩
    rcases List.mem_append.mp hd with hd | hd
    · exact hsizes d (by simp [hd])
    · rwa [List.mem_singleton.mp hd]
  · refine image_append.mpr ⟨(image_append.mp ht.image).1.congr_below (by omega)
      (fun d hd => ht.framed.size_of_left (by simp) hd) hag', ?_⟩
    rwa [← hbrk]
  · have := ht.tags
    simp_all [List.isChain_append, TagBehind]
  · exact PayloadFrame.tail hag' (by simp) (by simp [halloc])

/-- `extend_heap` either finds no room and changes nothing, or joins a fresh block with the last
block of the heap. -/
lemma extendHeap_joins {h : Heap} {pre : List Block} {p c : Block} {t : Bool} {words : ℕ}
    (hw : WellFormedAs h (pre ++ [p, Block.epilogue t])) (hwords : align words = c.size)
    (hc : 16 ≤ c.size) (hlt : c.size < 2 ^ 32) (halloc : c.alloc = false) (htag : c.tag = false) :
    extendHeap h words = (h, null) ∧ h.memMaxAddr < h.memBrk + c.size ∨
      ∃ m, let x := h.heapListp + extent Block.size pre
        let h' := joinedHeap (countBlocks { h with memBrk := h.memBrk + c.size } 1 0) m
          (joinStart x p) (joinEnd x p c (Block.epilogue false)) (joinCount p (Block.epilogue false))
        extendHeap h words = (h', joinStart x p) ∧ h.memBrk + c.size ≤ h.memMaxAddr ∧
        h'.currentBlock = cover Block.size h.heapListp (grownList pre p c) h.currentBlock ∧
        Evolves ∅ h (pre ++ [p, Block.epilogue t]) h' (grownList pre p c) := by
  have hlistp := hw.listp
  have hbrk := hw.brk
  simp only [extendHeap, hwords]
  by_cases hroom : toInt c.size < 0 ∨ (h.memBrk : ℤ) + toInt c.size > h.memMaxAddr
  · left
    refine ⟨by rw [memSbrk, if_pos hroom], ?_⟩
    have hmax := hw.maxAddr
    simp only [maxHeap] at hmax
    by_cases hbig : c.size < 2 ^ 31
    · rw [show toInt c.size = c.size from
        wrapSigned_of_bounds (w := 31) (by omega) (by omega)] at hroom
      omega
    · omega
  right
  have hlt' : c.size < 2 ^ 31 := by
    by_contra hge
    exact hroom (Or.inl (wrapSigned_neg (w := 31) (by omega) (by omega)))
  have hint : toInt c.size = c.size := wrapSigned_of_bounds (w := 31) (by omega) (by omega)
  rw [hint] at hroom ⊢
  rw [memSbrk, if_neg hroom]
  simp only [Int.toNat_natCast]
  have hx : h.heapListp + extent Block.size pre + p.size = h.memBrk := by
    simp only [extent_append, extent_cons, extent_nil, Block.epilogue_size] at hbrk
    omega
  obtain ⟨himg, hag⟩ := extend_blocks h.mem (x := h.memBrk) (b := c) (by omega) (by omega)
    (by omega) halloc htag
  generalize hm₁ : put (put (put h.mem _ _) _ _) _ _ = m₁ at himg hag
  obtain ⟨ht, hframe⟩ := Tiled.append (l := pre ++ [p]) (by simpa using hw.toTiled) (by simp) hc
    htag halloc (by omega) himg hag
  set h₁ : Heap := { countBlocks { h with memBrk := h.memBrk + c.size } 1 0 with mem := m₁ } with hh₁
  have ht₁ : Tiled h₁ (pre ++ p :: c :: Block.epilogue false :: []) := by
    have hc : Tiled h₁ ((pre ++ [p]) ++ [c, Block.epilogue false]) :=
      ht.congr ⟨rfl, rfl, rfl, rfl⟩ rfl
    simpa using hc
  have hstart : Start h₁.heapListp (pre ++ p :: c :: Block.epilogue false :: []) h₁.currentBlock := by
    obtain ⟨b, hb, hne⟩ := hw.current
    refine ⟨b, ?_, hne⟩
    simp only [placed_append, placed_cons, placed_nil, List.mem_append, List.mem_cons,
      List.not_mem_nil, or_false, Prod.mk.injEq] at hb ⊢
    rcases hb with hb | hb | ⟨-, rfl⟩
    · exact Or.inl hb
    · exact Or.inr (Or.inl hb)
    · exact absurd rfl hne
  obtain ⟨m₂, heq, hw₂, hframe₂, hcover⟩ := ht₁.coalesce halloc hstart
  rw [show h₁.heapListp + extent Block.size pre + p.size = h.memBrk from hx] at heq
  subst hm₁
  refine ⟨_, heq, by omega, hcover, rfl, Nat.le_add_right _ _, rfl, ?_, hw₂⟩
  rw [List.append_assoc, List.append_assoc] at hframe
  exact hframe.trans hframe₂

/-- `extend_heap` either finds no room and changes nothing, or appends a free block. -/
theorem extendHeap_spec {h : Heap} {pre : List Block} {p c : Block} {t : Bool} {words : ℕ}
    (hw : WellFormedAs h (pre ++ [p, Block.epilogue t])) (hwords : align words = c.size)
    (hc : 16 ≤ c.size) (hlt : c.size < 2 ^ 32) (halloc : c.alloc = false) (htag : c.tag = false) :
    extendHeap h words = (h, null) ∧ h.memMaxAddr < h.memBrk + c.size ∨
      ∃ h', extendHeap h words = (h', joinStart (h.heapListp + extent Block.size pre) p) ∧
        h.memBrk + c.size ≤ h.memMaxAddr ∧
        h'.currentBlock = cover Block.size h.heapListp (grownList pre p c) h.currentBlock ∧
        Evolves ∅ h (pre ++ [p, Block.epilogue t]) h' (grownList pre p c) := by
  refine (extendHeap_joins hw hwords hc hlt halloc htag).imp_right ?_
  rintro ⟨m, heq, hrest⟩
  exact ⟨_, heq, hrest⟩

lemma grownList_keptApart {pre : List Block} {p c : Block} {t : Bool}
    (h : (pre ++ [p, Block.epilogue t]).IsChain KeptApart) (hc : c.alloc = false) :
    (grownList pre p c).IsChain KeptApart := by
  rw [List.append_cons] at h
  exact join_keptApart h.left_of_append (List.isChain_nil) hc (by simp)

lemma grownList_untagged {pre : List Block} {p c : Block} {t : Bool}
    (h : Untagged (pre ++ [p, Block.epilogue t])) (hc : c.tag = false) :
    Untagged (grownList pre p c) := by
  simp only [Untagged, List.forall_mem_append, List.forall_mem_cons] at h
  simp only [grownList_eq, lastGrown, Untagged, List.forall_mem_append, List.forall_mem_cons]
  obtain ⟨hpre, hp, -⟩ := h
  cases p.closed
  · simpa [hp] using hpre
  · refine ⟨?_, by simp [hc]⟩
    simpa [or_imp, forall_and, hp] using hpre

/-! ### `mm_malloc` -/

lemma adjustSize_spec {n : ℕ} (hn : n + 15 < 2 ^ 32) : adjustSize n % 8 = 0 ∧
    16 ≤ adjustSize n ∧ n + 8 ≤ adjustSize n ∧ adjustSize n + 8 ≤ 2 ^ 32 ∧
      adjustSize n ≤ max 16 (n + 15) := by
  unfold adjustSize
  by_cases hsmall : n ≤ dsize
  · rw [if_pos hsmall]
    simp only [dsize] at hsmall ⊢
    exact ⟨by norm_num, by norm_num, by omega, by norm_num, by omega⟩
  rw [if_neg hsmall]
  simp only [dsize] at hsmall ⊢
  have hinner : toUnsigned ((n : ℤ) + (8 : ℕ) + ((8 : ℕ) - 1)) = n + 15 := by
    rw [show (n : ℤ) + (8 : ℕ) + ((8 : ℕ) - 1) = ((n + 15 : ℕ) : ℤ) by push_cast; ring]
    exact wrapUnsigned_natCast hn
  have houter : toUnsigned (((8 * ((n + 15) / 8) : ℕ) : ℤ)) = 8 * ((n + 15) / 8) :=
    wrapUnsigned_natCast (by omega)
  rw [hinner]
  push_cast at houter ⊢
  rw [houter]
  omega

/-- A list of blocks that ends with the epilogue, split in front of its last block. -/
lemma Framed.split_last {bs : List Block} (h : Framed bs) :
    ∃ pre p t, bs = pre ++ [p, Block.epilogue t] := by
  obtain ⟨os, t, rfl, -⟩ := h
  rw [← List.cons_append]
  have hne : Block.prologue :: os ≠ [] := by simp
  refine ⟨(Block.prologue :: os).dropLast, (Block.prologue :: os).getLast hne, t, ?_⟩
  conv_lhs => rw [← List.dropLast_append_getLast hne]
  simp

/-- `extend_heap` by a number of bytes that needs no rounding, whatever blocks the heap shows. -/
lemma extendHeap_evolves {h : Heap} {bs : List Block} {w : ℕ} (hw : WellFormedAs h bs)
    (hmod : w % 8 = 0) (h16 : 16 ≤ w) (hlt : w + 7 < 2 ^ 32) :
    extendHeap h w = (h, null) ∧ h.memMaxAddr < h.memBrk + w ∨
      ∃ h' x bs', extendHeap h w = (h', x) ∧ x ≠ null ∧
        h.memBrk + w ≤ h.memMaxAddr ∧ Evolves ∅ h bs h' bs' := by
  have hlistp := hw.listp
  obtain ⟨c, rfl, hca, hct⟩ : ∃ c : Block, c.size = w ∧ c.alloc = false ∧ c.tag = false :=
    ⟨⟨w, false, false, hmod⟩, rfl, rfl, rfl⟩
  have halign : align c.size = c.size := by
    rw [align_eq hlt]
    omega
  obtain ⟨pre, p, t, rfl⟩ := hw.framed.split_last
  rcases extendHeap_spec hw halign h16 (by omega) hca hct with hno | hext
  · exact Or.inl hno
  · obtain ⟨h', heq, hroom, -, he⟩ := hext
    refine Or.inr ⟨h', _, _, heq, ?_, hroom, he⟩
    simp only [joinStart, null]
    split <;> omega

lemma place_current (h : Heap) (bp asize : ℕ) :
    (place h bp asize).currentBlock = h.currentBlock := by
  unfold place
  simp only
  split <;> rfl

/-- `mm_malloc` where the search finds a block. -/
lemma mmMalloc_fits {h : Heap} {bs : List Block} {n x : ℕ} {b : Block} (hw : WellFormedAs h bs)
    (hn : n ≠ 0) (hfound : (seek (adjustSize n) h.heapListp bs h.currentBlock).1 = some (x, b)) :
    mmMalloc h n = some (countBlocks (place { h with
      currentBlock := (seek (adjustSize n) h.heapListp bs h.currentBlock).2 } x (adjustSize n))
        0 (-1), x) := by
  have hlistp := hw.listp
  have hx : x ≠ null := by
    have := le_of_mem_placed (seek_some hfound).1
    simp only [null]
    omega
  simp only [mmMalloc, if_neg (show ¬h.heapListp = 0 by omega), if_neg hn, findFit_seek hw, hfound,
    Option.map_some, Option.getD_some, if_pos hx]

/-- `mm_malloc` where the search finds no block. -/
lemma mmMalloc_extends {h : Heap} {bs : List Block} {n : ℕ} (hw : WellFormedAs h bs)
    (hn : n ≠ 0) (hfound : (seek (adjustSize n) h.heapListp bs h.currentBlock).1 = none) :
    mmMalloc h n = some (if (extendHeap h (max (adjustSize n) chunksize)).2 = null
      then ((extendHeap h (max (adjustSize n) chunksize)).1, null)
      else (place (extendHeap h (max (adjustSize n) chunksize)).1
        (extendHeap h (max (adjustSize n) chunksize)).2 (adjustSize n),
          (extendHeap h (max (adjustSize n) chunksize)).2)) := by
  have hlistp := hw.listp
  have hcur := (seek_none hfound).1
  simp only [mmMalloc, if_neg (show ¬h.heapListp = 0 by omega), if_neg hn, findFit_seek hw, hfound,
    hcur, Option.map_none, Option.getD_none, ne_eq, not_true_eq_false, if_false]
  split <;> rfl

/-- `mm_malloc` of a request that does not wrap ends, in one of three ways: it changes nothing,
it carves a block that fits, or it carves the block by which the heap was extended. -/
theorem mmMalloc_cases {h : Heap} {bs : List Block} {n asize : ℕ} (hw : WellFormedAs h bs)
    (hn : n + 15 < 2 ^ 32) (hasize : adjustSize n = asize) (hmod : asize % 8 = 0) :
    let found := seek asize h.heapListp bs h.currentBlock
    (mmMalloc h n = some (h, null) ∧ (n = 0 ∨ found.1 = none ∧
        h.memMaxAddr < h.memBrk + max asize chunksize)) ∨
      n ≠ 0 ∧ ((∃ h' l b r, mmMalloc h n = some (h', h.heapListp + extent Block.size l) ∧
        bs = l ++ b :: r ∧ found.1 = some (h.heapListp + extent Block.size l, b) ∧
        h'.currentBlock = found.2 ∧ HandsOut (h.heapListp + extent Block.size l) asize h bs h'
          (l ++ b.carve asize hmod ++ r)) ∨
      ∃ h' pre p t c, mmMalloc h n = some (h', joinStart (h.heapListp + extent Block.size pre) p) ∧
        bs = pre ++ [p, Block.epilogue t] ∧ found.1 = none ∧
        h.memBrk + max asize chunksize ≤ h.memMaxAddr ∧
        c.size = max asize chunksize ∧ c.alloc = false ∧ c.tag = false ∧
        h'.currentBlock = cover Block.size h.heapListp (grownList pre p c) h.currentBlock ∧
        HandsOut (joinStart (h.heapListp + extent Block.size pre) p) asize h bs h'
          ((if p.closed then pre ++ [p] else pre) ++ (lastGrown p c).carve asize hmod ++
            [Block.epilogue false])) := by
  subst hasize
  have hlistp := hw.listp
  by_cases hn0 : n = 0
  · left
    rw [mmMalloc, if_pos hn0]
    exact ⟨by rw [if_neg (by omega)], Or.inl hn0⟩
  obtain ⟨-, h16, hle, hmax, -⟩ := adjustSize_spec hn
  have hstart : Start h.heapListp bs (seek (adjustSize n) h.heapListp bs h.currentBlock).2 :=
    seek_start hw.framed hw.current
  cases hf : (seek (adjustSize n) h.heapListp bs h.currentBlock).1 with
  | some q =>
    -- a block fits
    refine Or.inr ⟨hn0, Or.inl ?_⟩
    obtain ⟨x, b⟩ := q
    obtain ⟨hb, hfit⟩ := seek_some hf
    obtain ⟨l, r, rfl, rfl⟩ := mem_placed_iff.mp hb
    simp only [Block.fits, Bool.and_eq_true, decide_eq_true_eq, Bool.not_eq_true'] at hfit
    obtain ⟨⟨hsize, halloc⟩, -⟩ := hfit
    have hw₁ := hw.congr_current hstart
    have he := place_spec hw₁ rfl halloc hmod h16 hsize
    exact ⟨_, l, b, r, mmMalloc_fits hw hn0 hf, rfl, hf, place_current { h with currentBlock := _ } _ _,
      ⟨he.start, he.brk, he.listp, he.frame, he.wellFormed.congr ⟨rfl, rfl, rfl, rfl⟩ rfl rfl⟩,
      he.occupied, he.fresh⟩
  | none =>
    -- the heap is extended
    rw [mmMalloc_extends hw hn0 hf]
    obtain ⟨pre, p, t, rfl⟩ := hw.framed.split_last
    obtain ⟨c, hcsize, hca, hct⟩ : ∃ c : Block, c.size = max (adjustSize n) chunksize ∧
        c.alloc = false ∧ c.tag = false :=
      ⟨⟨max (adjustSize n) chunksize, false, false, by simp only [chunksize]; omega⟩, rfl, rfl, rfl⟩
    have halign : align (max (adjustSize n) chunksize) = c.size := by
      rw [hcsize, align_extend hmod hmax]
    have hc16 : 16 ≤ c.size ∧ adjustSize n ≤ c.size ∧ c.size < 2 ^ 32 := by
      simp only [chunksize] at hcsize
      omega
    rcases extendHeap_spec hw halign hc16.1 hc16.2.2 hca hct with ⟨hfail, hroom⟩ | hext
    · left
      rw [hfail, ← hcsize]
      exact ⟨by simp, Or.inr ⟨hf, hroom⟩⟩
    · refine Or.inr ⟨hn0, Or.inr ?_⟩
      obtain ⟨h', hext, hroom, hcover, he⟩ := hext
      obtain ⟨hla, hlt, hlsize⟩ := lastGrown_spec p hca hct
      have hw' := he.wellFormed
      rw [grownList_eq] at hw'
      have hx : joinStart (h.heapListp + extent Block.size pre) p =
          h'.heapListp + extent Block.size (if p.closed then pre ++ [p] else pre) := by
        rw [he.listp, joinStart_eq]
      have he' := place_spec hw' hx hla hmod h16 (by omega)
      rw [← grownList_eq] at he'
      have hr : joinStart (h.heapListp + extent Block.size pre) p ≠ null := by
        simp only [joinStart, null]
        split <;> omega
      rw [hext]
      simp only [if_neg hr]
      refine ⟨_, pre, p, t, c, rfl, rfl, hf, hcsize ▸ hroom, hcsize, hca, hct,
        (place_current _ _ _).trans hcover, ?_, ?_, ?_⟩
      · exact (he.mono (Set.empty_subset _)).trans he'.toEvolves
      · exact he.listp ▸ he'.occupied
      · intro k hk
        rw [← he.frame.occupied _ _ (Set.notMem_empty _)] at hk
        exact he'.fresh k (he.listp.symm ▸ hk)

/-- A request that does not wrap fails without a change, or it hands out a block that has room
for it. -/
theorem mmMalloc_spec {h : Heap} {bs : List Block} {n : ℕ} (hw : WellFormedAs h bs)
    (hn : n + 15 < 2 ^ 32) :
    mmMalloc h n = some (h, null) ∨
      ∃ h' r bs', mmMalloc h n = some (h', r) ∧ r ≠ null ∧ HandsOut r (n + 8) h bs h' bs' ∧
        (bs.IsChain KeptApart → bs'.IsChain KeptApart) ∧ (Untagged bs → Untagged bs') := by
  obtain ⟨hmod, -, hle, -, -⟩ := adjustSize_spec hn
  have hlistp := hw.listp
  have hroom : ∀ {r : ℕ} {h' : Heap} {bs' : List Block},
      HandsOut r (adjustSize n) h bs h' bs' → HandsOut r (n + 8) h bs h' bs' :=
    fun he => ⟨he.toEvolves, he.occupied.imp fun _ hk => ⟨hle.trans hk.1, hk.2⟩, he.fresh⟩
  rcases mmMalloc_cases hw hn rfl hmod with ⟨hfail, -⟩ | ⟨-, hfit | hext⟩
  · exact Or.inl hfail
  · obtain ⟨h', l, b, r, heq, rfl, hfound, -, he⟩ := hfit
    obtain ⟨-, hfits⟩ := seek_some hfound
    simp only [Block.fits, Bool.and_eq_true, Bool.not_eq_true'] at hfits
    refine Or.inr ⟨h', _, _, heq, by simp only [null]; omega, hroom he, ?_, ?_⟩
    · exact fun hk => carve_keptApart hmod hk hfits.1.2 hfits.2
    · exact fun hu => carve_untagged hmod hu
  · obtain ⟨h', pre, p, t, c, heq, rfl, -, -, -, hca, hct, -, he⟩ := hext
    obtain ⟨hla, hlt, -⟩ := lastGrown_spec p hca hct
    refine Or.inr ⟨h', _, _, heq, ?_, hroom he, ?_, ?_⟩
    · simp only [joinStart, null]
      split <;> omega
    · intro hk
      have hgrown := grownList_keptApart hk hca
      rw [grownList_eq] at hgrown
      exact carve_keptApart hmod hgrown hla hlt
    · intro hu
      have hgrown := grownList_untagged hu hct
      rw [grownList_eq] at hgrown
      exact carve_untagged hmod hgrown

end SystemsLabs.Malloc
