import SystemsLabs.Malloc.Contents

/-!
# Reallocating without memory

The four branches of `mm_realloc` as operations on block lists. A block that is too small is
fused with free neighbours or with new bytes at the end of the heap, or it is exchanged for a new
block. For every safe call the heap shows what these operations compute.
-/

namespace SystemsLabs.Malloc
open Library

/-! ### Operations on block lists -/

/-- Fuses the first `k` blocks to an allocated one. -/
def fuse (k : ℕ) (bs : List Block) : List Block :=
  ⟨extent Block.size (bs.take k), true, false, extent_mod _⟩ :: bs.drop k

def fuseAll (bs : List Block) : List Block := fuse (bs.length - 1) bs

def around (x : ℕ) : ℕ → List Block → Option (Block × Block × List Block)
  | a, p :: b :: r => if a + p.size = x then some (p, b, r) else around x (a + p.size) (b :: r)
  | _, _ => none

section Lists

variable {a x : ℕ} {pre mid r : List Block} {p b : Block}

lemma fuse_append : fuse mid.length (mid ++ r) =
    ⟨extent Block.size mid, true, false, extent_mod mid⟩ :: r := by
  simp [fuse]

lemma around_append (hpre : ∀ b ∈ pre, 0 < b.size) (hp : 0 < p.size)
    (hx : x = a + extent Block.size pre + p.size) : around x a (pre ++ p :: b :: r) = some (p, b, r) := by
  subst hx
  induction pre generalizing a with
  | nil => simp [around]
  | cons c pre ih =>
    have hrest := ih (a := a + c.size) fun d hd => hpre d (List.mem_cons_of_mem c hd)
    obtain ⟨d, l, hdl⟩ : ∃ d l, pre ++ p :: b :: r = d :: l := by
      cases pre <;> exact ⟨_, _, rfl⟩
    rw [List.cons_append, extent_cons, ← Nat.add_assoc]
    rw [hdl] at hrest ⊢
    rw [around, if_neg (by omega), hrest]

end Lists

/-! ### The abstract reallocation -/

namespace Outline

variable (o : Outline)

/-- The end of a reallocation: the block at `q` may reserve the one behind it. -/
def settle (q n : ℕ) : Outline :=
  match around q o.first o.blocks with
  | some (_, b, _) => o.keep q b.size n
  | none => o

def absorb (x k : ℕ) : Outline := { o with blocks := modifyAt (fuse k) x o.first o.blocks }

/-- The block by which the heap is extended for a block of `k` bytes that has found `recycled` free
bytes behind it. -/
def lengthening (n k recycled : ℕ) (hk : k % 8 = 0) (hrecycled : recycled % 8 = 0) : Block where
  size := max (bodySize n - k - recycled) chunksize
  alloc := false
  tag := false
  size_mod := by
    have := bodySize_mod n
    simp only [chunksize]
    omega

def lengthen (x : ℕ) (c : Block) : Outline :=
  { o with blocks := modifyAt fuseAll x o.first (growBy c o.blocks) }

/-- A result `none` stands for a copy that found no new block. -/
def realloc (x n : ℕ) : Option (Outline × ℕ) :=
  if n = 0 then some (o, null)
  else
    match around x o.first o.blocks with
    | some (p, b, d :: post) =>
      if bodySize n ≤ b.size then some (o.settle x n, x)
      else if d.alloc = true ∧ d.size ≠ 0 then
        if p.alloc = false ∧ bodySize n ≤ p.size + b.size then
          some ((o.absorb (x - p.size) 2).settle (x - p.size) n, x - p.size)
        else
          let r := o.malloc (bodySize n - dsize)
          if r.2 = null then none else some ((r.1.free x).settle r.2 n, r.2)
      else
        let run := freeRun (bodySize n - b.size) 0 (d :: post)
        let c := lengthening n b.size (extent Block.size run) b.size_mod (extent_mod run)
        if bodySize n - b.size ≤ extent Block.size run then
          some ((o.absorb x (run.length + 1)).settle x n, x)
        else if o.start + maxHeap < o.brk + c.size then some (o, null)
        else some ((o.lengthen x c).settle x n, x)
    | _ => none

/-- The condition of a safe reallocation, without memory. -/
def Spares (x n : ℕ) : Prop :=
  match around x o.first o.blocks with
  | some (p, b, d :: post) =>
    let run := freeRun (bodySize n - b.size) 0 (d :: post)
    let c := lengthening n b.size (extent Block.size run) b.size_mod (extent_mod run)
    b.size < bodySize n →
      if d.alloc = true ∧ d.size ≠ 0 then
        p.alloc = false → bodySize n ≤ b.size + p.size → o.current ≠ x
      else
        extent Block.size run < bodySize n - b.size ∧ o.start + maxHeap < o.brk + c.size ∨
          (bodySize n - b.size ≤ extent Block.size run ∨
            run.length + 1 = (d :: post).length) ∧
            ¬(x < o.current ∧ o.current < x + b.size + extent Block.size run)
  | _ => False

instance (x n : ℕ) : Decidable (o.Spares x n) := by
  unfold Spares
  split <;> infer_instance

end Outline

/-! ### What the heap shows -/

section Refines

variable {h g : Heap} {o : Outline} {pre post l mid r run : List Block} {p b d : Block} {m : Memory}
  {x q k n : ℕ}

lemma Refines.split (hr : Refines h o) (hx : Occupied o.first o.blocks x k) :
    ∃ pre p b d post, o.blocks = pre ++ p :: b :: d :: post ∧
      x = o.first + extent Block.size pre + p.size ∧ b.alloc = true ∧ b.size = k ∧
        around x o.first o.blocks = some (p, b, d :: post) := by
  rw [← hr.first] at hx
  obtain ⟨pre, p, b, d, post, hbs, hxp, halloc, hk⟩ := hr.toTiled.split_occupied hx
  rw [hr.first] at hxp
  have hfr := hr.framed
  rw [hbs] at hfr
  have hpos := Framed.pos_of_left (l := pre ++ [p]) (r := b :: d :: post) (by simpa using hfr) (by simp)
  refine ⟨pre, p, b, d, post, hbs, hxp, halloc, hk, ?_⟩
  rw [hbs]
  exact around_append (fun c hc => hpos c (by simp [hc])) (hpos p (by simp)) hxp

lemma Refines.settle (hr : Refines g o) (hq : Occupied o.first o.blocks q k) (hn0 : n ≠ 0)
    (hfits : bodySize n ≤ k) :
    ∃ h', reallocFinish n g q = (h', q) ∧ Refines h' (o.settle q n) := by
  obtain ⟨h', heq, hr'⟩ := mmRealloc_refines hr hq hn0 hfits
  obtain ⟨pre, p, b, d, post, hbs, hxp, halloc, rfl, haround⟩ := hr.split hq
  have ht := hr.toTiled
  rw [hbs] at ht
  rw [← hr.first] at hxp
  rw [mmRealloc_eq ht hxp hn0 (by omega), if_pos hfits] at heq
  refine ⟨h', Option.some.inj heq, ?_⟩
  simpa only [Outline.settle, haround] using hr'

/-- One allocated block is written over consecutive ones. The roving pointer is at none of them but
the first. -/
lemma Refines.absorb (hr : Refines h o) (hbs : o.blocks = l ++ mid ++ r) (hl : l ≠ []) (hr₀ : r ≠ [])
    (h16 : 16 ≤ extent Block.size mid) (hx : x = o.first + extent Block.size l)
    (hblock : BlockAt m x ⟨extent Block.size mid, true, false, extent_mod mid⟩)
    (hag : AgreeOutside (x - 4) (x + extent Block.size mid - 4) h.mem m)
    (hcur : ¬(x < o.current ∧ o.current < x + extent Block.size mid)) :
    Refines { h with mem := m } (o.absorb x mid.length) ∧
      Occupied o.first (o.absorb x mid.length).blocks x (extent Block.size mid) := by
  have ht := hr.toTiled
  have hcurrent := hr.current
  rw [hbs] at ht hcurrent
  have hpos := Framed.pos_of_left (l := l) (r := mid ++ r) (by simpa using ht.framed) (by simp [hr₀])
  obtain ⟨c, mid', rfl⟩ : ∃ c mid', mid = c :: mid' := by
    cases mid with
    | nil => simp at h16
    | cons c mid' => exact ⟨c, mid', rfl⟩
  have hblocks : (o.absorb x (c :: mid').length).blocks =
      l ++ ⟨extent Block.size (c :: mid'), true, false, extent_mod _⟩ :: r := by
    rw [Outline.absorb, hbs, List.append_assoc, List.cons_append, modifyAt_append hpos hx,
      ← List.cons_append, fuse_append]
  obtain ⟨ht', -, hocc, hstart⟩ := ht.overwrite (S := Set.univ) hl hr₀ rfl rfl h16 rfl
    (hr.first ▸ hx) hblock hag (fun _ _ _ _ => trivial) trivial
  rw [hr.roving] at hcurrent
  have hstart' := hstart o.current hcurrent hcur
  refine ⟨⟨⟨?_, ?_⟩, hr.start, hr.roving⟩, ?_⟩
  · rw [hblocks]
    exact ht'
  · rw [hblocks]
    exact hr.roving ▸ hstart'
  · rw [hblocks, ← hr.first]
    exact hocc

lemma Refines.congr (hr : Refines h o) (ha : SameArena h g) (hm : g.mem = h.mem)
    (hc : g.currentBlock = h.currentBlock) : Refines g o :=
  ⟨hr.toWellFormedAs.congr ha hm hc, ha.1.trans hr.start, hc.trans hr.roving⟩

/-! ### The branches -/

lemma Refines.slide (hr : Refines h o) (hbs : o.blocks = pre ++ p :: b :: d :: post)
    (hxp : x = o.first + extent Block.size pre + p.size) (hp : p.alloc = false)
    (hn : n + 8 ≤ bodySize n) (hroom : bodySize n ≤ p.size + b.size) (hcur : o.current ≠ x) :
    Refines (reallocPrev h x n (bodySize n) ((b.size : ℤ) - bodySize n + p.size))
        (o.absorb (x - p.size) 2) ∧
      Occupied o.first (o.absorb (x - p.size) 2).blocks (x - p.size) (p.size + b.size) := by
  have ht := hr.toTiled
  have hcurrent := hr.current
  rw [hbs] at ht hcurrent
  rw [hr.roving, hr.first] at hcurrent
  have hfirst : 8 ≤ o.first := Nat.le_add_left 8 o.start
  obtain ⟨hpre, -⟩ := ht.framed.ne_nil_of_free hp
  have hp16 := ht.framed.ordinary hpre (by simp)
  have hlt := ht.extent_lt
  simp only [extent_append, extent_cons] at hlt
  obtain ⟨y, hy⟩ : ∃ y, y = o.first + extent Block.size pre := ⟨_, rfl⟩
  have hxy : x - p.size = y := by omega
  have hprev : prevBlkp h.mem x = y := by
    rw [ht.prevBlkp_eq (by rw [hr.first]; exact hxp), hr.first, hy]
  have hpack : toUnsigned ((bodySize n : ℤ) + ((b.size : ℤ) - bodySize n + p.size)) =
      p.size + b.size := by
    rw [show (bodySize n : ℤ) + ((b.size : ℤ) - bodySize n + p.size) = ((p.size + b.size : ℕ) : ℤ) by
      push_cast; ring]
    exact wrapUnsigned_natCast (by omega)
  have hext : extent Block.size [p, b] = p.size + b.size := by simp
  have hprevEq : reallocPrev h x n (bodySize n) ((b.size : ℤ) - bodySize n + p.size) =
      { countBlocks h (-1) (-1) with
        mem := moveBytes (writeOver h.mem y (p.size + b.size)) y x n } := by
    simp only [reallocPrev, hprev, hpack, Nat.min_eq_left (show n ≤ bodySize n by omega)]
    rfl
  obtain ⟨hblock, hag⟩ := put_block (m := h.mem) (x := y)
    (b := ⟨extent Block.size [p, b], true, false, extent_mod [p, b]⟩) (by omega)
    (by simp only [hext]; omega) (by simp only [hext]; omega) rfl
  change BlockAt (writeOver h.mem y (extent Block.size [p, b])) y _ at hblock
  change AgreeOutside _ _ h.mem (writeOver h.mem y (extent Block.size [p, b])) at hag
  have hmoved : BlockAt (moveBytes (writeOver h.mem y (extent Block.size [p, b])) y x n) y
      ⟨extent Block.size [p, b], true, false, extent_mod [p, b]⟩ := by
    apply hblock.congr_words
    · intro z h1 h2
      exact moveBytes_apply_of_disjoint (by omega)
    · intro hne z h1 h2
      simp only [hext] at h1
      exact moveBytes_apply_of_disjoint (by omega)
  obtain ⟨hr', hocc⟩ := hr.absorb (show o.blocks = pre ++ [p, b] ++ d :: post by simp [hbs]) hpre
    (by simp) (by omega) hy hmoved
    (hag.moveBytes (by omega) (by simp only [hext]; omega)) (by
      -- the roving pointer is a start, and the only start strictly inside is `x`
      rintro ⟨h1, h2⟩
      obtain ⟨c, hc, hne⟩ := hcurrent
      have hyp : (y, p) ∈ placed Block.size o.first (pre ++ p :: b :: d :: post) := hy ▸ placed_at
      have hxb : (x, b) ∈ placed Block.size o.first (pre ++ p :: b :: d :: post) := placed_behind hxp
      have := placed_disjoint hyp hc h1
      rcases Nat.lt_or_gt_of_ne hcur with hlt' | hgt
      · omega
      · have := placed_disjoint hxb hc hgt
        omega)
  rw [hext] at hocc hr'
  rw [hxy, hprevEq]
  exact ⟨hr'.congr ⟨rfl, rfl, rfl, rfl⟩ rfl rfl, hocc⟩

lemma Refines.grow (hr : Refines h o) (hbs : o.blocks = l ++ (b :: run) ++ r) (hl : l ≠ [])
    (hr₀ : r ≠ []) (h16 : 16 ≤ b.size) (hx : x = o.first + extent Block.size l) {size : ℕ}
    (hsize : size = b.size + extent Block.size run)
    (hcur : ¬(x < o.current ∧ o.current < x + size)) (i j : ℤ) :
    Refines { countBlocks h i j with mem := writeOver h.mem x size } (o.absorb x (run.length + 1)) ∧
      Occupied o.first (o.absorb x (run.length + 1)).blocks x size := by
  subst hsize
  have hfirst : 8 ≤ o.first := Nat.le_add_left 8 o.start
  have hlt := hr.toTiled.extent_lt
  rw [hbs] at hlt
  simp only [extent_append, extent_cons] at hlt
  obtain ⟨hblock, hag⟩ := put_block (m := h.mem) (x := x)
    (b := ⟨extent Block.size (b :: run), true, false, extent_mod _⟩) (by omega)
    (by simp only [extent_cons]; omega) (by simp only [extent_cons]; omega) rfl
  obtain ⟨hr', hocc⟩ := hr.absorb hbs hl hr₀ (by rw [extent_cons]; omega) hx hblock hag hcur
  exact ⟨hr'.congr ⟨rfl, rfl, rfl, rfl⟩ rfl rfl, hocc⟩

/-- A block whose free run ends at the epilogue is fused with the run and with new bytes. -/
lemma Refines.lengthen {t : Bool} {c : Block} (hr : Refines h o)
    (hbs : o.blocks = l ++ b :: run ++ [Block.epilogue t]) (hl : l ≠ []) (hb : b.alloc = true)
    (h16 : 16 ≤ b.size) (hrun : ∀ c ∈ run, c.alloc = false) (hx : x = o.first + extent Block.size l)
    (hca : c.alloc = false) (hct : c.tag = false) (hc16 : 16 ≤ c.size) (hlt : c.size + 7 < 2 ^ 32)
    (hroom : o.brk + c.size ≤ o.start + maxHeap)
    (hcur : ¬(x < o.current ∧ o.current < x + b.size + extent Block.size run)) :
    let size := b.size + extent Block.size run + c.size
    ∃ h₁ y, extendHeap h c.size = (h₁, y) ∧ y ≠ null ∧
      Refines { countBlocks h₁ (-1) 0 with mem := writeOver h₁.mem x size } (o.lengthen x c) ∧
      Occupied o.first (o.lengthen x c).blocks x size := by
  intro size
  have hfirst := hr.first
  have hlistp := hr.listp
  have halign : align c.size = c.size := by
    have := c.size_mod
    rw [align_eq hlt]
    omega
  obtain ⟨pre, p, run', heq, hgrown, hext, hrun'⟩ := grown_run (l := l) (t := t) hb hca hrun
  have hw := hr.toWellFormedAs
  rw [hbs, heq] at hw
  obtain ⟨h₁, hextend, -, hcover, he⟩ := (extendHeap_spec hw halign hc16 (by omega) hca
    hct).resolve_left (fun hno => absurd hno.2 (by
      rw [hr.brk_eq, hr.maxAddr, hr.start]
      omega))
  -- the roving pointer is at a block in front of the run, and stays there
  obtain ⟨e, hplaced, hne⟩ := hr.current
  rw [hbs, hr.roving, hfirst] at hplaced
  have hbehind : o.current ≤ x := by
    have hend := add_le_of_mem_placed hplaced
    simp only [extent_append, extent_cons, extent_nil, Block.epilogue_size] at hend
    omega
  have hplaced' : ∃ e', (o.current, e') ∈ placed Block.size o.first (grownList pre p c) ∧
      0 < e'.size := by
    rw [hgrown]
    rcases Nat.lt_or_ge o.current x with hlt' | hge
    · refine ⟨e, ?_, Nat.pos_of_ne_zero hne⟩
      have hin : (o.current, e) ∈ placed Block.size o.first (l ++ (b :: run ++ [Block.epilogue t])) := by
        simpa using hplaced
      rw [placed_append, List.mem_append] at hin
      rw [List.append_assoc, placed_append, List.mem_append]
      refine hin.imp_right fun hright => ?_
      have := le_of_mem_placed hright
      omega
    · obtain rfl : o.current = x := le_antisymm hbehind hge
      refine ⟨b, ?_, by omega⟩
      rw [hx, List.append_assoc]
      exact placed_at
  obtain ⟨e', hplaced', hpos⟩ := hplaced'
  rw [hfirst, hr.roving, cover_of_mem hplaced' hpos] at hcover
  obtain ⟨o₁, ho₁⟩ : ∃ o₁ : Outline, o₁ = { o with blocks := grownList pre p c } := ⟨_, rfl⟩
  have hfirst₁ : o₁.first = o.first := by rw [ho₁]; rfl
  have hr₁ : Refines h₁ o₁ := by
    rw [ho₁]
    exact ⟨he.wellFormed, he.start.trans hr.start, hcover⟩
  obtain ⟨hr', hocc⟩ := hr₁.grow
    (show o₁.blocks = l ++ (b :: run') ++ [Block.epilogue false] by rw [ho₁]; simp [hgrown]) hl
    (by simp) h16 (show x = o₁.first + extent Block.size l by rw [hfirst₁, hx])
    (show size = b.size + extent Block.size run' by omega)
    (by rw [ho₁]; exact fun hin => absurd hin.1 (not_lt.mpr hbehind)) (-1) 0
  have hblocks : o₁.absorb x (run'.length + 1) = o.lengthen x c := by
    have hpos := Framed.pos_of_left (l := l) (r := b :: run ++ [Block.epilogue t])
      (by simpa [hbs] using hr.framed) (by simp)
    have hgrow : growBy c o.blocks = l ++ b :: (run' ++ [Block.epilogue false]) := by
      rw [hbs, heq, growBy_append, hgrown]
      simp
    rw [Outline.absorb, Outline.lengthen, hfirst₁, hgrow, ho₁, hgrown, List.append_assoc,
      List.cons_append, modifyAt_append hpos hx, modifyAt_append hpos hx, fuseAll]
    simp
  rw [hblocks, hfirst₁] at hocc
  rw [hblocks] at hr'
  refine ⟨h₁, _, hextend, ?_, hr', hocc⟩
  simp only [joinStart, null]
  split <;> omega

lemma Refines.copy (hr : Refines h o) (hx : Occupied o.first o.blocks x k)
    (hbehind : ∃ j, Occupied o.first o.blocks (x + k) j) (hn : n + 15 + padding < 2 ^ 31) :
    (o.malloc (bodySize n - dsize)).2 = null ∧ reallocCopy h x n (bodySize n) = none ∨
      ∃ g j, (o.malloc (bodySize n - dsize)).2 ≠ null ∧
        reallocCopy h x n (bodySize n) = some (g, (o.malloc (bodySize n - dsize)).2) ∧
        Refines g ((o.malloc (bodySize n - dsize)).1.free x) ∧ bodySize n ≤ j ∧
        Occupied ((o.malloc (bodySize n - dsize)).1.free x).first
          ((o.malloc (bodySize n - dsize)).1.free x).blocks (o.malloc (bodySize n - dsize)).2 j := by
  obtain ⟨hmod, h16, hle, hlt⟩ := bodySize_spec hn
  have hfirst := hr.first
  have hsub : toUnsigned ((bodySize n : ℤ) - (dsize : ℕ)) = bodySize n - dsize := by
    simp only [dsize]
    rw [show (bodySize n : ℤ) - (8 : ℕ) = ((bodySize n - 8 : ℕ) : ℤ) by omega]
    exact wrapUnsigned_natCast (by omega)
  have hsize : bodySize n - dsize + 15 < 2 ^ 32 := by
    simp only [dsize]
    omega
  obtain ⟨h₁, hmalloc, hr₁⟩ := mmMalloc_refines hr hsize
  have hcopy := reallocCopy_spec hr.toWellFormedAs (hfirst ▸ hx) (hfirst ▸ hbehind) h16
    (show bodySize n + 7 < 2 ^ 32 by omega) hle
  simp only [reallocCopy, hsub, hmalloc, Nat.min_eq_left (show n ≤ bodySize n by omega)] at hcopy ⊢
  generalize o.malloc (bodySize n - dsize) = r at *
  by_cases hnull : r.2 = null
  · rw [if_pos hnull]
    exact Or.inl ⟨hnull, rfl⟩
  right
  rw [if_neg hnull] at hcopy ⊢
  rcases mmMalloc_spec hr.toWellFormedAs hsize with hno | ⟨h₂, q, bs₁, heq, hq, ⟨he, ⟨j, hj, hocc⟩, hfresh⟩, -⟩
  · rw [hmalloc] at hno
    exact absurd (Prod.mk.inj (Option.some.inj hno)).2 hnull
  rw [hmalloc] at heq
  obtain ⟨rfl, rfl⟩ := Prod.mk.inj (Option.some.inj heq)
  obtain rfl := he.wellFormed.toTiled.unique hr₁.toTiled
  simp only [dsize] at hj
  have hqx : r.2 ≠ x := by
    intro hqx
    exact hfresh k (hqx ▸ hfirst.symm ▸ hx)
  -- the copy stays inside the new payload
  have hag : AgreeOutside r.2 (r.2 + j - 8) h₁.mem (moveBytes h₁.mem r.2 x n) :=
    (AgreeOutside.refl _ _ _).moveBytes le_rfl (by omega)
  obtain ⟨hw₂, -⟩ := hr₁.writePayload (he.listp ▸ hocc) hag
  have hr₂ : Refines { h₁ with mem := moveBytes h₁.mem r.2 x n } r.1 := ⟨hw₂, hr₁.start, hr₁.roving⟩
  have hx₁ : Occupied r.1.first r.1.blocks x k := by
    rw [← hr₁.first, he.listp]
    exact (he.frame.occupied x k (fun hxq => hqx hxq.symm)).mpr (hfirst.symm ▸ hx)
  have hr₃ := mmFree_refines hr₂ hx₁
  rcases hcopy with hfault | ⟨h', q, bs', hsome, -, hres, -⟩
  · cases hfault
  obtain ⟨rfl, rfl⟩ := Prod.mk.inj (Option.some.inj hsome)
  obtain rfl := hres.wellFormed.toTiled.unique hr₃.toTiled
  obtain ⟨i, hi, hocc'⟩ := hres.occupied
  rw [← hres.listp, hr₃.first] at hocc'
  exact ⟨_, i, hnull, rfl, hr₃, hi, hocc'⟩

/-! ### `mm_realloc` -/

/-- A free run in front of the epilogue, read off the header behind it. -/
lemma Tiled.stop_iff {s : ℕ} (ht : Tiled h (l ++ b :: r)) (hr : r ≠ [])
    (hx : x = h.heapListp + extent Block.size l) :
    getSize h.mem (hdrp (x + b.size + extent Block.size (freeRun s 0 r))) = 0 ↔
      (freeRun s 0 r).length + 1 = r.length := by
  constructor
  · intro hstop
    obtain ⟨t, ht⟩ := ht.freeRun_stop hr hx hstop
    conv_rhs => rw [ht]
    simp
  · intro hlen
    obtain ⟨rest, hsplit, -, -⟩ := freeRun_spec s 0 r
    generalize freeRun s 0 r = run at *
    subst hsplit
    obtain ⟨e, rfl⟩ : ∃ e, rest = [e] := List.length_eq_one_iff.mp (by simpa using hlen.symm)
    have ht' : Tiled h ((l ++ b :: run) ++ [e]) := by simpa using ht
    obtain ⟨t, rfl⟩ := ht'.framed.last (by simp)
    have he : BlockAt h.mem (x + b.size + extent Block.size run) (Block.epilogue t) := by
      have hat := ht'.blockAt placed_at
      simp only [extent_append, extent_cons, ← Nat.add_assoc] at hat
      rwa [hx]
    exact he.getSize_hdrp

theorem Refines.reallocSafe_iff (hr : Refines h o) (hx : Occupied o.first o.blocks x k) :
    ReallocSafe h x n ↔ o.Spares x n := by
  obtain ⟨pre, p, b, d, post, hbs, hxp, halloc, rfl, haround⟩ := hr.split hx
  have ht := hr.toTiled
  rw [hbs] at ht
  rw [← hr.first] at hxp
  have hfr : Framed ((pre ++ [p]) ++ b :: d :: post) := by simpa using ht.framed
  have hp8 := hfr.size_of_left (b := p) (by simp) (by simp)
  have hpAt : BlockAt h.mem (h.heapListp + extent Block.size pre) p := ht.blockAt placed_at
  have hbAt : BlockAt h.mem x b := ht.blockAt_behind hxp
  have hdAt : BlockAt h.mem (x + b.size) d := ht.blockAt_behind₂ hxp
  have ht' : Tiled h ((pre ++ [p]) ++ b :: d :: post) := by simpa using ht
  have hxp' : x = h.heapListp + extent Block.size (pre ++ [p]) := by simp [hxp, Nat.add_assoc]
  have hstop := ht'.stop_iff (s := bodySize n - b.size) (by simp) hxp'
  simp only [ReallocSafe, slidesSafely, growsSafely, hbAt.getSize_hdrp, hbAt.nextBlkp,
    ht.prevBlkp_eq hxp, hpAt.getSize_hdrp, hpAt.isBlockAllocated, hdAt.isBlockAllocated,
    ht'.blocksBehind_eq (by simp) hxp', hstop, hr.roving, hr.brk_eq, hr.maxAddr, hr.start]
  simp only [Outline.Spares, haround, Outline.lengthening]
  have hpne : p.size ≠ 0 := by omega
  simp [hpne]

/-- For every safe call the heap shows what the abstract reallocation computes, whichever branch
`mm_realloc` takes. -/
theorem mmRealloc_outline (hr : Refines h o) (hx : Occupied o.first o.blocks x k)
    (hn : n + 15 + padding < 2 ^ 31) (hsafe : n = 0 ∨ o.Spares x n) :
    mmRealloc h x n = none ∧ o.realloc x n = none ∨
      ∃ h' o' q, mmRealloc h x n = some (h', q) ∧ o.realloc x n = some (o', q) ∧ Refines h' o' := by
  by_cases hn0 : n = 0
  · subst hn0
    exact Or.inr ⟨h, o, null, rfl, rfl, hr⟩
  have hsafe := hsafe.resolve_left hn0
  obtain ⟨hmod, h16, hle, hlt⟩ := bodySize_spec hn
  obtain ⟨pre, p, b, d, post, hbs, hxp, halloc, rfl, haround⟩ := hr.split hx
  have hb16 : 16 ≤ b.size := by
    obtain ⟨c, -, -, hsize, heq⟩ := hx
    omega
  have hfirst := hr.first
  have ht := hr.toTiled
  rw [hbs] at ht
  have hxp₀ : x = h.heapListp + extent Block.size pre + p.size := by rw [hfirst, hxp]
  have hbs' : o.blocks = (pre ++ [p]) ++ b :: (d :: post) := by simp [hbs]
  have hxp' : x = o.first + extent Block.size (pre ++ [p]) := by simp [hxp, Nat.add_assoc]
  simp only [Outline.Spares, haround] at hsafe
  rw [mmRealloc_eq ht hxp₀ hn0 (by omega)]
  simp only [Outline.realloc, if_neg hn0, haround]
  by_cases hfits : bodySize n ≤ b.size
  · rw [if_pos hfits, if_pos hfits]
    obtain ⟨h', hfinish, hr'⟩ := hr.settle hx hn0 hfits
    exact Or.inr ⟨h', _, x, congrArg some hfinish, rfl, hr'⟩
  rw [if_neg hfits, if_neg hfits]
  have hsafe := hsafe (by omega)
  by_cases hd : d.alloc = true ∧ d.size ≠ 0
  · rw [if_pos hd] at hsafe
    rw [if_pos hd, if_pos hd]
    by_cases hslide : p.alloc = false ∧ bodySize n ≤ p.size + b.size
    · -- slide into the free block in front
      rw [if_pos hslide, if_pos hslide]
      obtain ⟨hr', hocc⟩ := hr.slide hbs hxp hslide.1 hle hslide.2
        (hsafe hslide.1 (by omega))
      obtain ⟨h', hfinish, hr'⟩ := hr'.settle hocc hn0 hslide.2
      exact Or.inr ⟨h', _, _, congrArg some hfinish, rfl, hr'⟩
    · -- copy
      rw [if_neg hslide, if_neg hslide]
      have hbehind := ht.occupied_behind hxp₀ hd
      rw [hfirst, ← hbs] at hbehind
      rcases hr.copy hx hbehind hn with ⟨hnull, hcopy⟩ | ⟨g, j, hnull, hcopy, hr', hj, hocc⟩
      · rw [hcopy, if_pos hnull]
        exact Or.inl ⟨rfl, rfl⟩
      · rw [hcopy, if_neg hnull]
        obtain ⟨h', hfinish, hr'⟩ := hr'.settle hocc hn0 hj
        exact Or.inr ⟨h', _, _, congrArg some hfinish, rfl, hr'⟩
  -- grow over the free blocks behind
  rw [if_neg hd] at hsafe
  rw [if_neg hd, if_neg hd]
  have ht' := hr.toTiled
  rw [hbs'] at ht'
  have hnext := reallocNext_eq ht' (by simp) (hfirst ▸ hxp') hmod (by omega) (not_le.mp hfits)
  dsimp only at hnext
  obtain ⟨rest, hsplit, hfree, -⟩ := freeRun_spec (bodySize n - b.size) 0 (d :: post)
  have hrunmod := extent_mod (freeRun (bodySize n - b.size) 0 (d :: post))
  generalize freeRun (bodySize n - b.size) 0 (d :: post) = run at *
  have hrest : rest ≠ [] := by
    have hfr : Framed ((pre ++ [p, b]) ++ run ++ rest) := by
      have := ht.framed
      rw [hsplit] at this
      simpa using this
    exact hfr.ne_nil_of_run (by simp) (by simp [← hsplit]) hfree
  rw [hnext]
  by_cases hge : bodySize n - b.size ≤ extent Block.size run
  · -- the free blocks have room
    rw [if_pos hge, if_pos hge]
    obtain ⟨-, hcur⟩ := hsafe.resolve_left (fun hno => absurd hno.1 (not_lt.mpr hge))
    obtain ⟨hr', hocc⟩ := hr.grow
      (show o.blocks = (pre ++ [p]) ++ (b :: run) ++ rest by rw [hbs', hsplit]; simp) (by simp) hrest
      hb16 hxp' rfl (by rwa [← Nat.add_assoc]) (-(run.length : ℤ)) (-(run.length : ℤ))
    obtain ⟨h', hfinish, hr'⟩ := hr'.settle hocc hn0 (by omega)
    exact Or.inr ⟨h', _, x, congrArg some hfinish, rfl, hr'⟩
  -- the heap has to be extended behind the free blocks
  rw [if_neg hge, if_neg hge]
  have hbmod := b.size_mod
  obtain ⟨c, hc, hcsize, hca, hct⟩ : ∃ c, c = Outline.lengthening n b.size (extent Block.size run)
      b.size_mod hrunmod ∧ c.size = max (bodySize n - b.size - extent Block.size run) chunksize ∧
      c.alloc = false ∧ c.tag = false := ⟨_, rfl, rfl, rfl, rfl⟩
  rw [← hc] at hsafe ⊢
  rw [← hcsize]
  have hc16 : 16 ≤ c.size ∧ c.size + 7 < 2 ^ 32 := by
    rw [hcsize]
    simp only [chunksize]
    omega
  by_cases hroom : o.start + maxHeap < o.brk + c.size
  · rw [if_pos hroom]
    rcases extendHeap_evolves hr.toWellFormedAs c.size_mod hc16.1 hc16.2 with ⟨hfail, -⟩ | hext
    · rw [hfail]
      exact Or.inr ⟨h, o, null, rfl, rfl, hr⟩
    · obtain ⟨-, -, -, -, -, hfit, -⟩ := hext
      rw [hr.brk_eq, hr.maxAddr, hr.start] at hfit
      exact absurd hfit (not_le.mpr hroom)
  · rw [if_neg hroom]
    obtain ⟨hstop, hcur⟩ := hsafe.resolve_left (fun hno => hroom hno.2)
    have hlen := hstop.resolve_left hge
    obtain ⟨e, rfl⟩ : ∃ e, rest = [e] := List.length_eq_one_iff.mp (by
      rw [hsplit, List.length_append] at hlen
      omega)
    obtain ⟨t, rfl⟩ : ∃ t, e = Block.epilogue t := by
      have hfr : Framed ((pre ++ p :: b :: run) ++ [e]) := by
        have := ht.framed
        rw [hsplit] at this
        simpa using this
      exact hfr.last (by simp)
    obtain ⟨h₁, y, hextend, hnull, hr', hocc⟩ := hr.lengthen
      (show o.blocks = (pre ++ [p]) ++ b :: run ++ [Block.epilogue t] by rw [hbs', hsplit]; simp)
      (by simp) halloc hb16 hfree hxp' hca hct hc16.1 hc16.2 (not_lt.mp hroom) hcur
    rw [hextend, if_neg hnull]
    obtain ⟨h', hfinish, hr'⟩ := hr'.settle hocc hn0 (by omega)
    exact Or.inr ⟨h', _, x, congrArg some hfinish, rfl, hr'⟩

end Refines

end SystemsLabs.Malloc
