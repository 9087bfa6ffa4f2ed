import Mathlib.Data.List.MinMax
import SystemsLabs.Malloc.WellFormed

/-!
# Searching a block

`find_fit` takes the first block that fits from the roving pointer on. If there is none, it
takes the smallest block that fits in front of the roving pointer. Both walks end within the
heap.
-/

namespace SystemsLabs.Malloc
open Library

/-- A free block of at least `asize` bytes that is not reserved by a tag. -/
def Block.fits (asize : ℕ) (b : Block) : Bool := asize ≤ b.size && !b.alloc && !b.tag

def firstFit (asize a : ℕ) (bs : List Block) : Option (ℕ × Block) :=
  (placed Block.size a bs).find? (fun q => q.2.fits asize)

def fitting (asize a : ℕ) (bs : List Block) : List (ℕ × Block) :=
  (placed Block.size a bs).filter (fun q => q.2.fits asize)

/-- A smallest placed block that fits, the first one among equals. -/
def smallestFit (asize a : ℕ) (bs : List Block) : Option (ℕ × Block) :=
  (fitting asize a bs).argmin (fun q => q.2.size)

lemma firstFit_cons (asize a : ℕ) (b : Block) (r : List Block) : firstFit asize a (b :: r) =
    if b.fits asize then some (a, b) else firstFit asize (a + b.size) r := by
  unfold firstFit
  rw [placed_cons, List.find?_cons]
  cases b.fits asize <;> rfl

lemma fitting_cons (asize a : ℕ) (b : Block) (l : List Block) : fitting asize a (b :: l) =
    if b.fits asize then (a, b) :: fitting asize (a + b.size) l
    else fitting asize (a + b.size) l := by
  unfold fitting
  rw [placed_cons, List.filter_cons]

section Walks

variable {m : Memory} {asize a x fuel : ℕ} {b : Block} {l r : List Block}

lemma isFit_iff (h : BlockAt m x b) : isFit m asize x ↔ b.fits asize = true := by
  unfold isFit Block.fits
  rw [h.getSize_hdrp, h.getAlloc_hdrp, h.getTag_hdrp]
  cases b.alloc <;> cases b.tag <;> simp

/-- The first loop stops at the first block that fits, or at the epilogue. -/
lemma nextFit_eq {t : Bool} (himg : Image m a (r ++ [Block.epilogue t]))
    (hr : ∀ b ∈ r, 0 < b.size) (hfuel : r.length < fuel) :
    nextFit m asize fuel a = some (match firstFit asize a r with
      | some q => (q.1, true)
      | none => (a + extent Block.size r, false)) := by
  induction r generalizing a fuel with
  | nil =>
    obtain ⟨fuel, rfl⟩ := Nat.exists_eq_succ_of_ne_zero (Nat.ne_of_gt hfuel)
    obtain ⟨he, -⟩ := image_cons.mp himg
    simp [nextFit, he.getSize_hdrp, firstFit]
  | cons b r ih =>
    obtain ⟨fuel, rfl⟩ := Nat.exists_eq_succ_of_ne_zero (Nat.ne_of_gt (Nat.zero_lt_of_lt hfuel))
    rw [List.cons_append] at himg
    obtain ⟨hb, hrest⟩ := image_cons.mp himg
    have hpos : getSize m (hdrp a) > 0 := by
      rw [hb.getSize_hdrp]
      exact hr b (by simp)
    rw [nextFit, if_pos hpos, firstFit_cons]
    by_cases hfit : b.fits asize = true
    · rw [if_pos ((isFit_iff hb).mpr hfit), if_pos hfit]
    · rw [if_neg (fun h => hfit ((isFit_iff hb).mp h)), if_neg hfit, hb.nextBlkp,
        ih hrest (fun c hc => hr c (List.mem_cons_of_mem b hc)) (by simpa using hfuel),
        extent_cons, Nat.add_assoc]

/-- The variables `best_block` and `size_best` hold the best block so far. -/
def Holds (o : Option (ℕ × Block)) (best : ℕ) (sizeBest : ℤ) : Prop :=
  match o with
  | none => best = null
  | some q => best = q.1 ∧ best ≠ null ∧ sizeBest = q.2.size

/-- The second loop keeps the smallest block that fits and stops at the old roving pointer. -/
lemma bestFit_eq {o : Option (ℕ × Block)} {best : ℕ} {sizeBest : ℤ} (himg : Image m a l)
    (ha : 0 < a) (hl : ∀ b ∈ l, 0 < b.size ∧ b.size < 2 ^ 31) (hfuel : l.length < fuel)
    (ho : Holds o best sizeBest) :
    ∃ best' sizeBest', bestFit m asize (a + extent Block.size l) fuel a best sizeBest =
        some (a + extent Block.size l, best') ∧
      Holds ((fitting asize a l).foldl (List.argAux fun p q => p.2.size < q.2.size) o)
        best' sizeBest' := by
  induction l generalizing a fuel o best sizeBest with
  | nil =>
    obtain ⟨fuel, rfl⟩ := Nat.exists_eq_succ_of_ne_zero (Nat.ne_of_gt hfuel)
    exact ⟨best, sizeBest, by simp [bestFit], by simpa [fitting] using ho⟩
  | cons b l ih =>
    obtain ⟨fuel, rfl⟩ := Nat.exists_eq_succ_of_ne_zero (Nat.ne_of_gt (Nat.zero_lt_of_lt hfuel))
    obtain ⟨hb, hrest⟩ := image_cons.mp himg
    obtain ⟨hpos, hlt⟩ := hl b (by simp)
    have hl' := fun c hc => hl c (List.mem_cons_of_mem b hc)
    have hfuel' : l.length < fuel := by simpa using hfuel
    have hint : toInt (getSize m (hdrp a)) = b.size := by
      rw [hb.getSize_hdrp]
      exact wrapSigned_of_bounds (w := 31) (by omega) (by omega)
    rw [bestFit, if_pos (by rw [extent_cons]; omega), hint, hb.nextBlkp, extent_cons,
      ← Nat.add_assoc, fitting_cons]
    by_cases hfit : b.fits asize = true
    · rw [if_pos hfit, List.foldl_cons]
      by_cases hbest : best = null ∨ (b.size : ℤ) < sizeBest
      · rw [if_pos ⟨(isFit_iff hb).mpr hfit, hbest⟩]
        refine ih hrest (by omega) hl' hfuel' ?_
        cases o with
        | none => exact ⟨rfl, by simp only [null]; omega, rfl⟩
        | some q =>
          obtain ⟨h1, h2, h3⟩ := ho
          have hless : b.size < q.2.size := by
            have := hbest.resolve_left h2
            omega
          simp only [List.argAux, if_pos hless]
          exact ⟨rfl, by simp only [null]; omega, rfl⟩
      · rw [if_neg (fun h => hbest h.2)]
        refine ih hrest (by omega) hl' hfuel' ?_
        cases o with
        | none => exact absurd (Or.inl ho) hbest
        | some q =>
          obtain ⟨h1, h2, h3⟩ := ho
          have hless : ¬b.size < q.2.size := fun h => hbest (Or.inr (by omega))
          simp only [List.argAux, if_neg hless]
          exact ⟨h1, h2, h3⟩
    · rw [if_neg hfit, if_neg (fun h => hfit ((isFit_iff hb).mp h.1))]
      exact ih hrest (by omega) hl' hfuel' ho

end Walks

/-! ### `find_fit` -/

/-- The block list of a tiled heap, split in front of one of its blocks and at the epilogue. -/
lemma Tiled.split_at {h : Heap} {bs : List Block} {x : ℕ} {b : Block} (ht : Tiled h bs)
    (hx : (x, b) ∈ placed Block.size h.heapListp bs) :
    ∃ l r t, bs = l ++ (r ++ [Block.epilogue t]) ∧ x = h.heapListp + extent Block.size l ∧
      (∀ c ∈ l, 0 < c.size) ∧ ∀ c ∈ r, 0 < c.size := by
  obtain ⟨l, post, rfl, rfl⟩ := mem_placed_iff.mp hx
  obtain ⟨r, e, hr⟩ : ∃ r e, b :: post = r ++ [e] :=
    ⟨_, _, (List.dropLast_append_getLast (List.cons_ne_nil b post)).symm⟩
  have hfr := ht.framed
  rw [hr] at hfr ⊢
  have hlr : l ++ r ≠ [] := by
    intro hnil
    rw [← List.append_assoc, hnil] at hfr
    exact hfr.first.2 rfl
  obtain ⟨t, rfl⟩ := Framed.last (l := l ++ r) (b := e) (by simpa using hfr) hlr
  have hpos : ∀ c ∈ l ++ r, 0 < c.size := fun c hc => by
    have := Framed.size_of_left (l := l ++ r) (r := [Block.epilogue t]) (b := c)
      (by simpa using hfr) (by simp) hc
    omega
  exact ⟨l, r, t, rfl, rfl, fun c hc => hpos c (List.mem_append_left r hc),
    fun c hc => hpos c (List.mem_append_right l hc)⟩

/-- `find_fit` of a heap whose blocks are `l` in front of the roving pointer and `r` from it on:
the first fit of `r`, else the smallest fit of `l`. -/
theorem findFit_eq {h : Heap} {l r : List Block} {t : Bool}
    (ht : Tiled h (l ++ (r ++ [Block.epilogue t]))) (hl : ∀ b ∈ l, 0 < b.size)
    (hr : ∀ b ∈ r, 0 < b.size) (hcur : h.currentBlock = h.heapListp + extent Block.size l)
    (asize : ℕ) :
    findFit h asize = some (match firstFit asize h.currentBlock r with
      | some q => ({ h with currentBlock := q.1 }, q.1)
      | none => (h, ((smallestFit asize h.heapListp l).map Prod.fst).getD null)) := by
  obtain ⟨hlImg, hrImg⟩ := image_append.mp ht.image
  have hlistp := ht.listp
  have hbrk := ht.brk
  have hlen := length_le_extent Block.size hl
  have hlen' := length_le_extent Block.size hr
  have hext := ht.extent_lt
  simp only [extent_append, extent_cons, extent_nil, Block.epilogue_size] at hbrk hext
  have hbound : walkBound h = 8 + extent Block.size l + extent Block.size r := by
    unfold walkBound
    omega
  rw [← hcur] at hrImg
  unfold findFit
  simp only [nextFit_eq hrImg hr (show r.length < walkBound h by omega)]
  cases firstFit asize h.currentBlock r with
  | some q => rfl
  | none =>
    have hsmall : ∀ b ∈ l, 0 < b.size ∧ b.size < 2 ^ 31 := fun b hb => by
      have := ht.size_lt (b := b) (by simp [hb])
      exact ⟨hl b hb, by omega⟩
    obtain ⟨best, sizeBest, heq, hbest⟩ : ∃ best sizeBest, bestFit h.mem asize
        (h.heapListp + extent Block.size l) (walkBound h) h.heapListp null 0 =
          some (h.heapListp + extent Block.size l, best) ∧
        Holds (smallestFit asize h.heapListp l) best sizeBest :=
      bestFit_eq hlImg (by omega) hsmall (by omega) rfl
    rw [← hcur] at heq
    simp only [heq]
    cases hs : smallestFit asize h.heapListp l with
    | none =>
      rw [hs] at hbest
      rw [show best = null from hbest]
      rfl
    | some q =>
      rw [hs] at hbest
      rw [show best = q.1 from hbest.1]
      rfl

/-- In a list sorted by `g`, the first of the minimal entries is the one of least `g`. -/
lemma argmin_leftmost {α : Type*} {f g : α → ℕ} {q : α} {l : List α} (hq : q ∈ l.argmin f)
    (hl : l.Pairwise (fun q r => g q ≤ g r)) {r : α} (hr : r ∈ l) :
    f q < f r ∨ f q = f r ∧ g q ≤ g r := by
  induction l generalizing q with
  | nil => simp at hr
  | cons b l ih =>
    obtain ⟨hb, hl⟩ := List.pairwise_cons.mp hl
    rw [List.argmin_cons] at hq
    cases hmin : l.argmin f with
    | none =>
      rw [hmin] at hq
      obtain rfl : b = q := by simpa using hq
      rw [List.argmin_eq_none.mp hmin, List.mem_singleton] at hr
      exact Or.inr ⟨by rw [hr], by rw [hr]⟩
    | some c =>
      have hc := List.argmin_mem hmin
      simp only [hmin] at hq
      by_cases hless : f c < f b
      · obtain rfl : c = q := by simpa [hless] using hq
        rcases List.mem_cons.mp hr with rfl | hr
        · exact Or.inl hless
        · exact ih hmin hl hr
      · obtain rfl : b = q := by simpa [hless] using hq
        rcases List.mem_cons.mp hr with rfl | hr
        · exact Or.inr ⟨rfl, le_rfl⟩
        · have hge := hb r hr
          rcases ih hmin hl hr with hlt | ⟨heq, -⟩ <;> omega

/-- What `find_fit` looks for in a block list: the first fit from `cur` on, else the smallest
fit in front of it, and where it leaves the roving pointer. -/
def seek (asize a : ℕ) (bs : List Block) (cur : ℕ) : Option (ℕ × Block) × ℕ :=
  match ((placed Block.size a bs).filter (fun q => cur ≤ q.1)).find? (fun q => q.2.fits asize) with
  | some q => (some q, q.1)
  | none => ((((placed Block.size a bs).filter (fun q => q.1 < cur)).filter
      (fun q => q.2.fits asize)).argmin (fun q => q.2.size), cur)

section Seek

variable {asize a cur : ℕ} {bs : List Block}

lemma seek_some {q : ℕ × Block} (h : (seek asize a bs cur).1 = some q) :
    q ∈ placed Block.size a bs ∧ q.2.fits asize = true := by
  unfold seek at h
  cases hf : ((placed Block.size a bs).filter (fun q => cur ≤ q.1)).find?
      (fun q => q.2.fits asize) with
  | some q' =>
    rw [hf] at h
    obtain rfl := Option.some.inj h
    exact ⟨List.mem_of_mem_filter (List.mem_of_find?_eq_some hf),
      List.find?_some (p := fun q : ℕ × Block => q.2.fits asize) hf⟩
  | none =>
    rw [hf] at h
    have hmem := List.mem_filter.mp (List.argmin_mem h)
    exact ⟨List.mem_of_mem_filter hmem.1, hmem.2⟩

lemma seek_none (h : (seek asize a bs cur).1 = none) :
    (seek asize a bs cur).2 = cur ∧ ∀ b ∈ bs, b.fits asize = false := by
  unfold seek at h ⊢
  cases hf : ((placed Block.size a bs).filter (fun q => cur ≤ q.1)).find?
      (fun q => q.2.fits asize) with
  | some q => rw [hf] at h; cases h
  | none =>
    rw [hf] at h
    refine ⟨rfl, fun b hb => ?_⟩
    obtain ⟨pre, post, rfl⟩ := List.append_of_mem hb
    have hplace : (a + extent Block.size pre, b) ∈ placed Block.size a (pre ++ b :: post) :=
      mem_placed_iff.mpr ⟨pre, post, rfl, rfl⟩
    rw [← Bool.not_eq_true]
    intro hfit
    by_cases hcur : cur ≤ a + extent Block.size pre
    · exact List.find?_eq_none.mp hf _ (List.mem_filter.mpr ⟨hplace, by simpa using hcur⟩) hfit
    · have hnil := List.argmin_eq_none.mp h
      have hmem : (a + extent Block.size pre, b) ∈ ((placed Block.size a (pre ++ b :: post)).filter
          (fun q => q.1 < cur)).filter (fun q => q.2.fits asize) :=
        List.mem_filter.mpr ⟨List.mem_filter.mpr ⟨hplace, by simpa using hcur⟩, hfit⟩
      rw [hnil] at hmem
      simp at hmem

/-- A fit from `cur` on is found in the order of the addresses. -/
lemma seek_behind {q : ℕ × Block} (hq : q ∈ placed Block.size a bs) (hfit : q.2.fits asize = true)
    (hcur : cur ≤ q.1) : ∃ r, seek asize a bs cur = (some r, r.1) ∧ r ∈ placed Block.size a bs ∧
      r.2.fits asize = true ∧ cur ≤ r.1 ∧ r.1 ≤ q.1 := by
  have hmem : q ∈ (placed Block.size a bs).filter (fun q => cur ≤ q.1) :=
    List.mem_filter.mpr ⟨hq, by simpa using hcur⟩
  cases hf : ((placed Block.size a bs).filter (fun q => cur ≤ q.1)).find?
      (fun q => q.2.fits asize) with
  | none => exact absurd hfit (List.find?_eq_none.mp hf q hmem)
  | some r =>
    obtain ⟨hrfit, pre, post, hsplit, hpre⟩ := List.find?_eq_some_iff_append.mp hf
    have hr := List.mem_filter.mp (List.mem_of_find?_eq_some hf)
    refine ⟨r, by rw [seek, hf], hr.1, hrfit, by simpa using hr.2, ?_⟩
    have hsorted := (placed_pairwise Block.size a bs).filter (fun q => cur ≤ q.1)
    rw [hsplit] at hmem hsorted
    rcases List.mem_append.mp hmem with hpre' | hpost
    · have hno := hpre q hpre'
      rw [hfit] at hno
      cases hno
    · rcases List.mem_cons.mp hpost with rfl | hpost
      · exact le_rfl
      · have hle := List.rel_of_pairwise_cons (List.pairwise_append.mp hsorted).2.1 hpost
        omega

/-- Without a fit from `cur` on, a smallest fit is found, and the first one among equals. -/
lemma seek_front (hno : ∀ q ∈ placed Block.size a bs, q.2.fits asize = true → q.1 < cur) :
    (seek asize a bs cur).2 = cur ∧ ∀ q, (seek asize a bs cur).1 = some q →
      ∀ r ∈ placed Block.size a bs, r.2.fits asize = true →
        q.2.size < r.2.size ∨ q.2.size = r.2.size ∧ q.1 ≤ r.1 := by
  have hf : ((placed Block.size a bs).filter (fun q => cur ≤ q.1)).find?
      (fun q => q.2.fits asize) = none := by
    rw [List.find?_eq_none]
    intro q hq hfit
    obtain ⟨hq, hcur⟩ := List.mem_filter.mp hq
    have hlt := hno q hq hfit
    simp only [decide_eq_true_eq] at hcur
    omega
  unfold seek
  rw [hf]
  refine ⟨rfl, fun q hq r hr hrfit => ?_⟩
  refine argmin_leftmost (g := Prod.fst) hq ?_ ?_
  · exact (((placed_pairwise Block.size a bs).imp fun h => (Nat.le_add_right _ _).trans h).filter _).filter _
  · exact List.mem_filter.mpr ⟨List.mem_filter.mpr ⟨hr, by simpa using hno r hr hrfit⟩, hrfit⟩

lemma seek_start (hbs : Framed bs) (hcur : Start a bs cur) :
    Start a bs (seek asize a bs cur).2 := by
  cases hs : (seek asize a bs cur).1 with
  | none => rwa [(seek_none hs).1]
  | some q =>
    obtain ⟨hq, hfit⟩ := seek_some hs
    unfold seek at hs ⊢
    cases hf : ((placed Block.size a bs).filter (fun q => cur ≤ q.1)).find?
        (fun q => q.2.fits asize) with
    | none => exact hcur
    | some q' =>
      rw [hf] at hs
      obtain rfl := Option.some.inj hs
      refine ⟨q'.2, hq, ?_⟩
      obtain ⟨pre, post, rfl⟩ := List.append_of_mem (mem_of_mem_placed hq)
      simp only [Block.fits, Bool.and_eq_true, Bool.not_eq_true'] at hfit
      have hne := hbs.ne_nil_of_free hfit.1.2
      have := hbs.ordinary hne.1 hne.2
      omega

end Seek

/-- `find_fit` in a tiled heap whose roving pointer is at any block, the epilogue included. It
always ends. -/
theorem Tiled.findFit_seek {h : Heap} {bs : List Block} {b : Block} (ht : Tiled h bs)
    (hcur : (h.currentBlock, b) ∈ placed Block.size h.heapListp bs) (asize : ℕ) :
    findFit h asize = some
      ({ h with currentBlock := (seek asize h.heapListp bs h.currentBlock).2 },
        ((seek asize h.heapListp bs h.currentBlock).1.map Prod.fst).getD null) := by
  obtain ⟨l, r, t, rfl, hcur, hl, hr⟩ := ht.split_at hcur
  have hfirst : (placed Block.size h.currentBlock (r ++ [Block.epilogue t])).find?
      (fun q => q.2.fits asize) = firstFit asize h.currentBlock r := by
    rw [placed_append, List.find?_append, firstFit]
    cases (placed Block.size h.currentBlock r).find? (fun q => q.2.fits asize) with
    | some q => rfl
    | none => simp [Block.fits]
  rw [findFit_eq ht hl hr hcur asize]
  unfold seek
  rw [hcur, filter_placed_ge hl, filter_placed_lt hl, ← hcur, hfirst]
  cases firstFit asize h.currentBlock r <;> rfl

theorem findFit_seek {h : Heap} {bs : List Block} (hw : WellFormedAs h bs) (asize : ℕ) :
    findFit h asize = some
      ({ h with currentBlock := (seek asize h.heapListp bs h.currentBlock).2 },
        ((seek asize h.heapListp bs h.currentBlock).1.map Prod.fst).getD null) := by
  obtain ⟨b, hb, -⟩ := hw.current
  exact hw.toTiled.findFit_seek hb asize

end SystemsLabs.Malloc
