import SystemsLabs.Malloc.WellFormed

/-!
# Walking the heap

The block list can be read from the memory alone: the walk follows the header sizes to the
epilogue. In a tiled heap it finds exactly the blocks that the heap shows.
-/

namespace SystemsLabs.Malloc
open Library

/-- The block that the header in front of `bp` describes. -/
def readBlock (m : Memory) (bp : ℕ) : Block where
  size := getSize m (hdrp bp)
  alloc := getAlloc m (hdrp bp) ≠ 0
  tag := getTag m (hdrp bp) ≠ 0
  size_mod := by rw [getSize_eq]; omega

/-- The blocks from `bp` on, up to and including the epilogue. -/
def walk (m : Memory) : ℕ → ℕ → List (ℕ × Block)
  | 0, _ => []
  | fuel + 1, bp =>
    let b := readBlock m bp
    if b.size = 0 then [(bp, b)] else (bp, b) :: walk m fuel (nextBlkp m bp)

def blockList (h : Heap) : List (ℕ × Block) := walk h.mem (walkBound h) h.heapListp

/-- The blocks behind the block at `bp`. -/
def blocksBehind (h : Heap) (bp : ℕ) : List Block :=
  (walk h.mem (walkBound h) (nextBlkp h.mem bp)).map Prod.snd

/-- The free blocks at the head of a list, until their bytes and `acc` exceed `size`. -/
def freeRun (size : ℕ) : ℕ → List Block → List Block
  | _, [] => []
  | acc, b :: bs =>
    if b.alloc then []
    else if acc + b.size > size then [b]
    else b :: freeRun size (acc + b.size) bs

section Walk

variable {m : Memory} {a x fuel size acc : ℕ} {b : Block} {r : List Block}

lemma readBlock_eq (h : BlockAt m x b) : readBlock m x = b := by
  ext
  · exact h.getSize_hdrp
  · simp only [readBlock, h.getAlloc_hdrp]
    cases b.alloc <;> simp
  · simp only [readBlock, h.getTag_hdrp]
    cases b.tag <;> simp

lemma walk_eq {t : Bool} (himg : Image m a (r ++ [Block.epilogue t])) (hr : ∀ b ∈ r, b.size ≠ 0)
    (hfuel : r.length < fuel) :
    walk m fuel a = placed Block.size a (r ++ [Block.epilogue t]) := by
  induction r generalizing a fuel with
  | nil =>
    cases fuel with
    | zero => simp at hfuel
    | succ fuel => simp [walk, readBlock_eq (image_cons.mp himg).1]
  | cons b r ih =>
    cases fuel with
    | zero => simp at hfuel
    | succ fuel =>
      have hb := image_cons.mp himg
      rw [walk, readBlock_eq hb.1, if_neg (hr b (by simp)), hb.1.nextBlkp,
        ih hb.2 (fun c hc => hr c (List.mem_cons_of_mem b hc)) (by simpa using hfuel)]
      rfl

/-- From a block start on, the walk of a tiled heap finds the rest of its blocks. -/
lemma Tiled.walk_eq {h : Heap} {l r : List Block} (ht : Tiled h (l ++ r)) (hr : r ≠ [])
    (hx : x = h.heapListp + extent Block.size l) :
    walk h.mem (walkBound h) x = placed Block.size x r := by
  have hlistp := ht.listp
  have hbrk := ht.brk
  obtain ⟨r', e, rfl⟩ : ∃ r' e, r = r' ++ [e] := ⟨_, _, (List.dropLast_append_getLast hr).symm⟩
  have hlr : l ++ r' ≠ [] := by
    intro hnil
    have hfr := ht.framed
    rw [← List.append_assoc, hnil] at hfr
    exact hfr.first.2 rfl
  obtain ⟨t, rfl⟩ := Framed.last (l := l ++ r') (b := e) (by simpa using ht.framed) hlr
  have hpos : ∀ c ∈ r', 0 < c.size := by
    intro c hc
    have := Framed.size_of_left (l := l ++ r') (r := [Block.epilogue t]) (b := c)
      (by simpa using ht.framed) (by simp) (by simp [hc])
    omega
  have hlen := length_le_extent Block.size hpos
  simp only [extent_append] at hbrk
  subst hx
  apply Malloc.walk_eq (image_append.mp ht.image).2
  · intro c hc
    have := hpos c hc
    omega
  · unfold walkBound
    omega

/-- The walk finds the blocks that a tiled heap shows. -/
theorem Tiled.blockList_eq {h : Heap} {bs : List Block} (ht : Tiled h bs) :
    blockList h = placed Block.size h.heapListp bs := by
  apply Tiled.walk_eq (l := []) ht
  · rintro rfl
    obtain ⟨os, t, heq, -⟩ := ht.framed
    simp at heq
  · simp

/-- The allocated ordinary blocks that a walk over the heap finds. -/
def AllocatedAt (h : Heap) (p : ℕ) (b : Block) : Prop :=
  (p, b) ∈ blockList h ∧ b.alloc = true ∧ 16 ≤ b.size

lemma Tiled.allocatedAt_iff {h : Heap} {bs : List Block} (ht : Tiled h bs) {p k : ℕ} :
    (∃ b, AllocatedAt h p b ∧ b.size = k) ↔ Occupied h.heapListp bs p k := by
  unfold AllocatedAt Occupied
  simp only [ht.blockList_eq, and_assoc]

lemma map_snd_placed (a : ℕ) (bs : List Block) : (placed Block.size a bs).map Prod.snd = bs := by
  induction bs generalizing a with
  | nil => rfl
  | cons b bs ih => simp [ih]

/-- A tiled heap shows only one block list. -/
theorem Tiled.unique {h : Heap} {bs bs' : List Block} (ht : Tiled h bs) (ht' : Tiled h bs') :
    bs = bs' := by
  rw [← map_snd_placed h.heapListp bs, ← ht.blockList_eq, ht'.blockList_eq, map_snd_placed]

lemma Tiled.blocksBehind_eq {h : Heap} {l r : List Block} (ht : Tiled h (l ++ b :: r))
    (hr : r ≠ []) (hx : x = h.heapListp + extent Block.size l) : blocksBehind h x = r := by
  subst hx
  have hb := ht.blockAt (mem_placed_iff.mpr ⟨l, r, rfl, rfl⟩)
  have ht' : Tiled h ((l ++ [b]) ++ r) := by simpa using ht
  rw [blocksBehind, hb.nextBlkp, ht'.walk_eq hr (by simp [Nat.add_assoc]), map_snd_placed]

/-! ### Runs of free blocks -/

/-- The run is a prefix of free blocks. It stops early only when it has enough bytes. -/
lemma freeRun_spec (size acc : ℕ) (r : List Block) : ∃ rest, r = freeRun size acc r ++ rest ∧
    (∀ c ∈ freeRun size acc r, c.alloc = false) ∧
      (acc + extent Block.size (freeRun size acc r) ≤ size →
        ∀ c ∈ rest.head?, c.alloc = true) := by
  induction r generalizing acc with
  | nil => exact ⟨[], by simp [freeRun]⟩
  | cons b r ih =>
    unfold freeRun
    by_cases hb : b.alloc = true
    · rw [if_pos hb]
      exact ⟨b :: r, by simp [hb]⟩
    rw [if_neg hb]
    rw [Bool.not_eq_true] at hb
    by_cases hsize : acc + b.size > size
    · rw [if_pos hsize]
      refine ⟨r, rfl, by simp [hb], fun hle => ?_⟩
      simp only [extent_cons, extent_nil] at hle
      omega
    · rw [if_neg hsize]
      obtain ⟨rest, heq, hfree, hrest⟩ := ih (acc + b.size)
      refine ⟨rest, by rw [List.cons_append, ← heq], ?_, fun hle => hrest ?_⟩
      · intro c hc
        rcases List.mem_cons.mp hc with rfl | hc
        · exact hb
        · exact hfree c hc
      · rw [extent_cons] at hle
        omega

end Walk

end SystemsLabs.Malloc
