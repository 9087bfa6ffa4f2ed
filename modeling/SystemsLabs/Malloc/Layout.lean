import SystemsLabs.Library.Tiling
import SystemsLabs.Malloc.Allocator

/-!
# Block lists

The abstract heap is the list of its blocks, from the prologue to the epilogue. A memory
shows a list of blocks when every block has its header in front of its start and, unless it
is the epilogue, a footer with the same size and allocation bit in its last word. The tag
bit of a footer is left open: `PUT_WITH_TAG` copies it from whatever the word held before.
-/

namespace SystemsLabs.Malloc
open Library

/-- A block as its header describes it. -/
@[ext] structure Block where
  size : ℕ
  alloc : Bool
  tag : Bool
  size_mod : size % 8 = 0
  deriving DecidableEq

namespace Block

def header (b : Block) : ℕ := b.size + 2 * b.tag.toNat + b.alloc.toNat

def prologue : Block := ⟨8, true, false, rfl⟩

def epilogue (tag : Bool) : Block := ⟨0, true, tag, rfl⟩

def withTag (b : Block) (tag : Bool) : Block := { b with tag := tag }

def freed (b : Block) : Block := { b with alloc := false }

/-- The join of a free block with its right neighbour. -/
def merge (b c : Block) : Block where
  size := b.size + c.size
  alloc := false
  tag := b.tag
  size_mod := by have := b.size_mod; have := c.size_mod; omega

@[simp] lemma withTag_size (b : Block) (t : Bool) : (b.withTag t).size = b.size := rfl
@[simp] lemma withTag_alloc (b : Block) (t : Bool) : (b.withTag t).alloc = b.alloc := rfl
@[simp] lemma withTag_tag (b : Block) (t : Bool) : (b.withTag t).tag = t := rfl
@[simp] lemma freed_size (b : Block) : b.freed.size = b.size := rfl
@[simp] lemma freed_alloc (b : Block) : b.freed.alloc = false := rfl
@[simp] lemma freed_tag (b : Block) : b.freed.tag = b.tag := rfl
@[simp] lemma merge_size (b c : Block) : (b.merge c).size = b.size + c.size := rfl
@[simp] lemma merge_alloc (b c : Block) : (b.merge c).alloc = false := rfl
@[simp] lemma merge_tag (b c : Block) : (b.merge c).tag = b.tag := rfl
@[simp] lemma prologue_size : prologue.size = 8 := rfl
@[simp] lemma prologue_alloc : prologue.alloc = true := rfl
@[simp] lemma prologue_tag : prologue.tag = false := rfl
@[simp] lemma epilogue_size (t : Bool) : (epilogue t).size = 0 := rfl
@[simp] lemma epilogue_alloc (t : Bool) : (epilogue t).alloc = true := rfl
@[simp] lemma epilogue_tag (t : Bool) : (epilogue t).tag = t := rfl

end Block

/-! ### Fields of a header word -/

/-- The fields of a word: its size part, its tag bit and its allocation bit. -/
lemma getSize_eq (m : Memory) (p : ℕ) : getSize m p = loadWord m p / 8 * 8 :=
  land_high_mask (w := 32) (k := 3) (loadWord_lt m p) (by norm_num)

lemma getAlloc_eq (m : Memory) (p : ℕ) : getAlloc m p = loadWord m p % 2 := land_one _

lemma getTag_eq (m : Memory) (p : ℕ) : getTag m p = 2 * (loadWord m p / 2 % 2) := land_two _

section HeaderWord

variable {m : Memory} {p : ℕ} {b : Block}

lemma Block.header_fields (b : Block) : b.header / 8 * 8 = b.size ∧ b.header % 2 = b.alloc.toNat ∧
    b.header / 2 % 2 = b.tag.toNat := by
  have h := b.size_mod
  unfold Block.header
  cases b.alloc <;> cases b.tag <;> simp only [Bool.toNat_true, Bool.toNat_false] <;> omega

lemma getSize_header (h : loadWord m p = b.header) : getSize m p = b.size := by
  rw [getSize_eq, h, b.header_fields.1]

lemma getAlloc_header (h : loadWord m p = b.header) : getAlloc m p = b.alloc.toNat := by
  rw [getAlloc_eq, h, b.header_fields.2.1]

lemma getTag_header (h : loadWord m p = b.header) : getTag m p = 2 * b.tag.toNat := by
  rw [getTag_eq, h, b.header_fields.2.2]

lemma pack_eq {size alloc : ℕ} (hs : size % 8 = 0) (ha : alloc < 8) : pack size alloc = size + alloc :=
  lor_low_bits (k := 3) hs (by omega)

/-- What `PUT_WITH_TAG` writes over a word with tag bit `t`. -/
lemma pack_lor_tag {size : ℕ} (hs : size % 8 = 0) (a t : Bool) :
    pack size a.toNat ||| 2 * t.toNat = size + 2 * t.toNat + a.toNat := by
  have ha := Bool.toNat_lt a
  have ht := Bool.toNat_lt t
  have hlow : a.toNat ||| 2 * t.toNat = 2 * t.toNat + a.toNat := by cases a <;> cases t <;> rfl
  rw [pack, Nat.or_assoc, hlow, lor_low_bits (k := 3) hs (by omega), Nat.add_assoc]

lemma header_lor_tag (b : Block) : b.header ||| 2 = (b.withTag true).header := by
  have h := pack_lor_tag b.size_mod b.alloc b.tag
  have ht := pack_lor_tag b.size_mod b.alloc true
  unfold Block.header
  rw [Block.withTag_size, Block.withTag_alloc, Block.withTag_tag, ← h, ← ht, Nat.or_assoc]
  cases b.tag <;> rfl

lemma header_land_untag (b : Block) (hb : b.header < 2 ^ 32) :
    b.header &&& 0xFFFFFFFD = (b.withTag false).header := by
  have hmod := b.size_mod
  rw [land_split 3, show (0xFFFFFFFD : ℕ) / 2 ^ 3 = 2 ^ 29 - 1 from rfl,
    Nat.and_two_pow_sub_one_eq_mod, Nat.mod_eq_of_lt (by omega)]
  unfold Block.header
  rw [Block.withTag_size, Block.withTag_alloc, Block.withTag_tag]
  have ha := Bool.toNat_lt b.alloc
  have ht := Bool.toNat_lt b.tag
  have hdiv : (b.size + 2 * b.tag.toNat + b.alloc.toNat) / 2 ^ 3 = b.size / 8 := by omega
  have hrem : (b.size + 2 * b.tag.toNat + b.alloc.toNat) % 2 ^ 3 =
      2 * b.tag.toNat + b.alloc.toNat := by omega
  have hlow : 2 * b.tag.toNat + b.alloc.toNat &&& 0xFFFFFFFD % 2 ^ 3 = b.alloc.toNat := by
    cases b.tag <;> cases b.alloc <;> rfl
  rw [hdiv, hrem, hlow, Bool.toNat_false]
  omega

lemma getTag_toNat (m : Memory) (p : ℕ) : ∃ t : Bool, getTag m p = 2 * t.toNat := by
  rw [getTag_eq]
  rcases Nat.mod_two_eq_zero_or_one (loadWord m p / 2) with h | h
  · exact ⟨false, by rw [h]; rfl⟩
  · exact ⟨true, by rw [h]; rfl⟩

lemma Block.header_lt {b : Block} (hb : b.size < 2 ^ 32) : b.header < 2 ^ 32 := by
  have := b.size_mod
  have := Bool.toNat_lt b.tag
  have := Bool.toNat_lt b.alloc
  unfold Block.header
  omega

end HeaderWord

/-! ### Memories that show a list of blocks -/

/-- The header of `b` stands in front of `x`, and a footer that agrees with it ends the block. -/
def BlockAt (m : Memory) (x : ℕ) (b : Block) : Prop :=
  loadWord m (x - 4) = b.header ∧
    (b.size ≠ 0 → getSize m (x + b.size - 8) = b.size ∧ getAlloc m (x + b.size - 8) = b.alloc.toNat)

/-- The memory shows the blocks end to end, the first one starting at `a`. -/
def Image (m : Memory) (a : ℕ) (bs : List Block) : Prop :=
  ∀ q ∈ placed Block.size a bs, BlockAt m q.1 q.2

section Image

variable {m m' : Memory} {a x : ℕ} {b : Block} {bs l r : List Block}

lemma Image.nil (m : Memory) (a : ℕ) : Image m a [] := by
  intro q hq
  simp at hq

lemma image_cons : Image m a (b :: bs) ↔ BlockAt m a b ∧ Image m (a + b.size) bs := by
  unfold Image
  rw [placed_cons, List.forall_mem_cons]

lemma image_append : Image m a (l ++ r) ↔ Image m a l ∧ Image m (a + extent Block.size l) r := by
  unfold Image
  rw [placed_append, List.forall_mem_append]

/-- A block is read off its header and its footer. -/
lemma BlockAt.congr_words (h : BlockAt m x b)
    (hhdr : ∀ y, x - 4 ≤ y → y < x - 4 + 4 → m' y = m y)
    (hftr : b.size ≠ 0 → ∀ y, x + b.size - 8 ≤ y → y < x + b.size - 8 + 4 → m' y = m y) :
    BlockAt m' x b := by
  refine ⟨(loadWord_congr hhdr).trans h.1, fun hne => ?_⟩
  rw [getSize_eq, getAlloc_eq, loadWord_congr (hftr hne), ← getSize_eq, ← getAlloc_eq]
  exact h.2 hne

/-- A block survives a change of memory outside of it. -/
lemma BlockAt.congr (h : BlockAt m x b) (hx : 4 ≤ x) (hb : 8 ≤ b.size ∨ b.size = 0)
    (hag : ∀ y, x - 4 ≤ y → (y < x ∨ y < x + b.size - 4) → m' y = m y) : BlockAt m' x b :=
  h.congr_words (fun y h1 h2 => hag y h1 (by omega))
    (fun hne y h1 h2 => hag y (by omega) (by omega))

/-- Blocks survive a change of memory behind their last word. -/
lemma Image.congr_below (h : Image m a l) (ha : 4 ≤ a) (hl : ∀ b ∈ l, 8 ≤ b.size)
    (hag : ∀ y, y < a + extent Block.size l - 4 → m' y = m y) : Image m' a l := by
  rintro ⟨x, b⟩ hq
  have hlo := le_of_mem_placed hq
  have hhi := add_le_of_mem_placed hq
  have hsize := hl b (mem_of_mem_placed hq)
  refine (h _ hq).congr (by simp only; omega) (Or.inl hsize) (fun y h1 h2 => hag y ?_)
  simp only at h1 h2
  omega

/-- Blocks survive a change of memory in front of their first header. -/
lemma Image.congr_above (h : Image m a r) (ha : 4 ≤ a) (hr : ∀ b ∈ r, 8 ≤ b.size ∨ b.size = 0)
    (hag : ∀ y, a - 4 ≤ y → m' y = m y) : Image m' a r := by
  rintro ⟨x, b⟩ hq
  have hlo := le_of_mem_placed hq
  refine (h _ hq).congr (by simp only; omega) (hr b (mem_of_mem_placed hq)) (fun y h1 h2 => hag y ?_)
  simp only at h1
  omega

end Image

/-! ### Macros at a block -/

section Macros

variable {m : Memory} {x : ℕ} {b : Block}

lemma BlockAt.getSize_hdrp (h : BlockAt m x b) : getSize m (hdrp x) = b.size := getSize_header h.1

lemma BlockAt.getAlloc_hdrp (h : BlockAt m x b) : getAlloc m (hdrp x) = b.alloc.toNat :=
  getAlloc_header h.1

lemma BlockAt.getTag_hdrp (h : BlockAt m x b) : getTag m (hdrp x) = 2 * b.tag.toNat :=
  getTag_header h.1

lemma BlockAt.nextBlkp (h : BlockAt m x b) : nextBlkp m x = x + b.size := by
  unfold Malloc.nextBlkp
  rw [show x - wsize = hdrp x from rfl, h.getSize_hdrp]

lemma BlockAt.ftrp (h : BlockAt m x b) : ftrp m x = x + b.size - 8 := by
  unfold Malloc.ftrp
  rw [h.getSize_hdrp, dsize]

lemma BlockAt.prevBlkp (h : BlockAt m x b) (hb : b.size ≠ 0) : prevBlkp m (x + b.size) = x := by
  unfold Malloc.prevBlkp
  rw [dsize, (h.2 hb).1, Nat.add_sub_cancel]

lemma BlockAt.isBlockAllocated (h : BlockAt m x b) :
    isBlockAllocated m x = (b.alloc && b.size ≠ 0) := by
  unfold Malloc.isBlockAllocated
  rw [h.getAlloc_hdrp, h.getSize_hdrp]
  cases b.alloc <;> rfl

end Macros

end SystemsLabs.Malloc
