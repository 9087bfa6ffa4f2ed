import SystemsLabs.Malloc.Layout

/-!
# Well-formed heaps

A heap is tiled when its memory shows a block list from the prologue to the epilogue that
ends at the break, and every tagged header stands behind an allocated block. It is well
formed when the roving pointer is moreover the start of one of the blocks.
-/

namespace SystemsLabs.Malloc
open Library

/-! ### Block lists from prologue to epilogue -/

/-- A prologue, ordinary blocks of at least 16 bytes, and an epilogue. -/
def Framed (bs : List Block) : Prop :=
  ∃ os t, bs = Block.prologue :: (os ++ [Block.epilogue t]) ∧ ∀ b ∈ os, 16 ≤ b.size

/-- Only a block behind an allocated one carries the tag. -/
def TagBehind (b c : Block) : Prop := c.tag = true → b.alloc = true

/-- Of two adjacent free blocks the left one carries the tag. -/
def KeptApart (b c : Block) : Prop := b.alloc = false → c.alloc = false → b.tag = true

section Framed

variable {l mid mid' r : List Block} {b : Block}

lemma Framed.split (h : Framed (l ++ mid ++ r)) (hl : l ≠ []) (hr : r ≠ []) :
    ∃ l' r' t, l = Block.prologue :: l' ∧ r = r' ++ [Block.epilogue t] ∧
      ∀ b ∈ l' ++ mid ++ r', 16 ≤ b.size := by
  obtain ⟨os, t, heq, hsize⟩ := h
  cases l with
  | nil => exact absurd rfl hl
  | cons p l' =>
    obtain ⟨r', e, rfl⟩ : ∃ r' e, r = r' ++ [e] := ⟨_, _, (List.dropLast_append_getLast hr).symm⟩
    rw [List.cons_append, List.cons_append, List.cons.injEq, ← List.append_assoc] at heq
    obtain ⟨hos, he⟩ := List.append_inj' heq.2 rfl
    refine ⟨l', r', t, ?_, ?_, ?_⟩
    · rw [heq.1]
    · rw [he]
    · rw [hos]
      exact hsize

lemma Framed.splice (h : Framed (l ++ mid ++ r)) (hl : l ≠ []) (hr : r ≠ [])
    (hmid : ∀ b ∈ mid', 16 ≤ b.size) : Framed (l ++ mid' ++ r) := by
  obtain ⟨l', r', t, rfl, rfl, hsize⟩ := h.split hl hr
  refine ⟨l' ++ mid' ++ r', t, by simp, fun b hb => ?_⟩
  simp only [List.mem_append] at hb hsize
  rcases hb with (hb | hb) | hb
  · exact hsize b (Or.inl (Or.inl hb))
  · exact hmid b hb
  · exact hsize b (Or.inr hb)

/-- A block with neighbours on both sides is an ordinary one. -/
lemma Framed.ordinary (h : Framed (l ++ b :: r)) (hl : l ≠ []) (hr : r ≠ []) : 16 ≤ b.size := by
  rw [← List.singleton_append, ← List.append_assoc] at h
  obtain ⟨l', r', t, rfl, rfl, hsize⟩ := h.split hl hr
  exact hsize b (by simp)

lemma Framed.first (h : Framed (b :: r)) : b = Block.prologue ∧ r ≠ [] := by
  obtain ⟨os, t, heq, -⟩ := h
  obtain ⟨rfl, rfl⟩ := List.cons.inj heq
  exact ⟨rfl, by simp⟩

lemma Framed.last (h : Framed (l ++ [b])) (hl : l ≠ []) : ∃ t, b = Block.epilogue t := by
  have h' : Framed (l ++ [] ++ [b]) := by rwa [List.append_nil]
  obtain ⟨l', r', t, -, heq, -⟩ := h'.split hl (by simp)
  cases r' with
  | nil => exact ⟨t, (List.cons.inj heq).1⟩
  | cons c r' => simp at heq

lemma Framed.size_of_left (h : Framed (l ++ r)) (hr : r ≠ []) (hb : b ∈ l) : 8 ≤ b.size := by
  cases l with
  | nil => simp at hb
  | cons p l' =>
    obtain ⟨rfl, -⟩ := h.first
    have h' : Framed (Block.prologue :: l' ++ [] ++ r) := by rwa [List.append_nil]
    obtain ⟨l'', r', t, heq, -, hsize⟩ := h'.split (by simp) hr
    obtain rfl := (List.cons.inj heq).2
    rcases List.mem_cons.mp hb with rfl | hb
    · exact le_rfl
    · have := hsize b (by simp [hb])
      omega

lemma Framed.size_of_mem (h : Framed (l ++ b :: r)) : 8 ≤ b.size ∨ b.size = 0 := by
  cases r with
  | nil =>
    cases l with
    | nil => exact absurd rfl h.first.2
    | cons p l =>
      obtain ⟨t, rfl⟩ := h.last (by simp)
      exact Or.inr rfl
  | cons c r =>
    rw [List.append_cons] at h
    exact Or.inl (h.size_of_left (by simp) (by simp))

lemma Framed.size_of_right (h : Framed (l ++ r)) (hb : b ∈ r) : 8 ≤ b.size ∨ b.size = 0 := by
  obtain ⟨r₁, r₂, rfl⟩ := List.append_of_mem hb
  rw [← List.append_assoc] at h
  exact h.size_of_mem

/-- A free block has neighbours on both sides. -/
lemma Framed.ne_nil_of_free (h : Framed (l ++ b :: r)) (hb : b.alloc = false) :
    l ≠ [] ∧ r ≠ [] := by
  have hl : l ≠ [] := by
    rintro rfl
    obtain ⟨rfl, -⟩ := h.first
    simp at hb
  refine ⟨hl, ?_⟩
  rintro rfl
  obtain ⟨t, rfl⟩ := h.last hl
  simp at hb

/-- A block of size at least 16 has neighbours on both sides. -/
lemma Framed.ne_nil_of_size (h : Framed (l ++ b :: r)) (hb : 16 ≤ b.size) : l ≠ [] ∧ r ≠ [] := by
  have hl : l ≠ [] := by
    rintro rfl
    obtain ⟨rfl, -⟩ := h.first
    simp at hb
  refine ⟨hl, ?_⟩
  rintro rfl
  obtain ⟨t, rfl⟩ := h.last hl
  simp at hb

/-- Free blocks never end the list. -/
lemma Framed.ne_nil_of_run (h : Framed (l ++ mid ++ r)) (hl : l ≠ []) (hmr : mid ++ r ≠ [])
    (hmid : ∀ c ∈ mid, c.alloc = false) : r ≠ [] := by
  rintro rfl
  rw [List.append_nil] at h hmr
  have hlast := List.dropLast_append_getLast hmr
  rw [← hlast, ← List.append_assoc] at h
  obtain ⟨t, ht⟩ := h.last (by simp [hl])
  have hfree := hmid _ (List.getLast_mem hmr)
  rw [ht] at hfree
  cases hfree

/-- The tag of a block behind another one may change. -/
lemma Framed.retag (h : Framed (l ++ b :: r)) (hl : l ≠ []) (t : Bool) :
    Framed (l ++ b.withTag t :: r) := by
  cases r with
  | nil =>
    obtain ⟨os, t', heq, hsize⟩ := h
    rw [← List.cons_append] at heq
    obtain ⟨rfl, he⟩ := List.append_inj' heq rfl
    obtain rfl := (List.cons.inj he).1
    exact ⟨os, t, rfl, hsize⟩
  | cons c r =>
    have hb := h.ordinary hl (by simp)
    rw [← List.singleton_append, ← List.append_assoc] at h ⊢
    exact h.splice hl (by simp) (by simpa using hb)

end Framed

/-! ### Tiled heaps -/

/-- The memory of `h` shows the block list `bs` from the prologue to the break. -/
structure Tiled (h : Heap) (bs : List Block) : Prop where
  aligned : h.memStartBrk % 8 = 0
  maxAddr : h.memMaxAddr = h.memStartBrk + maxHeap
  listp : h.heapListp = h.memStartBrk + 8
  brk : h.memBrk = h.heapListp + extent Block.size bs
  room : h.memBrk ≤ h.memMaxAddr
  framed : Framed bs
  image : Image h.mem h.heapListp bs
  tags : bs.IsChain TagBehind

/-- `y` is the start of a block other than the epilogue. -/
def Start (a : ℕ) (bs : List Block) (y : ℕ) : Prop :=
  ∃ b, (y, b) ∈ placed Block.size a bs ∧ b.size ≠ 0

/-- A tiled heap whose roving pointer is the start of a block. -/
structure WellFormedAs (h : Heap) (bs : List Block) : Prop extends Tiled h bs where
  current : Start h.heapListp bs h.currentBlock

def WellFormed (h : Heap) : Prop := ∃ bs, WellFormedAs h bs

/-- The two heaps occupy the same bytes. -/
def SameArena (h h' : Heap) : Prop :=
  h'.memStartBrk = h.memStartBrk ∧ h'.memMaxAddr = h.memMaxAddr ∧ h'.heapListp = h.heapListp ∧
    h'.memBrk = h.memBrk

section Tiled

variable {h h' : Heap} {bs l mid mid' r : List Block} {b : Block} {x : ℕ} {m : Memory}

lemma Tiled.extent_lt (ht : Tiled h bs) : extent Block.size bs < 2 ^ 25 := by
  have h1 := ht.room
  have h2 := ht.brk
  have h3 := ht.listp
  have h4 := ht.maxAddr
  simp only [maxHeap] at h4
  omega

lemma extent_mod (bs : List Block) : extent Block.size bs % 8 = 0 := by
  induction bs with
  | nil => rfl
  | cons b bs ih =>
    have := b.size_mod
    rw [extent_cons]
    omega

lemma Tiled.start_mod (ht : Tiled h bs) (hx : (x, b) ∈ placed Block.size h.heapListp bs) :
    x % 8 = 0 := by
  obtain ⟨pre, post, -, rfl⟩ := mem_placed_iff.mp hx
  have := extent_mod pre
  have := ht.aligned
  have := ht.listp
  omega

lemma Tiled.blockAt (ht : Tiled h bs) (hx : (x, b) ∈ placed Block.size h.heapListp bs) :
    BlockAt h.mem x b := ht.image (x, b) hx

lemma Tiled.size_lt (ht : Tiled h bs) (hb : b ∈ bs) : b.size < 2 ^ 25 := by
  obtain ⟨pre, post, rfl⟩ := List.append_of_mem hb
  have := ht.extent_lt
  rw [extent_append, extent_cons] at this
  omega

lemma placed_at {a : ℕ} : (a + extent Block.size l, b) ∈ placed Block.size a (l ++ b :: r) :=
  mem_placed_iff.mpr ⟨l, r, rfl, rfl⟩

section Neighbours

variable {p n c : Block}

lemma placed_behind {a : ℕ} (hx : x = a + extent Block.size l + p.size) :
    (x, b) ∈ placed Block.size a (l ++ p :: b :: r) :=
  mem_placed_iff.mpr ⟨l ++ [p], r, by simp, by simp [hx, Nat.add_assoc]⟩

lemma Tiled.blockAt_behind (ht : Tiled h (l ++ p :: b :: r))
    (hx : x = h.heapListp + extent Block.size l + p.size) : BlockAt h.mem x b :=
  ht.blockAt (placed_behind hx)

lemma Tiled.blockAt_behind₂ (ht : Tiled h (l ++ p :: b :: n :: r))
    (hx : x = h.heapListp + extent Block.size l + p.size) : BlockAt h.mem (x + b.size) n := by
  have ht' : Tiled h ((l ++ [p]) ++ b :: n :: r) := by simpa using ht
  exact ht'.blockAt_behind (by simp [hx, Nat.add_assoc])

lemma Tiled.blockAt_behind₃ (ht : Tiled h (l ++ p :: b :: n :: c :: r))
    (hx : x = h.heapListp + extent Block.size l + p.size) :
    BlockAt h.mem (x + b.size + n.size) c := by
  have ht' : Tiled h ((l ++ [p]) ++ b :: n :: c :: r) := by simpa using ht
  exact ht'.blockAt_behind₂ (by simp [hx, Nat.add_assoc])

lemma Tiled.prevBlkp_eq (ht : Tiled h (l ++ p :: b :: r))
    (hx : x = h.heapListp + extent Block.size l + p.size) :
    prevBlkp h.mem x = h.heapListp + extent Block.size l := by
  have hfr : Framed ((l ++ [p]) ++ b :: r) := by simpa using ht.framed
  have hp := hfr.size_of_left (b := p) (by simp) (by simp)
  rw [hx]
  exact (ht.blockAt placed_at).prevBlkp (by omega)

end Neighbours

lemma Tiled.congr (ht : Tiled h bs) (ha : SameArena h h') (hm : h'.mem = h.mem) :
    Tiled h' bs := by
  obtain ⟨h1, h2, h3, h4⟩ := ha
  exact ⟨by rw [h1]; exact ht.aligned, by rw [h1, h2]; exact ht.maxAddr,
    by rw [h1, h3]; exact ht.listp, by rw [h3, h4]; exact ht.brk, by rw [h2, h4]; exact ht.room,
    ht.framed, by rw [h3, hm]; exact ht.image, ht.tags⟩

/-- Blocks in the middle of a list may be replaced in place. -/
lemma Image.splice {a : ℕ} (himg : Image m a (l ++ mid ++ r)) (ha : 4 ≤ a)
    (hl : ∀ b ∈ l, 8 ≤ b.size) (hr : ∀ b ∈ r, 8 ≤ b.size ∨ b.size = 0)
    {m' : Memory} (hext : extent Block.size mid' = extent Block.size mid)
    (hmid : Image m' (a + extent Block.size l) mid')
    (hag : AgreeOutside (a + extent Block.size l - 4)
      (a + extent Block.size l + extent Block.size mid - 4) m m') :
    Image m' a (l ++ mid' ++ r) := by
  obtain ⟨himg, hrImg⟩ := image_append.mp himg
  obtain ⟨hlImg, -⟩ := image_append.mp himg
  refine image_append.mpr ⟨image_append.mpr ⟨?_, hmid⟩, ?_⟩
  · exact hlImg.congr_below ha hl fun y hy => hag y (Or.inl hy)
  · rw [extent_append, ← Nat.add_assoc] at hrImg ⊢
    rw [hext]
    exact hrImg.congr_above (by omega) hr fun y hy => hag y (Or.inr hy)

/-- A tiled heap after some of its blocks were replaced in place. -/
lemma Tiled.splice (ht : Tiled h (l ++ mid ++ r)) (ha : SameArena h h') (hl : l ≠ [])
    (hr : r ≠ []) (hsize : ∀ b ∈ mid', 16 ≤ b.size)
    (hext : extent Block.size mid' = extent Block.size mid)
    (hmid : Image h'.mem (h.heapListp + extent Block.size l) mid')
    (hag : AgreeOutside (h.heapListp + extent Block.size l - 4)
      (h.heapListp + extent Block.size l + extent Block.size mid - 4) h.mem h'.mem)
    (htags : (l ++ mid' ++ r).IsChain TagBehind) : Tiled h' (l ++ mid' ++ r) := by
  obtain ⟨h1, h2, h3, h4⟩ := ha
  have hleft : ∀ b ∈ l, 8 ≤ b.size := fun b hb => by
    have hfr := ht.framed
    rw [List.append_assoc] at hfr
    exact hfr.size_of_left (by simp [hr]) hb
  refine ⟨by rw [h1]; exact ht.aligned, by rw [h1, h2]; exact ht.maxAddr,
    by rw [h1, h3]; exact ht.listp, ?_, by rw [h2, h4]; exact ht.room,
    ht.framed.splice hl hr hsize, ?_, htags⟩
  · rw [h3, h4, ht.brk]
    simp only [extent_append, hext]
  · rw [h3]
    exact ht.image.splice (by have := ht.listp; omega) hleft
      (fun b hb => ht.framed.size_of_right hb) hext hmid hag

/-- A word store over the header of the first block of `r` that changes its tag. -/
lemma Tiled.retag {t : Bool} (ht : Tiled h (l ++ b :: r)) (hl : l ≠ [])
    (hm : m = storeWord h.mem (h.heapListp + extent Block.size l - 4) (b.withTag t).header)
    (htags : (l ++ b.withTag t :: r).IsChain TagBehind) :
    Tiled { h with mem := m } (l ++ b.withTag t :: r) := by
  have hlistp := ht.listp
  have hlast := ht.framed
  have hlt := ht.size_lt (b := b) (by simp)
  refine ⟨ht.aligned, ht.maxAddr, ht.listp, ?_, ht.room, ht.framed.retag hl t, ?_, htags⟩
  · rw [show ({ h with mem := m } : Heap).memBrk = h.memBrk from rfl, ht.brk]
    simp only [extent_append, extent_cons, Block.withTag_size]
  · obtain ⟨hlImg, hrImg⟩ := image_append.mp ht.image
    obtain ⟨hbAt, hrImg⟩ := image_cons.mp hrImg
    subst hm
    refine image_append.mpr ⟨?_, image_cons.mpr ⟨⟨?_, fun hne => ?_⟩, ?_⟩⟩
    · exact hlImg.congr_below (by omega)
        (fun c hc => hlast.size_of_left (by simp) hc)
        fun y hy => storeWord_apply_of_disjoint (Or.inl hy)
    · exact loadWord_storeWord (Block.header_lt (by rw [Block.withTag_size]; omega))
    · have hsize := hlast.size_of_mem
      have hftr := hbAt.2 hne
      simp only [Block.withTag_size, Block.withTag_alloc] at hne ⊢
      rw [getSize, getAlloc, loadWord_storeWord_of_disjoint (by omega)]
      exact hftr
    · cases r with
      | nil => exact Image.nil _ _
      | cons n r =>
        have hb := hlast.ordinary hl (by simp)
        rw [List.append_cons] at hlast
        exact hrImg.congr_above (by omega) (fun c hc => hlast.size_of_right hc)
          fun y hy => storeWord_apply_of_disjoint (by omega)

end Tiled

/-! ### Starts and payloads -/

/-- An allocated ordinary block of `k` bytes starts at `y`. -/
def Occupied (a : ℕ) (bs : List Block) (y k : ℕ) : Prop :=
  ∃ b, (y, b) ∈ placed Block.size a bs ∧ b.alloc = true ∧ 16 ≤ b.size ∧ b.size = k

/-- From `m, bs` to `m', bs'` the allocated blocks outside `S` stay, with their payloads. -/
structure PayloadFrame (S : Set ℕ) (a : ℕ) (m : Memory) (bs : List Block) (m' : Memory)
    (bs' : List Block) : Prop where
  occupied : ∀ y k, y ∉ S → (Occupied a bs' y k ↔ Occupied a bs y k)
  payload : ∀ y k, y ∉ S → Occupied a bs y k → ∀ x, y ≤ x → x + 8 < y + k → m' x = m x

section Payload

variable {S T : Set ℕ} {a x y k : ℕ} {m m' m'' : Memory} {bs bs' bs'' l mid mid' r : List Block}
  {b c d : Block}

lemma PayloadFrame.refl (S : Set ℕ) (a : ℕ) (m : Memory) (bs : List Block) :
    PayloadFrame S a m bs m bs :=
  ⟨fun _ _ _ => Iff.rfl, fun _ _ _ _ _ _ _ => rfl⟩

lemma PayloadFrame.mono (h : PayloadFrame S a m bs m' bs') (hST : S ⊆ T) :
    PayloadFrame T a m bs m' bs' :=
  ⟨fun y k hy => h.occupied y k fun hS => hy (hST hS),
    fun y k hy => h.payload y k fun hS => hy (hST hS)⟩

lemma PayloadFrame.trans (h : PayloadFrame S a m bs m' bs') (h' : PayloadFrame S a m' bs' m'' bs'') :
    PayloadFrame S a m bs m'' bs'' := by
  refine ⟨fun y k hy => (h'.occupied y k hy).trans (h.occupied y k hy), fun y k hy hocc x h1 h2 => ?_⟩
  exact (h'.payload y k hy ((h.occupied y k hy).mpr hocc) x h1 h2).trans
    (h.payload y k hy hocc x h1 h2)

/-- Replacing blocks in place changes no payload of the blocks around them. -/
lemma PayloadFrame.splice (ha : 4 ≤ a) (hext : extent Block.size mid' = extent Block.size mid)
    (hag : AgreeOutside (a + extent Block.size l - 4)
      (a + extent Block.size l + extent Block.size mid) m m')
    (hmid : ∀ y c, (y, c) ∈ placed Block.size (a + extent Block.size l) mid →
      c.alloc = true → y ∈ S)
    (hmid' : ∀ y c, (y, c) ∈ placed Block.size (a + extent Block.size l) mid' →
      c.alloc = true → y ∈ S) :
    PayloadFrame S a m (l ++ mid ++ r) m' (l ++ mid' ++ r) := by
  constructor
  · intro y k hy
    unfold Occupied
    constructor
    · rintro ⟨c, hc, halloc, hsize⟩
      rw [mem_placed_splice hext] at hc
      refine ⟨c, (mem_placed_splice rfl).mpr ?_, halloc, hsize⟩
      rcases hc with hc | hc | hc
      · exact Or.inl hc
      · exact absurd (hmid' y c hc halloc) hy
      · exact Or.inr (Or.inr hc)
    · rintro ⟨c, hc, halloc, hsize⟩
      rw [mem_placed_splice rfl] at hc
      refine ⟨c, (mem_placed_splice hext).mpr ?_, halloc, hsize⟩
      rcases hc with hc | hc | hc
      · exact Or.inl hc
      · exact absurd (hmid y c hc halloc) hy
      · exact Or.inr (Or.inr hc)
  · rintro y k hy ⟨c, hc, halloc, hsize, rfl⟩ x h1 h2
    rw [mem_placed_splice rfl] at hc
    rcases hc with hc | hc | hc
    · have := add_le_of_mem_placed hc
      exact hag x (by omega)
    · exact absurd (hmid y c hc halloc) hy
    · have := le_of_mem_placed hc
      exact hag x (by omega)

/-- Replacing a tail without allocated blocks changes no payload in front of it. -/
lemma PayloadFrame.tail {r r' : List Block} (hag : ∀ x, x < a + extent Block.size l - 4 → m' x = m x)
    (hr : ∀ c ∈ r, c.alloc = true → c.size < 16) (hr' : ∀ c ∈ r', c.alloc = true → c.size < 16) :
    PayloadFrame S a m (l ++ r) m' (l ++ r') := by
  have hocc : ∀ {r : List Block}, (∀ c ∈ r, c.alloc = true → c.size < 16) → ∀ {y k},
      (Occupied a (l ++ r) y k ↔ Occupied a l y k) := by
    intro r hr y k
    unfold Occupied
    simp only [placed_append, List.mem_append]
    constructor
    · rintro ⟨c, hc | hc, halloc, hsize⟩
      · exact ⟨c, hc, halloc, hsize⟩
      · have := hr c (mem_of_mem_placed hc) halloc
        omega
    · rintro ⟨c, hc, hrest⟩
      exact ⟨c, Or.inl hc, hrest⟩
  refine ⟨fun y k _ => (hocc hr').trans (hocc hr).symm, fun y k _ h x h1 h2 => ?_⟩
  obtain ⟨c, hc, -, -, rfl⟩ := (hocc hr).mp h
  have := add_le_of_mem_placed hc
  exact hag x (by omega)

lemma mem_placed_mid : (y, c) ∈ placed Block.size a (l ++ b :: r) ↔
    (y, c) ∈ placed Block.size a l ∨ (y = a + extent Block.size l ∧ c = b) ∨
      (y, c) ∈ placed Block.size (a + extent Block.size l + b.size) r := by
  simp only [placed_append, placed_cons, List.mem_append, List.mem_cons, Prod.mk.injEq]

lemma occupied_retag (t : Bool) :
    Occupied a (l ++ b.withTag t :: r) y k ↔ Occupied a (l ++ b :: r) y k := by
  unfold Occupied
  simp only [mem_placed_mid]
  constructor
  · rintro ⟨c, hc | ⟨rfl, rfl⟩ | hc, hrest⟩
    · exact ⟨c, Or.inl hc, hrest⟩
    · exact ⟨b, Or.inr (Or.inl ⟨rfl, rfl⟩), hrest⟩
    · exact ⟨c, Or.inr (Or.inr hc), hrest⟩
  · rintro ⟨c, hc | ⟨rfl, rfl⟩ | hc, hrest⟩
    · exact ⟨c, Or.inl hc, hrest⟩
    · exact ⟨_, Or.inr (Or.inl ⟨rfl, rfl⟩), hrest⟩
    · exact ⟨c, Or.inr (Or.inr hc), hrest⟩

lemma start_congr (h : bs'.map Block.size = bs.map Block.size) : Start a bs' y ↔ Start a bs y := by
  have hsizes : ∀ bs, Start a bs y ↔ ∃ k, (y, k) ∈ placed id a (bs.map Block.size) ∧ k ≠ 0 := by
    intro bs
    unfold Start
    simp only [placed_map_len, List.mem_map, Prod.mk.injEq]
    constructor
    · rintro ⟨b, hb, hne⟩
      exact ⟨b.size, ⟨(y, b), hb, rfl, rfl⟩, hne⟩
    · rintro ⟨k, ⟨⟨z, b⟩, hb, rfl, rfl⟩, hne⟩
      exact ⟨b, hb, hne⟩
  rw [hsizes, hsizes, h]

/-- Changing a tag touches no payload. -/
lemma PayloadFrame.retag {v : ℕ} (ha : 4 ≤ a) (t : Bool) :
    PayloadFrame S a m (l ++ b :: r) (storeWord m (a + extent Block.size l - 4) v)
      (l ++ b.withTag t :: r) := by
  refine ⟨fun y k _ => occupied_retag t, ?_⟩
  rintro y k - ⟨c, hc, -, hsize, rfl⟩ x h1 h2
  refine storeWord_apply_of_disjoint ?_
  rcases mem_placed_mid.mp hc with hc | ⟨rfl, rfl⟩ | hc
  · have := add_le_of_mem_placed hc
    omega
  · omega
  · have := le_of_mem_placed hc
    omega

/-- Allocated blocks do not overlap. -/
theorem Occupied.disjoint {y' k' : ℕ} (h : Occupied a bs y k) (h' : Occupied a bs y' k')
    (hne : y ≠ y') : y + k ≤ y' ∨ y' + k' ≤ y := by
  obtain ⟨b, hb, -, -, rfl⟩ := h
  obtain ⟨c, hc, -, -, rfl⟩ := h'
  rcases Nat.lt_or_gt_of_ne hne with hlt | hlt
  · exact Or.inl (placed_disjoint hb hc hlt)
  · exact Or.inr (placed_disjoint hc hb hlt)

/-- An allocated block lies between the prologue and the break. -/
theorem Tiled.occupied_bounds {h : Heap} (ht : Tiled h bs) (hy : Occupied h.heapListp bs y k) :
    y % 8 = 0 ∧ h.heapListp + 8 ≤ y ∧ y + k ≤ h.memBrk ∧ 16 ≤ k := by
  obtain ⟨b, hb, -, hsize, rfl⟩ := hy
  refine ⟨ht.start_mod hb, ?_, ht.brk ▸ add_le_of_mem_placed hb, hsize⟩
  obtain ⟨pre, post, rfl, rfl⟩ := mem_placed_iff.mp hb
  cases pre with
  | nil =>
    obtain ⟨rfl, -⟩ := ht.framed.first
    simp at hsize
  | cons p pre =>
    obtain ⟨rfl, -⟩ := ht.framed.first
    simp only [extent_cons, Block.prologue_size]
    omega

/-- Headers and footers lie outside of the payloads. -/
lemma Occupied.not_payload {x w : ℕ} (h : Framed bs) (hc : (x, c) ∈ placed Block.size a bs)
    (hy : Occupied a bs y k)
    (hw : x - 4 ≤ w ∧ w < x ∨ c.size ≠ 0 ∧ x + c.size - 8 ≤ w ∧ w < x + c.size - 4) (ha : 4 ≤ a) :
    ¬(y ≤ w ∧ w + 8 < y + k) := by
  obtain ⟨b, hb, -, hsize, rfl⟩ := hy
  have hlo := le_of_mem_placed hc
  have hlo' := le_of_mem_placed hb
  have hc8 : 8 ≤ c.size ∨ c.size = 0 := h.size_of_right (l := []) (mem_of_mem_placed hc)
  rintro ⟨h1, h2⟩
  rcases Nat.lt_trichotomy x y with hlt | rfl | hgt
  · have := placed_disjoint hc hb hlt
    omega
  · by_cases hne : c.size = 0
    · omega
    · obtain rfl := placed_inj hb hc (by omega) (by omega)
      omega
  · have := placed_disjoint hb hc hgt
    omega

/-- A heap stays well formed whatever is written into the payloads of its allocated blocks. -/
theorem WellFormedAs.congr_payloads {h : Heap} (hw : WellFormedAs h bs)
    (hag : ∀ w, (∀ y k, Occupied h.heapListp bs y k → ¬(y ≤ w ∧ w + 8 < y + k)) →
      m w = h.mem w) : WellFormedAs { h with mem := m } bs := by
  have hlistp := hw.listp
  refine ⟨⟨hw.aligned, hw.maxAddr, hw.listp, hw.brk, hw.room, hw.framed, ?_, hw.tags⟩, hw.current⟩
  rintro ⟨z, c⟩ (hc : (z, c) ∈ placed Block.size h.heapListp bs)
  have hzlo := le_of_mem_placed hc
  have hc8 : 8 ≤ c.size ∨ c.size = 0 :=
    hw.framed.size_of_right (l := []) (mem_of_mem_placed hc)
  apply (hw.image (z, c) hc).congr_words
  · intro w h1 h2
    simp only at h1 h2
    exact hag w fun y k hy => hy.not_payload hw.framed hc (by omega) (by omega)
  · intro hne w h1 h2
    simp only at hne h1 h2
    exact hag w fun y k hy => hy.not_payload hw.framed hc (by omega) (by omega)

/-- Bytes written into the payload of an allocated block leave all blocks in place. -/
theorem WellFormedAs.writePayload {h : Heap} (hw : WellFormedAs h bs)
    (hy : Occupied h.heapListp bs y k) (hag : AgreeOutside y (y + k - 8) h.mem m) :
    WellFormedAs { h with mem := m } bs ∧ PayloadFrame {y} h.heapListp h.mem bs m bs := by
  refine ⟨hw.congr_payloads fun w hout => ?_, fun _ _ _ => Iff.rfl, ?_⟩
  · have := hout y k hy
    exact hag w (by omega)
  · intro z j hz hocc x h1 h2
    apply hag
    rcases Occupied.disjoint hocc hy hz with hd | hd <;> omega

end Payload

end SystemsLabs.Malloc
