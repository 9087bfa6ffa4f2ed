import SystemsLabs.Malloc.Coalesce
import SystemsLabs.Malloc.WellFormed

/-!
# Freeing

Joining a free block with its neighbours turns consecutive free blocks into one. `mm_free`
clears the tag behind the block, marks the block free and joins it. The heap stays well
formed, and no other allocated block is touched.
-/

namespace SystemsLabs.Malloc
open Library

/-! ### Joined block lists -/

/-- Consecutive free blocks of the first list are the block from `s` to `e` of the second. -/
inductive Joined (a : ℕ) : List Block → List Block → ℕ → ℕ → Prop
  | intro (l mid r : List Block) (d : Block) (hl : l ≠ []) (hr : r ≠ [])
      (hmid : ∀ c ∈ mid, c.alloc = false) (hd : d.alloc = false) (hsize : 16 ≤ d.size)
      (hext : d.size = extent Block.size mid) :
      Joined a (l ++ mid ++ r) (l ++ d :: r) (a + extent Block.size l)
        (a + extent Block.size l + d.size)

lemma joined_join {a : ℕ} {p b n : Block} {pre post : List Block}
    (h : Framed (pre ++ p :: b :: n :: post)) (hb : b.alloc = false) :
    Joined a (pre ++ p :: b :: n :: post) (pre ++ joinPrev p (joinNext b (n :: post)))
      (joinStart (a + extent Block.size pre) p) (joinEnd (a + extent Block.size pre) p b n) := by
  have hb16 : 16 ≤ b.size := by
    rw [List.append_cons] at h
    exact h.ordinary (by simp) (by simp)
  have hn : n.alloc = false → post ≠ [] := fun hn => by
    rw [List.append_cons, List.append_cons] at h
    exact (h.ne_nil_of_free hn).2
  have hp : p.alloc = false → pre ≠ [] := fun hp => (h.ne_nil_of_free hp).1
  unfold joinPrev joinNext joinStart joinEnd Block.closed
  rcases hpc : p.alloc || p.tag with _ | _ <;> rcases hna : n.alloc with _ | _
  · have hpa : p.alloc = false := by simp_all
    have hj := Joined.intro (a := a) pre [p, b, n] post (p.merge (b.merge n)) (hp hpa) (hn hna)
      (by simp [hpa, hb, hna]) rfl (by simp only [Block.merge_size]; omega) (by simp)
    simpa [Nat.add_assoc, hpc, hna] using hj
  · have hpa : p.alloc = false := by simp_all
    have hj := Joined.intro (a := a) pre [p, b] (n :: post) (p.merge b) (hp hpa) (by simp)
      (by simp [hpa, hb]) rfl (by simp only [Block.merge_size]; omega) (by simp)
    simpa [Nat.add_assoc, hpc, hna] using hj
  · have hj := Joined.intro (a := a) (pre ++ [p]) [b, n] post (b.merge n) (by simp) (hn hna)
      (by simp [hb, hna]) rfl (by simp only [Block.merge_size]; omega) (by simp)
    simpa [Nat.add_assoc, hpc, hna] using hj
  · have hj := Joined.intro (a := a) (pre ++ [p]) [b] (n :: post) b (by simp) (by simp)
      (by simp [hb]) hb hb16 (by simp)
    simpa [Nat.add_assoc, hpc, hna] using hj

lemma join_tags {p b n : Block} {pre post : List Block}
    (h : (pre ++ p :: b :: n :: post).IsChain TagBehind) (hb : b.alloc = false) :
    (pre ++ joinPrev p (joinNext b (n :: post))).IsChain TagBehind := by
  simp only [List.isChain_append, List.isChain_cons, List.head?_cons, Option.mem_def,
    Option.some.injEq, forall_eq', TagBehind] at h ⊢
  unfold joinNext joinPrev Block.closed
  cases hpa : p.alloc <;> cases hpt : p.tag <;> cases hna : n.alloc <;>
    simp_all [List.isChain_cons, TagBehind]

/-- A join leaves an untagged block in front of a free one only where the block behind its
right neighbour was free already. -/
lemma join_keptApart {p b n : Block} {pre post : List Block}
    (hpre : (pre ++ [p]).IsChain KeptApart) (hpost : post.IsChain KeptApart)
    (hb : b.alloc = false)
    (hn : n.alloc = false → ∀ c ∈ post.head?, c.alloc = false → p.closed = true ∧ b.tag = true) :
    (pre ++ joinPrev p (joinNext b (n :: post))).IsChain KeptApart := by
  simp only [List.isChain_append, List.head?_cons, Option.mem_def,
    Option.some.injEq, forall_eq', KeptApart, Block.closed] at hpre hn ⊢
  unfold joinNext joinPrev Block.closed
  cases hpa : p.alloc <;> cases hpt : p.tag <;> cases hna : n.alloc <;>
    simp_all [List.isChain_cons, KeptApart]

section Joined

variable {a s e x y : ℕ} {bs bs' : List Block} {m m' : Memory}

lemma Joined.framed (hj : Joined a bs bs' s e) (h : Framed bs) : Framed bs' := by
  obtain ⟨l, mid, r, d, hl, hr, -, -, hsize, -⟩ := hj
  have hd : Framed (l ++ [d] ++ r) := h.splice hl hr (by simpa using hsize)
  simpa using hd

lemma Joined.extent (hj : Joined a bs bs' s e) : extent Block.size bs' = extent Block.size bs := by
  obtain ⟨l, mid, r, d, -, -, -, -, -, hext⟩ := hj
  simp only [extent_append, extent_cons, hext]
  omega

lemma Joined.frame (hj : Joined a bs bs' s e) (ha : 4 ≤ a) (hag : AgreeOutside (s - 4) e m m') :
    PayloadFrame ∅ a m bs m' bs' := by
  obtain ⟨l, mid, r, d, -, -, hmid, hd, -, hext⟩ := hj
  have hframe : PayloadFrame ∅ a m (l ++ mid ++ r) m' (l ++ [d] ++ r) :=
    PayloadFrame.splice ha (by simpa using hext) (by rwa [← hext])
    (fun y c hc halloc => by rw [hmid c (mem_of_mem_placed hc)] at halloc; cases halloc)
    (fun y c hc halloc => by
      obtain rfl := List.mem_singleton.mp (mem_of_mem_placed hc)
      rw [hd] at halloc
      cases halloc)
  simpa using hframe

/-- A start inside the joined block moves to its start, and every other start stays one. -/
lemma Joined.start (hj : Joined a bs bs' s e) (hy : Start a bs y) :
    Start a bs' (if s < y ∧ y < e then s else y) := by
  obtain ⟨l, mid, r, d, -, -, -, -, hsize, hext⟩ := hj
  obtain ⟨c, hc, hne⟩ := hy
  unfold Start
  simp only [mem_placed_mid]
  rw [mem_placed_splice rfl] at hc
  rcases hc with hc | hc | hc
  · have := add_le_of_mem_placed hc
    rw [if_neg (by omega)]
    exact ⟨c, Or.inl hc, hne⟩
  · have hlo := le_of_mem_placed hc
    have hhi := add_le_of_mem_placed hc
    refine ⟨d, Or.inr (Or.inl ⟨?_, rfl⟩), by omega⟩
    split <;> omega
  · have := le_of_mem_placed hc
    rw [if_neg (by omega)]
    exact ⟨c, Or.inr (Or.inr (by rwa [hext])), hne⟩

/-- The start that a start moves to is the one of the block around it. -/
lemma Joined.cover (hj : Joined a bs bs' s e) (hy : Start a bs y) :
    (if s < y ∧ y < e then s else y) = Library.cover Block.size a bs' y := by
  have hstart := hj.start hy
  obtain ⟨c, hc, hne⟩ := hstart
  by_cases hin : s < y ∧ y < e
  · obtain ⟨l, mid, r, d, -, -, -, -, -, -⟩ := hj
    rw [if_pos hin]
    exact (cover_eq (mem_placed_iff.mpr ⟨l, r, rfl, rfl⟩) hin.1.le hin.2).symm
  · rw [if_neg hin] at hc ⊢
    exact (cover_of_mem hc (by omega)).symm

end Joined

/-- What `coalesce` does to a tiled heap. -/
theorem Tiled.coalesce {h : Heap} {p b n : Block} {pre post : List Block}
    (ht : Tiled h (pre ++ p :: b :: n :: post)) (hb : b.alloc = false)
    (hcur : Start h.heapListp (pre ++ p :: b :: n :: post) h.currentBlock) :
    let x := h.heapListp + extent Block.size pre
    ∃ m, Malloc.coalesce h (x + p.size) =
        (joinedHeap h m (joinStart x p) (joinEnd x p b n) (joinCount p n), joinStart x p) ∧
      WellFormedAs (joinedHeap h m (joinStart x p) (joinEnd x p b n) (joinCount p n))
        (pre ++ joinPrev p (joinNext b (n :: post))) ∧
      PayloadFrame ∅ h.heapListp h.mem (pre ++ p :: b :: n :: post) m
        (pre ++ joinPrev p (joinNext b (n :: post))) ∧
      (joinedHeap h m (joinStart x p) (joinEnd x p b n) (joinCount p n)).currentBlock =
        cover Block.size h.heapListp (pre ++ joinPrev p (joinNext b (n :: post)))
          h.currentBlock := by
  intro x
  have hj := joined_join (a := h.heapListp) ht.framed hb
  have hlistp := ht.listp
  have hlt := ht.extent_lt
  simp only [extent_append, extent_cons] at hlt
  have hfr := ht.framed
  have hpre : ∀ c ∈ pre, 8 ≤ c.size := fun c hc => hfr.size_of_left (by simp) hc
  have hp : 8 ≤ p.size := by
    rw [List.append_cons] at hfr
    exact hfr.size_of_left (by simp) (by simp)
  have hb16 : 16 ≤ b.size := by
    rw [List.append_cons] at hfr
    exact hfr.ordinary (by simp) (by simp)
  have hpost : ∀ c ∈ n :: post, 8 ≤ c.size ∨ c.size = 0 := fun c hc => by
    rw [List.append_cons, List.append_cons] at hfr
    exact hfr.size_of_right hc
  have hn : n.alloc = true ∨ 8 ≤ n.size := by
    rw [List.append_cons, List.append_cons] at hfr
    cases hna : n.alloc
    · have := hfr.ne_nil_of_free hna
      have := hfr.ordinary this.1 this.2
      omega
    · exact Or.inl rfl
  have hxb : (x + p.size, b) ∈ placed Block.size h.heapListp (pre ++ p :: b :: n :: post) :=
    placed_behind rfl
  have hcur' : ¬(x + p.size < h.currentBlock ∧ h.currentBlock < x + p.size + b.size) := by
    rintro ⟨h1, h2⟩
    obtain ⟨c, hc, -⟩ := hcur
    have := placed_disjoint hxb hc h1
    omega
  obtain ⟨m, heq, himg, hag⟩ := coalesce_spec ht.image (by omega) hpre hp (by omega) hn hpost
    (by omega) hcur'
  refine ⟨m, heq, ⟨⟨ht.aligned, ht.maxAddr, ht.listp, ?_, ht.room, hj.framed hfr, himg,
    join_tags ht.tags hb⟩, hj.start hcur⟩, hj.frame (by omega) (hag.mono le_rfl (by omega)),
    hj.cover hcur⟩
  rw [hj.extent]
  exact ht.brk

/-! ### Single block updates -/

section Update

variable {h : Heap} {l r : List Block} {b c : Block} {a x y : ℕ}

lemma chain_untag (h : (l ++ b :: r).IsChain TagBehind) :
    (l ++ b.withTag false :: r).IsChain TagBehind := by
  simp_all [List.isChain_append, List.isChain_cons, TagBehind]

lemma chain_tag (h : (l ++ b :: r).IsChain TagBehind) (hl : ∀ c ∈ l.getLast?, c.alloc = true) :
    (l ++ b.withTag true :: r).IsChain TagBehind := by
  simp_all [List.isChain_append, List.isChain_cons, TagBehind]

/-- `DELETE_TAG` on a block header. -/
lemma Tiled.deleteTag (ht : Tiled h (l ++ b :: r)) (hl : l ≠ [])
    (hx : x = h.heapListp + extent Block.size l) :
    let m := Malloc.deleteTag h.mem (hdrp x)
    Tiled { h with mem := m } (l ++ b.withTag false :: r) ∧
      PayloadFrame ∅ h.heapListp h.mem (l ++ b :: r) m (l ++ b.withTag false :: r) := by
  intro m
  subst hx
  have hlt := ht.size_lt (b := b) (by simp)
  have hm : m = storeWord h.mem (h.heapListp + extent Block.size l - 4) (b.withTag false).header := by
    simp only [m, Malloc.deleteTag, hdrp, wsize, (ht.blockAt placed_at).1]
    rw [header_land_untag b (Block.header_lt (by omega))]
  refine ⟨ht.retag hl hm (chain_untag ht.tags), ?_⟩
  rw [hm]
  exact PayloadFrame.retag (by have := ht.listp; omega) false

/-- `PUT_TAG` on a block header. -/
lemma Tiled.putTag (ht : Tiled h (l ++ b :: r)) (hl : l ≠ [])
    (hlast : ∀ c ∈ l.getLast?, c.alloc = true) (hx : x = h.heapListp + extent Block.size l) :
    let m := Malloc.putTag h.mem (hdrp x)
    Tiled { h with mem := m } (l ++ b.withTag true :: r) ∧
      PayloadFrame ∅ h.heapListp h.mem (l ++ b :: r) m (l ++ b.withTag true :: r) := by
  intro m
  subst hx
  have hm : m = storeWord h.mem (h.heapListp + extent Block.size l - 4) (b.withTag true).header := by
    simp only [m, Malloc.putTag, hdrp, wsize, (ht.blockAt placed_at).1]
    rw [header_lor_tag]
  refine ⟨ht.retag hl hm (chain_tag ht.tags hlast), ?_⟩
  rw [hm]
  exact PayloadFrame.retag (by have := ht.listp; omega) true

/-- `PUT_WITH_TAG` on a header and its footer changes the allocation bit of a block. -/
lemma Tiled.putWithTag (ht : Tiled h (l ++ b :: r)) (hl : l ≠ []) (hr : r ≠ [])
    (hsize : c.size = b.size) (htag : c.tag = b.tag) (hc : (l ++ c :: r).IsChain TagBehind)
    (hx : x = h.heapListp + extent Block.size l) :
    let m₁ := Malloc.putWithTag h.mem (hdrp x) (pack c.size c.alloc.toNat)
    let m₂ := Malloc.putWithTag m₁ (Malloc.ftrp m₁ x) (pack c.size c.alloc.toNat)
    Tiled { h with mem := m₂ } (l ++ c :: r) ∧
      PayloadFrame {x} h.heapListp h.mem (l ++ b :: r) m₂ (l ++ c :: r) := by
  intro m₁ m₂
  subst hx
  have hlistp := ht.listp
  have hlt := ht.size_lt (b := b) (by simp)
  have hb := ht.framed.ordinary hl hr
  obtain ⟨hblock, hag⟩ := putWithTag_block (m := h.mem) (x := h.heapListp + extent Block.size l)
    (b := c) (by omega) (by omega) (by omega)
    ((ht.blockAt placed_at).getTag_hdrp.trans (by rw [htag]))
  have ht' : Tiled h (l ++ [b] ++ r) := by simpa using ht
  have hext : extent Block.size [c] = extent Block.size [b] := by simp [hsize]
  have hag' : AgreeOutside (h.heapListp + extent Block.size l - 4)
      (h.heapListp + extent Block.size l + extent Block.size [b] - 4) h.mem m₂ := by
    rw [extent_cons, extent_nil, Nat.add_zero, ← hsize]
    exact hag
  refine ⟨?_, ?_⟩
  · have hs : Tiled { h with mem := m₂ } (l ++ [c] ++ r) :=
      ht'.splice ⟨rfl, rfl, rfl, rfl⟩ hl hr (by simp [hsize, hb]) hext
        (image_cons.mpr ⟨hblock, Image.nil _ _⟩) hag' (by simpa using hc)
    simpa using hs
  · have := PayloadFrame.splice (S := {h.heapListp + extent Block.size l}) (r := r) (by omega) hext
      (hag'.mono le_rfl (by omega)) (by simp) (by simp)
    simpa using this

lemma Tiled.split_occupied {bs : List Block} {k : ℕ} (ht : Tiled h bs)
    (hx : Occupied h.heapListp bs x k) :
    ∃ pre p b n post, bs = pre ++ p :: b :: n :: post ∧
      x = h.heapListp + extent Block.size pre + p.size ∧ b.alloc = true ∧ b.size = k := by
  obtain ⟨b, hb, halloc, hsize, rfl⟩ := hx
  obtain ⟨l, r, rfl, rfl⟩ := mem_placed_iff.mp hb
  obtain ⟨hl, hr⟩ := ht.framed.ne_nil_of_size hsize
  obtain ⟨pre, p, rfl⟩ : ∃ pre p, l = pre ++ [p] := ⟨_, _, (List.dropLast_append_getLast hl).symm⟩
  cases r with
  | nil => exact absurd rfl hr
  | cons n post => exact ⟨pre, p, b, n, post, by simp, by simp [Nat.add_assoc], halloc, rfl⟩

end Update

/-! ### `mm_free` -/

def freedList (pre : List Block) (p b n : Block) (post : List Block) : List Block :=
  pre ++ joinPrev p (joinNext b.freed (n.withTag false :: post))

/-- `mm_free` of the block `b` between `p` and `n`. -/
theorem mmFree_spec {h : Heap} {pre post : List Block} {p b n : Block} {x : ℕ}
    (hw : WellFormedAs h (pre ++ p :: b :: n :: post)) (hb : b.alloc = true)
    (hx : x = h.heapListp + extent Block.size pre + p.size) :
    let s := joinStart (h.heapListp + extent Block.size pre) p
    let e := joinEnd (h.heapListp + extent Block.size pre) p b n
    ∃ m, mmFree h x = joinedHeap (countBlocks h 0 1) m s e (joinCount p n) ∧
      WellFormedAs (mmFree h x) (freedList pre p b n post) ∧
      (mmFree h x).currentBlock =
        cover Block.size h.heapListp (freedList pre p b n post) h.currentBlock ∧
      PayloadFrame {x} h.heapListp h.mem (pre ++ p :: b :: n :: post) m
        (freedList pre p b n post) ∧
      ∀ k, ¬Occupied h.heapListp (freedList pre p b n post) x k := by
  intro s e
  have ht := hw.toTiled
  have hlistp := ht.listp
  have hxb : BlockAt h.mem x b := ht.blockAt_behind hx
  have hb16 : 16 ≤ b.size := by
    have hfr := ht.framed
    rw [List.append_cons] at hfr
    exact hfr.ordinary (by simp) (by simp)
  -- clear the tag behind the block
  have ht₀ : Tiled h ((pre ++ [p, b]) ++ n :: post) := by simpa using ht
  obtain ⟨ht₁, hf₁⟩ := ht₀.deleteTag (x := x + b.size) (by simp) (by
    simp only [hx, extent_append, extent_cons, extent_nil]
    omega)
  -- mark it free
  have ht₁' : Tiled { h with mem := deleteTag h.mem (hdrp (x + b.size)) }
      ((pre ++ [p]) ++ b :: n.withTag false :: post) := by simpa using ht₁
  obtain ⟨ht₂, hf₂⟩ := ht₁'.putWithTag (x := x) (c := b.freed) (by simp) (by simp) rfl rfl
    (by have := ht₁'.tags; simp_all [List.isChain_append, List.isChain_cons, TagBehind])
    (by simp only [hx, extent_append, extent_cons, extent_nil]; omega)
  -- join it with its neighbours
  set m₂ := Malloc.putWithTag _ _ _ with hm₂
  have ht₃ : Tiled { countBlocks h 0 1 with mem := m₂ }
      (pre ++ p :: b.freed :: n.withTag false :: post) := by
    have hc : Tiled { countBlocks h 0 1 with mem := m₂ }
        ((pre ++ [p]) ++ b.freed :: n.withTag false :: post) :=
      ht₂.congr ⟨rfl, rfl, rfl, rfl⟩ rfl
    simpa using hc
  have hstart : Start h.heapListp (pre ++ p :: b.freed :: n.withTag false :: post)
      h.currentBlock := (start_congr (by simp)).mpr hw.current
  obtain ⟨m₃, heq, hw₃, hf₃, hcover⟩ := ht₃.coalesce rfl hstart
  have hfree : mmFree h x = joinedHeap (countBlocks h 0 1) m₃ s e (joinCount p n) := by
    have hb0 : b.size ≠ 0 := by omega
    have hnull : x ≠ 0 := by omega
    have hlistp0 : h.heapListp ≠ 0 := by omega
    have halloc : isBlockAllocated h.mem x = true := by
      simp [hxb.isBlockAllocated, hb, hb0]
    have hcount : (countBlocks h 0 1).heapListp ≠ 0 := hlistp0
    have hnext : nextBlkp (countBlocks h 0 1).mem x = x + b.size := hxb.nextBlkp
    have hsize : getSize (countBlocks h 0 1).mem (hdrp x) = b.size := hxb.getSize_hdrp
    have hjoin : Malloc.coalesce { countBlocks h 0 1 with mem := m₂ } x =
        (joinedHeap (countBlocks h 0 1) m₃ s e (joinCount p n), s) := by
      rw [hx]
      exact heq
    unfold mmFree
    rw [if_neg hnull]
    simp only [halloc, if_true, if_neg hcount, hnext, hsize]
    exact congrArg Prod.fst hjoin
  refine ⟨m₃, hfree, ?_, ?_, ?_, fun k hocc => ?_⟩
  · rw [hfree]
    exact hw₃
  · rw [hfree]
    exact hcover
  · have hf := ((hf₁.mono (Set.empty_subset _)).trans (by simpa using hf₂)).trans
      (hf₃.mono (Set.empty_subset _))
    simpa [freedList] using hf
  · obtain ⟨c, hc, halloc, hsize, -⟩ := (hf₃.occupied x k (by simp)).mp hocc
    have hxc : (x, b.freed) ∈ placed Block.size h.heapListp
        (pre ++ p :: b.freed :: n.withTag false :: post) := placed_behind hx
    obtain rfl := placed_inj hxc hc (by simpa using by omega) (by omega)
    simp at halloc

/-- `mm_free` keeps adjacent free blocks apart by tags, unless the two blocks behind the
freed one are free and the freed one is untagged. -/
theorem freedList_keptApart {pre post : List Block} {p b n : Block}
    (h : (pre ++ p :: b :: n :: post).IsChain KeptApart)
    (ht : (pre ++ p :: b :: n :: post).IsChain TagBehind)
    (hn : n.alloc = false → ∀ c ∈ post.head?, c.alloc = false → b.tag = true) :
    (freedList pre p b n post).IsChain KeptApart := by
  have hpre : (pre ++ [p]).IsChain KeptApart := by
    rw [List.append_cons] at h
    exact h.left_of_append
  have hpost : post.IsChain KeptApart := by
    rw [List.append_cons, List.append_cons, List.append_cons] at h
    exact h.right_of_append
  have hpb : TagBehind p b := by
    simp only [List.isChain_append, List.isChain_cons_cons] at ht
    exact ht.2.1.1
  refine join_keptApart hpre hpost rfl fun hna c hc hca => ?_
  have hb := hn hna c hc hca
  exact ⟨by simp [Block.closed, hpb hb], hb⟩

end SystemsLabs.Malloc
