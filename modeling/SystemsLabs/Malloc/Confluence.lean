import SystemsLabs.Malloc.Sketch

/-!
# Freeing in any order

In a heap without tags where no two free blocks are adjacent, the allocated blocks and the break
determine the whole block list. Calls of `mm_free` remove allocated blocks and move the roving
pointer to the start of the block around it, so their order leaves no trace.
-/

namespace SystemsLabs.Malloc
open Library

/-- A well-formed heap without tags in which no two free blocks are adjacent. -/
structure Merged (h : Heap) (bs : List Block) : Prop extends WellFormedAs h bs where
  keptApart : bs.IsChain KeptApart
  untagged : Untagged bs

/-- From `h` to `h'` the blocks at `ps` were freed, and no covering block became smaller. -/
structure Freed (ps : List ℕ) (h : Heap) (bs : List Block) (h' : Heap) (bs' : List Block) :
    Prop where
  merged : Merged h' bs'
  start : h'.memStartBrk = h.memStartBrk
  brk : h'.memBrk = h.memBrk
  occupied : ∀ y k, Occupied h.heapListp bs' y k ↔ Occupied h.heapListp bs y k ∧ y ∉ ps
  current : h'.currentBlock = cover Block.size h.heapListp bs' h.currentBlock
  coarser : ∀ x, h.heapListp ≤ x → x < h.memBrk →
    cover Block.size h.heapListp bs' (cover Block.size h.heapListp bs x) =
      cover Block.size h.heapListp bs' x

section Freed

variable {h h' h'' h₁ h₂ : Heap} {bs bs' bs'' bs₁ bs₂ os os' : List Block} {ps qs : List ℕ}
  {x k a : ℕ}

lemma Freed.listp (hf : Freed ps h bs h' bs') (hw : WellFormedAs h bs) :
    h'.heapListp = h.heapListp := by
  rw [hf.merged.listp, hw.listp, hf.start]

/-- The roving pointer lies between the prologue and the break. -/
lemma WellFormedAs.current_bounds (hw : WellFormedAs h bs) :
    h.heapListp ≤ h.currentBlock ∧ h.currentBlock < h.memBrk := by
  obtain ⟨b, hb, hne⟩ := hw.current
  have hlo := le_of_mem_placed hb
  have hhi := add_le_of_mem_placed hb
  rw [← hw.brk] at hhi
  omega

lemma Freed.refl (hm : Merged h bs) : Freed [] h bs h bs := by
  refine ⟨hm, rfl, rfl, by simp, ?_, fun x hlo hhi => ?_⟩
  · obtain ⟨b, hb, hne⟩ := hm.current
    exact (cover_of_mem hb (by omega)).symm
  · rw [hm.brk] at hhi
    obtain ⟨b, hb, -, hlt⟩ := cover_spec hlo hhi
    apply cover_of_mem hb
    have hle : cover Block.size h.heapListp bs x ≤ x := cover_le hlo
    omega

lemma Freed.trans (hw : WellFormedAs h bs) (hf : Freed ps h bs h' bs')
    (hf' : Freed qs h' bs' h'' bs'') : Freed (ps ++ qs) h bs h'' bs'' := by
  have hlistp := hf.listp hw
  have hocc := hf'.occupied
  have hcur := hf'.current
  have hcoarse := hf'.coarser
  rw [hlistp] at hocc hcur hcoarse
  rw [hf.brk] at hcoarse
  refine ⟨hf'.merged, hf'.start.trans hf.start, hf'.brk.trans hf.brk, ?_, ?_, ?_⟩
  · intro y k
    rw [hocc, hf.occupied, List.mem_append, not_or, and_assoc]
  · obtain ⟨hlo, hhi⟩ := hw.current_bounds
    rw [hcur, hf.current, hcoarse _ hlo hhi]
  · intro x hlo hhi
    have hle : cover Block.size h.heapListp bs x ≤ x := cover_le hlo
    have hhi' := hhi
    rw [hw.brk] at hhi'
    obtain ⟨b, hb, -, -⟩ := cover_spec hlo hhi'
    rw [← hcoarse _ (le_of_mem_placed hb) (by omega), hf.coarser x hlo hhi, hcoarse x hlo hhi]

/-- A join replaces covering blocks by the block around them. -/
lemma Joined.cover_cover {s e : ℕ} (hj : Joined a bs bs' s e) (hlo : a ≤ x)
    (hhi : x < a + Library.extent Block.size bs) :
    Library.cover Block.size a bs' (Library.cover Block.size a bs x) =
      Library.cover Block.size a bs' x := by
  obtain ⟨l, mid, r, d, -, -, -, -, -, hext⟩ := hj
  exact cover_cover_splice hext hlo hhi

/-- One call of `mm_free`. -/
lemma Merged.free (hm : Merged h bs) (hx : Occupied h.heapListp bs x k) :
    ∃ bs', Freed [x] h bs (mmFree h x) bs' := by
  have hw := hm.toWellFormedAs
  have hsafe := freeSafe_of_untagged hw hx hm.keptApart hm.untagged
  obtain ⟨bs₁, he, -, hk, hu⟩ := mmFree_evolves hw hx
  obtain ⟨pre, p, b, n, post, rfl, hxp, halloc, rfl⟩ := hw.split_occupied hx
  obtain ⟨m, heq, hw', hcur, hf, hno⟩ := mmFree_spec hw halloc hxp
  obtain rfl := he.wellFormed.toTiled.unique hw'.toTiled
  refine ⟨freedList pre p b n post, ⟨hw', hk hsafe hm.keptApart, hu hm.untagged⟩, ?_, ?_, ?_,
    hcur, ?_⟩
  · rw [heq]
    rfl
  · rw [heq]
    rfl
  · intro y j
    by_cases hy : y = x
    · subst hy
      simp [hno]
    · simpa [hy] using hf.occupied y j hy
  · intro y hlo hhi
    have hfr : Framed ((pre ++ [p]) ++ [b] ++ n :: post) := by simpa using hw.framed
    have hfreed : Framed ((pre ++ [p, b.freed]) ++ n :: post) := by
      have hb : Framed ((pre ++ [p]) ++ [b.freed] ++ n :: post) :=
        hfr.splice (by simp) (by simp) (by simpa using (hw.occupied_bounds hx).2.2.2)
      simpa using hb
    have huntag : Framed (pre ++ p :: b.freed :: n.withTag false :: post) := by
      simpa using hfreed.retag (by simp) false
    have hj : Joined h.heapListp _ _ _ _ := joined_join huntag rfl
    have hsizes : (pre ++ p :: b :: n :: post).map Block.size =
        (pre ++ p :: b.freed :: n.withTag false :: post).map Block.size := by simp
    rw [cover_congr hsizes]
    refine hj.cover_cover hlo ?_
    rw [hw.brk] at hhi
    simpa using hhi

/-- Calls of `mm_free` on different allocated blocks. -/
theorem Merged.frees (hm : Merged h bs) (hnodup : ps.Nodup)
    (hps : ∀ p ∈ ps, ∃ k, Occupied h.heapListp bs p k) :
    ∃ bs', Freed ps h bs (ps.foldl mmFree h) bs' := by
  induction ps generalizing h bs with
  | nil => exact ⟨bs, Freed.refl hm⟩
  | cons p ps ih =>
    obtain ⟨hp, hnodup⟩ := List.nodup_cons.mp hnodup
    obtain ⟨k, hk⟩ := hps p (by simp)
    obtain ⟨bs₁, hf⟩ := hm.free hk
    have hrest : ∀ q ∈ ps, ∃ j, Occupied (mmFree h p).heapListp bs₁ q j := by
      intro q hq
      obtain ⟨j, hj⟩ := hps q (List.mem_cons_of_mem p hq)
      rw [hf.listp hm.toWellFormedAs]
      refine ⟨j, (hf.occupied q j).mpr ⟨hj, ?_⟩⟩
      rintro hqp
      exact hp (List.mem_singleton.mp hqp ▸ hq)
    obtain ⟨bs₂, hf'⟩ := ih hf.merged hnodup hrest
    exact ⟨bs₂, hf.trans hm.toWellFormedAs hf'⟩

/-! ### The block list is determined -/

/-- The ordinary blocks of a list that carries no tag. -/
lemma Merged.ordinary (hm : Merged h bs) : ∃ os, bs = Block.prologue :: (os ++ [Block.epilogue false]) ∧
    (∀ b ∈ os, 16 ≤ b.size) ∧ Untagged os ∧
    os.IsChain fun b c => b.alloc = true ∨ c.alloc = true := by
  obtain ⟨os, t, rfl, hsize⟩ := hm.framed
  have hu := hm.untagged
  simp only [Untagged, List.forall_mem_cons, List.forall_mem_append] at hu
  obtain ⟨-, huo, hue, -⟩ := hu
  rw [show t = false from hue]
  refine ⟨os, rfl, hsize, huo, ?_⟩
  have hk := hm.keptApart.of_cons.left_of_append
  rw [List.isChain_iff_getElem] at hk ⊢
  intro i hi
  have hpair := hk i hi
  have htag := huo _ (List.getElem_mem (Nat.lt_of_succ_lt hi))
  unfold KeptApart at hpair
  cases hb : os[i].alloc <;> cases hc : os[i + 1].alloc <;> simp_all

lemma occupied_iff_markedAt {t : Bool} (hos : ∀ b ∈ os, 16 ≤ b.size) {y : ℕ} :
    Occupied a (Block.prologue :: (os ++ [Block.epilogue t])) y k ↔
      MarkedAt Block.size Block.alloc (a + 8) os y k := by
  unfold Occupied MarkedAt
  simp only [placed_cons, placed_append, placed_nil, List.mem_cons, List.mem_append, Prod.mk.injEq,
    List.not_mem_nil, or_false]
  constructor
  · rintro ⟨b, ⟨-, rfl⟩ | hb | ⟨-, rfl⟩, halloc, hsize, hk⟩
    · simp at hsize
    · exact ⟨b, hb, halloc, hk⟩
    · simp at hsize
  · rintro ⟨b, hb, halloc, hk⟩
    exact ⟨b, Or.inr (Or.inl hb), halloc, hos b (mem_of_mem_placed hb), hk⟩

lemma eq_of_map_eq (hu : Untagged os) (hu' : Untagged os')
    (h : os.map (fun b => (b.size, b.alloc)) = os'.map (fun b => (b.size, b.alloc))) : os = os' := by
  induction os generalizing os' with
  | nil =>
    rw [List.map_nil, eq_comm, List.map_eq_nil_iff] at h
    exact h.symm
  | cons b os ih =>
    cases os' with
    | nil => simp at h
    | cons b' os' =>
      simp only [List.map_cons, List.cons.injEq, Prod.mk.injEq] at h
      obtain ⟨⟨hsize, halloc⟩, hrest⟩ := h
      have hb : b = b' := by
        ext
        · exact hsize
        · exact halloc
        · rw [hu b (by simp), hu' b' (by simp)]
      rw [hb, ih (fun c hc => hu c (List.mem_cons_of_mem b hc))
        (fun c hc => hu' c (List.mem_cons_of_mem b' hc)) hrest]

/-- The allocated blocks and the break determine the block list. -/
theorem Merged.eq_of_occupied (hm₁ : Merged h₁ bs₁) (hm₂ : Merged h₂ bs₂)
    (hlistp : h₁.heapListp = h₂.heapListp) (hbrk : h₁.memBrk = h₂.memBrk)
    (hocc : ∀ y k, Occupied h₁.heapListp bs₁ y k ↔ Occupied h₂.heapListp bs₂ y k) : bs₁ = bs₂ := by
  have hext : extent Block.size bs₁ = extent Block.size bs₂ := by
    have := hm₁.brk
    have := hm₂.brk
    omega
  obtain ⟨os₁, rfl, hsize₁, hu₁, hsep₁⟩ := hm₁.ordinary
  obtain ⟨os₂, rfl, hsize₂, hu₂, hsep₂⟩ := hm₂.ordinary
  have hmap : os₁.map (fun b => (b.size, b.alloc)) = os₂.map (fun b => (b.size, b.alloc)) := by
    refine map_eq_of_marked (a := h₁.heapListp + 8) ?_ ?_ hsep₁ hsep₂ ?_ ?_
    · intro b hb
      have := hsize₁ b hb
      omega
    · intro b hb
      have := hsize₂ b hb
      omega
    · simpa using hext
    · intro y k
      rw [← occupied_iff_markedAt (t := false) hsize₁, hocc, hlistp,
        occupied_iff_markedAt hsize₂]
  rw [eq_of_map_eq hu₁ hu₂ hmap]

/-- Freeing the same blocks leaves the same blocks and the same roving pointer. -/
theorem Freed.unique (hw : WellFormedAs h bs) (hf₁ : Freed ps h bs h₁ bs₁)
    (hf₂ : Freed qs h bs h₂ bs₂) (hpq : ∀ p, p ∈ ps ↔ p ∈ qs) :
    blockList h₁ = blockList h₂ ∧ h₁.currentBlock = h₂.currentBlock := by
  have hlistp := (hf₁.listp hw).trans (hf₂.listp hw).symm
  obtain rfl : bs₁ = bs₂ := by
    refine hf₁.merged.eq_of_occupied hf₂.merged hlistp (hf₁.brk.trans hf₂.brk.symm) ?_
    intro y k
    rw [hf₁.listp hw, hf₂.listp hw, hf₁.occupied, hf₂.occupied, hpq]
  refine ⟨?_, by rw [hf₁.current, hf₂.current]⟩
  rw [hf₁.merged.blockList_eq, hf₂.merged.blockList_eq, hlistp]

/-- The only free block, if there is one, is the only block between prologue and epilogue. -/
def OneFreeBlock (h : Heap) : Prop :=
  (∃ b, b.alloc = false ∧ blockList h = [(h.heapListp, Block.prologue), (h.heapListp + 8, b),
    (h.memBrk, Block.epilogue false)]) ∨
  h.memBrk = h.memStartBrk + 16 ∧
    blockList h = [(h.heapListp, Block.prologue), (h.memBrk, Block.epilogue false)]

lemma Merged.oneFreeBlock (hm : Merged h bs) (hno : ∀ y k, ¬Occupied h.heapListp bs y k) :
    OneFreeBlock h := by
  have hbrk := hm.brk
  have hlistp := hm.listp
  unfold OneFreeBlock
  rw [hm.blockList_eq]
  obtain ⟨os, rfl, hsize, -, hsep⟩ := hm.ordinary
  have hfree : ∀ b ∈ os, b.alloc = false := by
    intro b hb
    obtain ⟨pre, post, rfl⟩ := List.append_of_mem hb
    by_contra halloc
    refine hno _ _ ((occupied_iff_markedAt hsize).mpr ⟨b, placed_at, by simpa using halloc, rfl⟩)
  cases os with
  | nil =>
    right
    simp only [List.nil_append, extent_cons, extent_nil, Block.prologue_size,
      Block.epilogue_size] at hbrk
    refine ⟨by omega, ?_⟩
    simp [hbrk]
  | cons b os =>
    cases os with
    | nil =>
      left
      refine ⟨b, hfree b (by simp), ?_⟩
      rw [hbrk]
      simp [Nat.add_assoc]
    | cons c os =>
      rw [List.isChain_cons_cons, hfree b (by simp), hfree c (by simp)] at hsep
      simp at hsep

end Freed

/-! ### Runs -/

/-- After a run of `mm_malloc` and `mm_free` whose sizes do not wrap, the order in which live
pointers are freed does not matter, and freeing all of them leaves one free block. -/
theorem frees_of_reaches {mem : Memory} {start : ℕ} {s : Session} (halign : start % 8 = 0)
    (h : Reaches Session.step (fun _ c => c.Plain) (Session.begin mem start) s) :
    (∀ ps qs : List ℕ, ps.Perm qs → ps.Nodup → (∀ p ∈ ps, ∃ a ∈ s.live, a.ptr = p) →
      blockList (ps.foldl mmFree s.heap) = blockList (qs.foldl mmFree s.heap) ∧
      (ps.foldl mmFree s.heap).currentBlock = (qs.foldl mmFree s.heap).currentBlock) ∧
    ∀ ps : List ℕ, ps.Perm (s.live.map Allocation.ptr) → OneFreeBlock (ps.foldl mmFree s.heap) := by
  obtain ⟨bs, hs, hk, hu, -⟩ := plain_of_reaches halign h
  have hm : Merged s.heap bs := ⟨hs.wellFormed, hk, hu⟩
  have hroom : ∀ p, (∃ a ∈ s.live, a.ptr = p) → ∃ k, Occupied s.heap.heapListp bs p k := by
    rintro p ⟨a, ha, rfl⟩
    obtain ⟨k, -, hocc⟩ := hs.room a ha
    exact ⟨k, hocc⟩
  constructor
  · intro ps qs hperm hnodup hlive
    obtain ⟨bs₁, hf₁⟩ := hm.frees hnodup fun p hp => hroom p (hlive p hp)
    obtain ⟨bs₂, hf₂⟩ := hm.frees (hperm.nodup hnodup) fun p hp =>
      hroom p (hlive p (hperm.mem_iff.mpr hp))
    exact hf₁.unique hm.toWellFormedAs hf₂ fun p => hperm.mem_iff
  · intro ps hperm
    have hmem : ∀ p, p ∈ ps ↔ ∃ a ∈ s.live, a.ptr = p := fun p => by
      rw [hperm.mem_iff, List.mem_map]
    obtain ⟨bs', hf⟩ := hm.frees (hperm.nodup_iff.mpr hs.nodup) fun p hp =>
      hroom p ((hmem p).mp hp)
    refine hf.merged.oneFreeBlock fun y k hocc => ?_
    rw [hf.listp hm.toWellFormedAs, hf.occupied] at hocc
    exact hocc.2 ((hmem y).mpr (hs.complete y k hocc.1))

theorem frees_after_malloc : ∃ s, run Session.step (Session.begin (fun _ => 0) 4096)
    [.malloc 16, .malloc 40] = some s ∧ OneFreeBlock ([4136, 4112].foldl mmFree s.heap) := by
  have hk : run Sketch.step (Sketch.begin 4096) [.malloc 16, .malloc 40] =
      some ⟨⟨4096, [Block.prologue, ⟨24, true, false, rfl⟩, ⟨48, true, false, rfl⟩,
        ⟨4024, false, false, rfl⟩, Block.epilogue false], 4136⟩, [(4136, 40), (4112, 16)]⟩ := by
    decide
  obtain ⟨s, hrun, hs⟩ := (Shows.begin _ (by decide)).run hk
  have hptrs : s.live.map Allocation.ptr = [4136, 4112] := by
    have hfst := congrArg (List.map Prod.fst) hs.live
    rw [List.map_map] at hfst
    exact hfst.symm
  refine ⟨s, hrun, (frees_of_reaches (by decide)
    (reaches_of_run (by simp [Call.Plain]) hrun)).2 _ ?_⟩
  rw [hptrs]

/-! ### A request that wraps -/

section Wrapping

variable {h : Heap} {x k : ℕ} {t : Bool}

/-- The words around a block of `k` bytes that `place` allocated with size zero in front of the
epilogue: its header shows a free block, and so does the footer of the block in front. -/
structure Wrapped (m : Memory) (x k : ℕ) : Prop where
  header : loadWord m (x - 4) = k
  front : ∃ t : Bool, loadWord m (x - 8) = 2 * t.toNat + 1
  footer : loadWord m (x + k - 8) = k
  back : loadWord m (x + k - 4) = 1

lemma pack_zero (hk : k % 8 = 0) : pack k 0 = k := pack_eq hk (by norm_num)

/-- `place` of zero bytes in the last block of the heap. -/
lemma place_zero (hhdr : loadWord h.mem (x - 4) = k) (hx : 12 ≤ x) (hk : k % 8 = 0)
    (hk16 : 16 ≤ k) (hlt : k < 2 ^ 32) (hback : loadWord h.mem (x + k - 4) = 1) :
    Wrapped (place h x 0).mem x k ∧
      AgreeOutside (x - 8) (x + k - 4) h.mem (place h x 0).mem := by
  have hsize : getSize h.mem (hdrp x) = k := by
    rw [getSize_eq, hdrp, wsize, hhdr]
    omega
  have hrem : toUnsigned ((k : ℤ) - (0 : ℕ)) = k := by
    rw [Nat.cast_zero, sub_zero]
    exact wrapUnsigned_natCast hlt
  obtain ⟨m₁, hm₁⟩ : ∃ m₁, m₁ = putWithTag h.mem (hdrp x) (pack 0 1) := ⟨_, rfl⟩
  have hm₁' : m₁ = storeWord h.mem (x - 4) 1 := by
    have htag : getTag h.mem (x - 4) = 2 * false.toNat := by
      rw [getTag_eq, hhdr, Bool.toNat_false]
      omega
    have hput : putWithTag h.mem (x - 4) (pack 0 true.toNat) =
        storeWord h.mem (x - 4) (0 + 2 * false.toNat + true.toNat) := putWithTag_eq rfl htag
    rw [hm₁]
    exact hput
  have hload₁ : loadWord m₁ (x - 4) = 1 := by
    rw [hm₁', loadWord_storeWord (by norm_num)]
  have hftrp : ftrp m₁ x = x - 8 := by
    rw [ftrp, getSize_eq, hdrp, wsize, hload₁, dsize]
    omega
  obtain ⟨t, ht⟩ := getTag_toNat m₁ (x - 8)
  obtain ⟨m₂, hm₂⟩ : ∃ m₂, m₂ = putWithTag m₁ (ftrp m₁ x) (pack 0 1) := ⟨_, rfl⟩
  have hm₂' : m₂ = storeWord m₁ (x - 8) (0 + 2 * t.toNat + 1) := by
    rw [hm₂, hftrp]
    exact putWithTag_eq (a := true) rfl ht
  have hnext : nextBlkp m₂ x = x := by
    rw [nextBlkp, getSize_eq, wsize, hm₂', loadWord_storeWord_of_disjoint (by omega), hload₁]
    omega
  obtain ⟨m₃, hm₃⟩ : ∃ m₃, m₃ = put m₂ (hdrp (nextBlkp m₂ x)) (pack k 0) := ⟨_, rfl⟩
  have hm₃' : m₃ = storeWord m₂ (x - 4) k := by
    rw [hm₃, hnext, pack_zero hk]
    rfl
  have hload₃ : loadWord m₃ (x - 4) = k := by rw [hm₃', loadWord_storeWord hlt]
  have hback₃ : loadWord m₃ (x + k - 4) = 1 := by
    rw [hm₃', loadWord_storeWord_of_disjoint (by omega), hm₂',
      loadWord_storeWord_of_disjoint (by omega), hm₁',
      loadWord_storeWord_of_disjoint (by omega), hback]
  have hnext₃ : nextBlkp m₃ x = x + k := by
    rw [nextBlkp, getSize_eq, wsize, hload₃]
    omega
  have hftrp₃ : ftrp m₃ (nextBlkp m₃ x) = x + k - 8 := by
    rw [hnext₃, ftrp, getSize_eq, hdrp, wsize, hback₃, dsize]
    omega
  have hplace : (place h x 0).mem = storeWord m₃ (x + k - 8) k := by
    simp only [place, hsize, hrem, dsize, if_pos (show k ≥ 2 * 8 by omega), ← hm₁, ← hm₂, ← hm₃,
      hftrp₃]
    rw [pack_zero hk]
    rfl
  rw [hplace]
  refine ⟨⟨?_, ⟨t, ?_⟩, loadWord_storeWord hlt, ?_⟩, ?_⟩
  · rw [loadWord_storeWord_of_disjoint (by omega), hload₃]
  · have hbound : 0 + 2 * t.toNat + 1 < 2 ^ 32 := by cases t <;> norm_num
    rw [loadWord_storeWord_of_disjoint (by omega), hm₃', loadWord_storeWord_of_disjoint (by omega),
      hm₂', loadWord_storeWord hbound, Nat.zero_add]
  · rw [loadWord_storeWord_of_disjoint (by omega), hback₃]
  · rw [hm₃', hm₂', hm₁']
    exact ((((AgreeOutside.refl _ _ _).storeWord (by omega) (by omega)).storeWord (by omega)
      (by omega)).storeWord (by omega) (by omega)).storeWord (by omega) (by omega)

lemma repairCurrent_mem (h : Heap) (bp : ℕ) : (repairCurrent h bp).mem = h.mem := by
  unfold repairCurrent
  split <;> rfl

/-- `coalesce` takes such a block for its own free predecessor and doubles its size. -/
lemma coalesce_wrapped (hw : Wrapped h.mem x k) (hx : 12 ≤ x) (hk : k % 8 = 0) (hk16 : 16 ≤ k)
    (hlt : 2 * k < 2 ^ 32) :
    (coalesce h x).1.mem = storeWord (storeWord h.mem (x + k - 8) (2 * k)) (x - 4) (2 * k) := by
  obtain ⟨t, hfront⟩ := hw.front
  have hsize : getSize h.mem (x - 4) = k := by
    rw [getSize_eq, hw.header]
    omega
  have hnext : nextBlkp h.mem x = x + k := by rw [nextBlkp, wsize, hsize]
  have hftrp : ftrp h.mem x = x + k - 8 := by rw [ftrp, hdrp, wsize, hsize, dsize]
  have hprev : prevBlkp h.mem x = x := by
    rw [prevBlkp, getSize_eq, dsize, hfront]
    cases t <;> simp
  have hfree : getAlloc h.mem (x + k - 8) = 0 := by
    rw [getAlloc_eq, hw.footer]
    omega
  have htag : getTag h.mem (x - 4) = 0 := by
    rw [getTag_eq, hw.header]
    omega
  have hftag : getTag h.mem (x + k - 8) = 2 * false.toNat := by
    rw [getTag_eq, hw.footer, Bool.toNat_false]
    omega
  have hback : getAlloc h.mem (x + k - 4) = 1 := by
    rw [getAlloc_eq, hw.back]
  have hdouble : toUnsigned ((k : ℤ) + k) = 2 * k := by
    rw [show (k : ℤ) + k = ((2 * k : ℕ) : ℤ) by push_cast; ring]
    exact wrapUnsigned_natCast hlt
  obtain ⟨m₁, hm₁⟩ : ∃ m₁, m₁ = putWithTag h.mem (x + k - 8) (pack (2 * k) 0) := ⟨_, rfl⟩
  have hm₁' : m₁ = storeWord h.mem (x + k - 8) (2 * k) := by
    rw [hm₁]
    exact putWithTag_eq (a := false) (by omega) hftag
  have hprev₁ : prevBlkp m₁ x = x := by
    rw [prevBlkp, getSize_eq, dsize, hm₁', loadWord_storeWord_of_disjoint (by omega), hfront]
    cases t <;> simp
  have hlast : putWithTag m₁ (x - 4) (pack (2 * k) 0) = storeWord m₁ (x - 4) (2 * k) := by
    have htag₁ : getTag m₁ (x - 4) = 2 * false.toNat := by
      rw [getTag_eq, hm₁', loadWord_storeWord_of_disjoint (by omega), ← getTag_eq, htag]
      rfl
    exact putWithTag_eq (a := false) (by omega) htag₁
  rw [← hm₁', ← hlast]
  simp only [coalesce, hprev, hnext, hftrp, hdrp, wsize, hsize, hdouble, ← hm₁, hprev₁, hfree, htag,
    hback]
  simp only [ne_eq, not_true_eq_false, or_self, one_ne_zero, not_false_eq_true, and_true,
    if_false, if_true, and_self, repairCurrent_mem]
  rfl

/-- `mm_free` of such a block joins it with itself. -/
lemma mmFree_wrapped (hw : Wrapped h.mem x k) (hlistp : h.heapListp ≠ 0) (hx : 12 ≤ x)
    (hk : k % 8 = 0) (hk16 : 16 ≤ k) (hlt : 2 * k < 2 ^ 32) :
    loadWord (mmFree h x).mem (x - 4) = 2 * k ∧
      AgreeOutside (x - 4) (x + k) h.mem (mmFree h x).mem := by
  have hsize : getSize h.mem (hdrp x) = k := by
    rw [getSize_eq, hdrp, wsize, hw.header]
    omega
  have hnext : nextBlkp h.mem x = x + k := by
    rw [nextBlkp, show x - wsize = hdrp x from rfl, hsize]
  have halloc : isBlockAllocated h.mem x = false := by
    have : getAlloc h.mem (hdrp x) = 0 := by
      rw [getAlloc_eq, hdrp, wsize, hw.header]
      omega
    simp [isBlockAllocated, this]
  -- the three words are written with the values that they have
  obtain ⟨m₁, hm₁⟩ : ∃ m₁, m₁ = deleteTag h.mem (hdrp (x + k)) := ⟨_, rfl⟩
  have hm₁' : m₁ = storeWord h.mem (x + k - 4) 1 := by
    simp only [hm₁, deleteTag, hdrp, wsize, hw.back]
    rfl
  obtain ⟨m₂, hm₂⟩ : ∃ m₂, m₂ = putWithTag m₁ (hdrp x) (pack k 0) := ⟨_, rfl⟩
  have hm₂' : m₂ = storeWord m₁ (x - 4) k := by
    have htag : getTag m₁ (x - 4) = 2 * false.toNat := by
      rw [getTag_eq, hm₁', loadWord_storeWord_of_disjoint (by omega), hw.header, Bool.toNat_false]
      omega
    rw [hm₂]
    exact putWithTag_eq (a := false) hk htag
  have hftrp : ftrp m₂ x = x + k - 8 := by
    rw [ftrp, getSize_eq, hdrp, wsize, hm₂', loadWord_storeWord (by omega), dsize]
    omega
  obtain ⟨m₃, hm₃⟩ : ∃ m₃, m₃ = putWithTag m₂ (ftrp m₂ x) (pack k 0) := ⟨_, rfl⟩
  have hm₃' : m₃ = storeWord m₂ (x + k - 8) k := by
    have htag : getTag m₂ (x + k - 8) = 2 * false.toNat := by
      rw [getTag_eq, hm₂', loadWord_storeWord_of_disjoint (by omega), hm₁',
        loadWord_storeWord_of_disjoint (by omega), hw.footer, Bool.toNat_false]
      omega
    rw [hm₃, hftrp]
    exact putWithTag_eq (a := false) hk htag
  have hw₃ : Wrapped m₃ x k := by
    obtain ⟨t, hfront⟩ := hw.front
    refine ⟨?_, ⟨t, ?_⟩, ?_, ?_⟩
    · rw [hm₃', loadWord_storeWord_of_disjoint (by omega), hm₂', loadWord_storeWord (by omega)]
    · rw [hm₃', loadWord_storeWord_of_disjoint (by omega), hm₂',
        loadWord_storeWord_of_disjoint (by omega), hm₁',
        loadWord_storeWord_of_disjoint (by omega), hfront]
    · rw [hm₃', loadWord_storeWord (by omega)]
    · rw [hm₃', loadWord_storeWord_of_disjoint (by omega), hm₂',
        loadWord_storeWord_of_disjoint (by omega), hm₁', loadWord_storeWord (by norm_num)]
  have hfree : mmFree h x = (coalesce { h with mem := m₃ } x).1 := by
    rw [mmFree, if_neg (by omega)]
    simp only [halloc, Bool.false_eq_true, if_false, if_neg hlistp, hnext, hsize, ← hm₁, ← hm₂,
      ← hm₃]
  rw [hfree, coalesce_wrapped (h := { h with mem := m₃ }) hw₃ hx hk hk16 hlt]
  refine ⟨loadWord_storeWord hlt, ?_⟩
  have hag : AgreeOutside (x - 4) (x + k) h.mem m₃ := by
    rw [hm₃', hm₂', hm₁']
    exact (((AgreeOutside.refl _ _ _).storeWord (by omega) (by omega)).storeWord (by omega)
      (by omega)).storeWord (by omega) (by omega)
  exact (hag.storeWord (by omega) (by omega)).storeWord (by omega) (by omega)

end Wrapping

/-- A request for which no block is found and the heap is extended. -/
lemma mmMalloc_extending {h h₁ : Heap} {n asize p : ℕ} (hlistp : h.heapListp ≠ 0) (hn : n ≠ 0)
    (hasize : adjustSize n = asize) (hfind : findFit h asize = some (h, null))
    (hext : extendHeap h (max asize chunksize) = (h₁, p)) (hp : p ≠ null) :
    mmMalloc h n = some (place h₁ p asize, p) := by
  simp only [mmMalloc, if_neg hlistp, if_neg hn, hasize, hfind, ne_eq, not_true_eq_false, if_false,
    hext, if_neg hp]

lemma place_arena (h : Heap) (bp asize : ℕ) : SameArena h (place h bp asize) := by
  unfold place
  simp only
  split <;> exact ⟨rfl, rfl, rfl, rfl⟩

lemma coalesce_arena (h : Heap) (bp : ℕ) : SameArena h (coalesce h bp).1 := by
  unfold coalesce repairCurrent
  simp only
  split_ifs <;> exact ⟨rfl, rfl, rfl, rfl⟩

lemma mmFree_arena (h : Heap) (ptr : ℕ) (hlistp : h.heapListp ≠ 0) :
    SameArena h (mmFree h ptr) := by
  have hcoalesce := fun m => coalesce_arena { h with mem := m } ptr
  have hcounted := fun m => coalesce_arena { countBlocks h 0 1 with mem := m } ptr
  unfold mmFree
  by_cases hptr : ptr = 0
  · rw [if_pos hptr]
    exact ⟨rfl, rfl, rfl, rfl⟩
  rw [if_neg hptr]
  cases isBlockAllocated h.mem ptr with
  | false =>
    simp only [Bool.false_eq_true, if_false, if_neg hlistp]
    exact hcoalesce _
  | true =>
    simp only [if_true, if_neg (show (countBlocks h 0 1).heapListp ≠ 0 from hlistp)]
    exact hcounted _

lemma walk_starts (m : Memory) (fuel bp : ℕ) :
    (walk m (fuel + 1) bp).map Prod.fst = bp :: if getSize m (hdrp bp) = 0 then []
      else (walk m fuel (nextBlkp m bp)).map Prod.fst := by
  rw [walk]
  change (if getSize m (hdrp bp) = 0 then _ else _ : List (ℕ × Block)).map Prod.fst = _
  split <;> rfl

/-- A request of 4294967281 bytes is rounded to zero bytes. Freeing the pointer that it returned
leaves a header of 8192 bytes in a heap of 4112. -/
theorem wrapped_frees : ∃ s, run Session.step (Session.begin (fun _ => 0) 4096)
    [.malloc 4294967281] = some s ∧ s.live.map Allocation.ptr = [4112] ∧
      ¬OneFreeBlock ([4112].foldl mmFree s.heap) := by
  have hr := begin_refines (fun _ => 0) (show 4096 % 8 = 0 by decide)
  obtain ⟨h, hh⟩ : ∃ h, h = (Session.begin (fun _ => 0) 4096).heap := ⟨_, rfl⟩
  rw [← hh] at hr
  have hw : WellFormedAs h ([] ++ [Block.prologue, Block.epilogue false]) := hr.toWellFormedAs
  have hlistp : h.heapListp = 4104 := hr.first
  have hcur : h.currentBlock = 4104 := hr.roving
  have hbrk : h.memBrk = 4112 := hr.brk_eq
  have hmax : h.memMaxAddr = 4096 + maxHeap := by rw [hw.maxAddr, hr.start]; rfl
  have hasize : adjustSize 4294967281 = 0 := by decide
  have hfind : findFit h 0 = some (h, null) := by
    have hseek : seek 0 h.heapListp ([] ++ [Block.prologue, Block.epilogue false]) h.currentBlock =
        (none, h.currentBlock) := by
      rw [hlistp, hcur]
      decide
    rw [findFit_seek hw, hseek]
    rfl
  -- the heap is extended by 4096 bytes
  have halign : align 4096 = (⟨4096, false, false, rfl⟩ : Block).size := by decide
  obtain ⟨h₁, hext, -, -, he⟩ := (extendHeap_spec hw halign (by decide) (by decide) rfl
    rfl).resolve_left (fun hno => absurd hno.2 (by rw [hbrk, hmax]; decide))
  have hlistp₁ : h₁.heapListp = 4104 := he.listp.trans hlistp
  rw [hlistp, show joinStart (4104 + extent Block.size []) Block.prologue = 4112 from rfl] at hext
  have hw₁ : WellFormedAs h₁ [Block.prologue, ⟨4096, false, false, rfl⟩, Block.epilogue false] :=
    he.wellFormed
  have hbrk₁ : h₁.memBrk = 8208 := by
    rw [hw₁.brk, hlistp₁]
    rfl
  have hword : ∀ {y : ℕ} {b : Block}, (y, b) ∈ placed Block.size 4104
      [Block.prologue, ⟨4096, false, false, rfl⟩, Block.epilogue false] →
      loadWord h₁.mem (y - 4) = b.header := fun hb => (hw₁.blockAt (hlistp₁ ▸ hb)).1
  have hfirst : loadWord h₁.mem 4100 = 9 := hword (y := 4104) (b := Block.prologue) (by simp)
  have hmid : loadWord h₁.mem (4112 - 4) = 4096 :=
    hword (y := 4112) (b := ⟨4096, false, false, rfl⟩) (by simp)
  have hlast : loadWord h₁.mem (4112 + 4096 - 4) = 1 :=
    hword (y := 8208) (b := Block.epilogue false) (by simp)
  have hmalloc : mmMalloc h 4294967281 = some (place h₁ 4112 0, 4112) :=
    mmMalloc_extending (by rw [hlistp]; decide) (by decide) hasize hfind hext (by decide)
  -- allocating zero bytes and freeing the pointer
  obtain ⟨hwrap, hag⟩ := place_zero hmid (by decide) (by decide) (by decide) (by decide) hlast
  obtain ⟨hstart₂, -, hlistp₂, hbrk₂⟩ := place_arena h₁ 4112 0
  generalize place h₁ 4112 0 = h₂ at *
  rw [hlistp₁] at hlistp₂
  rw [hbrk₁] at hbrk₂
  rw [he.start, hr.start] at hstart₂
  obtain ⟨hsize, hag'⟩ := mmFree_wrapped hwrap (by rw [hlistp₂]; decide) (by decide) (by decide)
    (by decide) (by decide)
  obtain ⟨hstart₃, -, hlistp₃, hbrk₃⟩ := mmFree_arena h₂ 4112 (by rw [hlistp₂]; decide)
  refine ⟨⟨h₂, [⟨4112, 4294967281, fun _ => none⟩]⟩, ?_, rfl, ?_⟩
  · have hstep : (Session.begin (fun _ => 0) 4096).step (.malloc 4294967281) = _ :=
      Session.step_malloc.mpr ⟨h₂, 4112, hh ▸ hmalloc, Or.inr ⟨by decide, rfl⟩⟩
    rw [run, hstep]
    rfl
  have hfirst₃ : loadWord (mmFree h₂ 4112).mem 4100 = 9 := by
    rw [loadWord_congr (fun y _ hy => hag' y (Or.inl (by omega))),
      loadWord_congr (fun y _ hy => hag y (Or.inl (by omega))), hfirst]
  have hfuel : walkBound (mmFree h₂ 4112) = 4109 + 1 + 1 + 1 := by
    rw [walkBound, hbrk₃, hbrk₂, hstart₃, hstart₂]
    rfl
  have hsize₁ : getSize (mmFree h₂ 4112).mem (hdrp 4104) = 8 := by
    rw [getSize_eq, hdrp, wsize, hfirst₃]
  have hnext₁ : nextBlkp (mmFree h₂ 4112).mem 4104 = 4112 := by
    rw [nextBlkp, show 4104 - wsize = hdrp 4104 from rfl, hsize₁]
  have hsize₂ : getSize (mmFree h₂ 4112).mem (hdrp 4112) = 8192 := by
    rw [getSize_eq, hdrp, wsize, hsize]
  have hnext₂ : nextBlkp (mmFree h₂ 4112).mem 4112 = 12304 := by
    rw [nextBlkp, show 4112 - wsize = hdrp 4112 from rfl, hsize₂]
  obtain ⟨rest, hstarts⟩ : ∃ rest, (blockList (mmFree h₂ 4112)).map Prod.fst =
      4104 :: 4112 :: 12304 :: rest := by
    rw [blockList, hfuel, hlistp₃, hlistp₂, walk_starts, hsize₁, if_neg (by decide), hnext₁,
      walk_starts, hsize₂, if_neg (by decide), hnext₂, walk_starts]
    exact ⟨_, rfl⟩
  rintro (⟨b, -, hlist⟩ | ⟨-, hlist⟩)
  · rw [List.foldl_cons, List.foldl_nil] at hlist
    rw [hlist, hbrk₃, hbrk₂] at hstarts
    simp at hstarts
  · rw [List.foldl_cons, List.foldl_nil] at hlist
    rw [hlist] at hstarts
    simp at hstarts

end SystemsLabs.Malloc
