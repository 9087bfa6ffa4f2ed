import SystemsLabs.Malloc.Twins

/-!
# What a user may rely on

Runs of the allocator from `mm_init`. Without `mm_realloc` the heap stays well formed, live
payloads keep their bytes and no two free blocks are adjacent. With `mm_realloc` the payloads
stay apart and the roving pointer stays on the block list as long as every such call is safe;
short runs show what the other calls do.
-/

namespace SystemsLabs.Malloc
open Library

variable {mem : Memory} {start : ℕ} {s : Session} {bs : List Block}

/-! ### Runs without `mm_realloc` -/

/-- The address lies between the header and the footer of an allocated block. -/
def InPayload (h : Heap) (w : ℕ) : Prop :=
  ∃ p b, AllocatedAt h p b ∧ p ≤ w ∧ w + 8 < p + b.size

lemma isChain_placed {R : Block → Block → Prop} (a : ℕ) :
    (placed Block.size a bs).IsChain (fun q r => R q.2 r.2) ↔ bs.IsChain R := by
  rw [← List.isChain_map (f := Prod.snd), map_snd_placed]

/-- `mm_init` sets up a well-formed heap, and `mm_malloc`, `mm_free` and all writes into payloads
keep it so. Along runs of these calls no two adjacent blocks are both free. -/
theorem wellFormed_of_calls :
    (∀ h : Heap, h.memStartBrk % 8 = 0 → h.memBrk = h.memStartBrk →
      h.memMaxAddr = h.memStartBrk + maxHeap → (mmInit h).2 = 0 ∧ WellFormed (mmInit h).1) ∧
    (∀ h n, WellFormed h → n + 15 < 2 ^ 32 → ∃ h' p, mmMalloc h n = some (h', p) ∧ WellFormed h') ∧
    (∀ h p b, WellFormed h → AllocatedAt h p b → WellFormed (mmFree h p)) ∧
    (∀ h m, WellFormed h → (∀ w, ¬InPayload h w → m w = h.mem w) →
      WellFormed { h with mem := m }) ∧
    (∀ mem start s, start % 8 = 0 →
      Reaches Session.step (fun _ c => c.Plain) (Session.begin mem start) s →
      (blockList s.heap).IsChain fun q r => ¬(q.2.alloc = false ∧ r.2.alloc = false)) := by
  refine ⟨?_, ?_, ?_, ?_, ?_⟩
  · intro h halign hbrk hmax
    obtain ⟨hres, hr⟩ := mmInit_refines halign hbrk hmax
    exact ⟨hres, _, hr.toWellFormedAs⟩
  · rintro h n ⟨bs, hw⟩ hn
    rcases mmMalloc_spec hw hn with hnull | ⟨h', p, bs', heq, -, he, -⟩
    · exact ⟨h, null, hnull, bs, hw⟩
    · exact ⟨h', p, heq, bs', he.wellFormed⟩
  · rintro h p b ⟨bs, hw⟩ hb
    obtain ⟨bs', he, -⟩ := mmFree_evolves hw (hw.allocatedAt_iff.mp ⟨b, hb, rfl⟩)
    exact ⟨bs', he.wellFormed⟩
  · rintro h m ⟨bs, hw⟩ hm
    refine ⟨bs, hw.congr_payloads fun w hw' => hm w ?_⟩
    rintro ⟨p, b, hb, h1, h2⟩
    exact hw' p b.size (hw.allocatedAt_iff.mp ⟨b, hb, rfl⟩) ⟨h1, h2⟩
  · intro mem start s halign hrun
    obtain ⟨bs, hs, hk, hu, -⟩ := plain_of_reaches halign hrun
    rw [hs.wellFormed.blockList_eq]
    have hchain : bs.IsChain fun b c => ¬(b.alloc = false ∧ c.alloc = false) := by
      rw [List.isChain_iff_getElem] at hk ⊢
      rintro i hi ⟨hb, hc⟩
      have htag := hk i hi hb hc
      rw [hu _ (List.getElem_mem _)] at htag
      cases htag
    exact (isChain_placed s.heap.heapListp).mpr hchain

/-- Along runs without `mm_realloc` the payloads hold what was last written into them, no call
changes a byte of a payload that stays live, and a new pointer heads a block that has room for the
request and overlaps no live payload. -/
theorem payloads_of_reaches (halign : start % 8 = 0)
    (h : Reaches Session.step (fun _ c => c.Plain) (Session.begin mem start) s) :
    Faithful s ∧
    (∀ n s', n + 15 < 2 ^ 32 → s.step (.malloc n) = some s' → ∀ a ∈ s.live, a ∈ s'.live ∧
      ∀ i < a.size, s'.heap.mem (a.ptr + i) = s.heap.mem (a.ptr + i)) ∧
    (∀ p s', s.step (.free p) = some s' → ∀ a ∈ s.live, a.ptr ≠ p → a ∈ s'.live ∧
      ∀ i < a.size, s'.heap.mem (a.ptr + i) = s.heap.mem (a.ptr + i)) ∧
    (∀ n h' p, n + 15 < 2 ^ 32 → mmMalloc s.heap n = some (h', p) → p ≠ null →
      n + 8 ≤ getSize h'.mem (hdrp p) ∧ ∀ a ∈ s.live, a.ptr + a.size ≤ hdrp p ∨
        p + getSize h'.mem (hdrp p) ≤ a.ptr) := by
  obtain ⟨bs, hs, -, -, hf⟩ := plain_of_reaches halign h
  refine ⟨hf, ?_, ?_, ?_⟩
  · intro n s' hn hstep a ha
    obtain ⟨h', p, hm, ⟨rfl, rfl⟩ | ⟨hp, rfl⟩⟩ := Session.step_malloc.mp hstep
    · obtain rfl := mmMalloc_null hs.wellFormed hn hm
      exact ⟨ha, fun _ _ => rfl⟩
    · obtain ⟨bs', he, -, hfresh, -⟩ := hs.malloc hn hp hm
      exact ⟨List.mem_cons_of_mem _ ha, fun i hi => hs.payload_eq he ha (hfresh a ha) hi⟩
  · intro p s' hstep a ha hap
    obtain ⟨b, hp, rfl⟩ := Session.step_free.mp hstep
    obtain ⟨bs', he, -⟩ := hs.free hp
    exact ⟨Session.mem_others.mpr ⟨ha, hap⟩, fun i hi => hs.payload_eq he ha hap hi⟩
  · intro n h' p hn hm hp
    obtain ⟨bs', he, hs', hfresh, ⟨k, hk, hocc⟩, -⟩ := hs.malloc hn hp hm
    obtain ⟨b, hb, -, -, rfl⟩ := id hocc
    rw [(hs'.wellFormed.blockAt hb).getSize_hdrp]
    refine ⟨hk, fun a ha => ?_⟩
    obtain ⟨j, hj, hja⟩ := hs'.room a (List.mem_cons_of_mem _ ha)
    have hdisj := hja.disjoint hocc (hfresh a ha)
    simp only [hdrp, wsize]
    omega

theorem payloads_after_write : ∃ s, run Session.step (Session.begin (fun _ => 0) 4096)
    [.malloc 16, .write 4112 3 7, .malloc 40, .free 4136] = some s ∧ Faithful s := by
  have hk : run Sketch.step (Sketch.begin 4096)
      [.malloc 16, .write 4112 3 7, .malloc 40, .free 4136] =
      some ⟨⟨4096, [Block.prologue, ⟨24, true, false, rfl⟩, ⟨4072, false, false, rfl⟩,
        Block.epilogue false], 4136⟩, [(4112, 16)]⟩ := by decide
  obtain ⟨s, hrun, -⟩ := (Shows.begin _ (by decide)).run hk
  exact ⟨s, hrun, (payloads_of_reaches (by decide)
    (reaches_of_run (by simp [Call.Plain]) hrun)).1⟩

/-! ### Runs with `mm_realloc` -/

/-- The payload ranges of the live allocations are aligned, disjoint and inside the heap. -/
def Session.Separate (s : Session) : Prop :=
  (∀ a ∈ s.live, a.ptr % 8 = 0 ∧ ∀ x, a.ptr ≤ x → x < a.ptr + a.size →
    memHeapLo s.heap ≤ x ∧ x ≤ memHeapHi s.heap) ∧
  s.live.Pairwise fun a b => a.ptr + a.size ≤ b.ptr ∨ b.ptr + b.size ≤ a.ptr

/-- The roving pointer is the start of a block that a walk over the heap finds, its header is not
part of a live payload, and no search ends inside a live payload. -/
def Session.Roving (s : Session) : Prop :=
  (∃ b, (s.heap.currentBlock, b) ∈ blockList s.heap ∧ b.size ≠ 0) ∧
  (∀ a ∈ s.live, ∀ x, hdrp s.heap.currentBlock ≤ x → x < s.heap.currentBlock →
    ¬(a.ptr ≤ x ∧ x < a.ptr + a.size)) ∧
  ∀ asize h' q, findFit s.heap asize = some (h', q) → ∀ a ∈ s.live,
    ¬(a.ptr ≤ q ∧ q < a.ptr + a.size)

/-- Of two adjacent free blocks the left one carries the tag. -/
def Session.Coalesced (s : Session) : Prop :=
  (blockList s.heap).IsChain fun q r => KeptApart q.2 r.2

lemma Sound.separate (hs : Sound s bs) : s.Separate := by
  constructor
  · intro a ha
    obtain ⟨k, hk, hocc⟩ := hs.room a ha
    obtain ⟨hmod, hlo, hhi, -⟩ := hs.wellFormed.occupied_bounds hocc
    have hlistp := hs.wellFormed.listp
    refine ⟨hmod, fun x h1 h2 => ?_⟩
    unfold memHeapLo memHeapHi
    omega
  · have hne := List.pairwise_map.mp hs.nodup
    refine List.Pairwise.imp_of_mem ?_ hne
    intro a b ha hb hab
    obtain ⟨k, hk, hocc⟩ := hs.room a ha
    obtain ⟨j, hj, hocc'⟩ := hs.room b hb
    rcases hocc.disjoint hocc' hab with hd | hd <;> omega

lemma Sound.roving (hs : Sound s bs) : s.Roving := by
  have hw := hs.wellFormed
  have hlistp := hw.listp
  obtain ⟨b, hb, hne⟩ := hw.current
  have hlo := le_of_mem_placed hb
  refine ⟨⟨b, hw.blockList_eq ▸ hb, hne⟩, ?_, ?_⟩
  · rintro a ha x h1 h2 ⟨h3, h4⟩
    obtain ⟨k, hk, hocc⟩ := hs.room a ha
    simp only [hdrp, wsize] at h1
    exact hocc.not_payload hw.framed hb (w := x) (Or.inl ⟨h1, h2⟩) (by omega) ⟨h3, by omega⟩
  · rintro asize h' q hfind a ha ⟨h1, h2⟩
    obtain ⟨k, hk, hocc⟩ := hs.room a ha
    rw [findFit_seek hw] at hfind
    obtain ⟨-, rfl⟩ := Prod.mk.inj (Option.some.inj hfind)
    have hbounds := hw.occupied_bounds hocc
    cases hf : (seek asize s.heap.heapListp bs s.heap.currentBlock).1 with
    | none =>
      rw [hf] at h1
      simp only [Option.map_none, Option.getD_none, null] at h1
      omega
    | some q =>
      -- the block found is free, and it does not overlap an allocated one
      obtain ⟨x, c⟩ := q
      obtain ⟨hc, hfit⟩ := seek_some hf
      rw [hf] at h1 h2
      simp only [Option.map_some, Option.getD_some] at h1 h2
      simp only [Block.fits, Bool.and_eq_true, decide_eq_true_eq, Bool.not_eq_true'] at hfit
      obtain ⟨d, hd, hda, hd16, rfl⟩ := hocc
      rcases Nat.lt_or_ge a.ptr x with hlt | hge
      · have := placed_disjoint hd hc hlt
        omega
      · obtain rfl : a.ptr = x := le_antisymm h1 hge
        obtain ⟨pre, post, rfl, -⟩ := mem_placed_iff.mp hc
        have hne := hw.framed.ne_nil_of_free hfit.1.2
        have hc16 := hw.framed.ordinary hne.1 hne.2
        obtain rfl := placed_inj hd hc (by omega) (by omega)
        rw [hda] at hfit
        exact absurd hfit.1.2 (by simp)

/-- Live payloads stay apart along every run whose calls of `mm_realloc` are safe. -/
theorem separate_of_reaches (halign : start % 8 = 0)
    (h : Reaches Session.step (fun s c => c.InRange ∧ c.Safe s) (Session.begin mem start) s) :
    s.Separate := by
  have hrun : Reaches Session.step (fun s c => c.NoWrap ∧ c.Safe s) (Session.begin mem start) s :=
    h.mono fun s c hc => ⟨hc.1.noWrap, hc.2⟩
  obtain ⟨bs, hs⟩ := sound_of_reaches halign hrun
  exact hs.separate

/-- A block is slid down and reserves the one behind it, which is freed. The block behind that one
is joined with the rest of the heap. -/
def slideThenFree : List Call :=
  [.malloc 200, .malloc 200, .malloc 200, .malloc 200, .free 4112, .realloc 4320 100, .free 4528,
    .free 4736]

lemma slideThenFree_run : ∃ s,
    Permitted Session.step (fun s c => c.NoWrap ∧ c.Safe s ∧ c.JoinsAll s)
      (Session.begin (fun _ => 0) 4096) slideThenFree ∧
    run Session.step (Session.begin (fun _ => 0) 4096) slideThenFree = some s ∧
    blockList s.heap = [(4104, Block.prologue), (4112, ⟨416, true, false, rfl⟩),
      (4528, ⟨208, false, true, rfl⟩), (4736, ⟨3472, false, false, rfl⟩),
      (8208, Block.epilogue false)] := by
  have hk : run Sketch.join (Sketch.begin 4096) slideThenFree =
      some ⟨⟨4096, [Block.prologue, ⟨416, true, false, rfl⟩, ⟨208, false, true, rfl⟩,
        ⟨3472, false, false, rfl⟩, Block.epilogue false], 4736⟩, [(4112, 100)]⟩ := by
    decide +kernel
  obtain ⟨hguard, s, hrun, hs⟩ := (Shows.begin (fun _ => 0) (by decide)).join_run hk
  exact ⟨s, hguard, hrun, hs.refines.blockList_eq⟩

theorem separate_after_realloc : ∃ s,
    run Session.step (Session.begin (fun _ => 0) 4096) slideThenFree = some s ∧ s.Separate := by
  obtain ⟨s, hguard, hrun, -⟩ := slideThenFree_run
  have hrange : ∀ c ∈ slideThenFree, c.InRange := by simp [slideThenFree, Call.InRange, maxHeap]
  refine ⟨s, hrun, separate_of_reaches (by decide) (reaches_of_permitted ?_ hrun)⟩
  exact hguard.mono fun c hc u hu => ⟨hrange c hc, hu.2.1⟩

/-- A block in front of a free block grows by the bytes at the end of the heap, over the live block
in between. -/
theorem realloc_not_separate : ∃ s, run Session.step (Session.begin (fun _ => 0) 4096)
    [.malloc 16, .malloc 16, .malloc 16, .free 4136, .realloc 4112 5000] = some s ∧
      s.live.map (fun a => (a.ptr, a.size)) = [(4112, 5000), (4160, 16)] ∧ ¬s.Separate := by
  have hk : run Sketch.step (Sketch.begin 4096) [.malloc 16, .malloc 16, .malloc 16, .free 4136] =
      some ⟨⟨4096, [Block.prologue, ⟨24, true, false, rfl⟩, ⟨24, false, false, rfl⟩,
        ⟨24, true, false, rfl⟩, ⟨4024, false, false, rfl⟩, Block.epilogue false], 4160⟩,
        [(4160, 16), (4112, 16)]⟩ := by decide
  obtain ⟨s, hrun, hs⟩ := (Shows.begin _ (by decide)).run hk
  have hw : WellFormedAs s.heap ([] ++ Block.prologue :: ⟨24, true, false, rfl⟩ ::
      ⟨24, false, false, rfl⟩ :: [⟨24, true, false, rfl⟩, ⟨4024, false, false, rfl⟩,
        Block.epilogue false]) := hs.refines.toWellFormedAs
  have hx : 4112 = s.heap.heapListp + extent Block.size [] + Block.prologue.size := by
    rw [hs.refines.first]
    rfl
  have hbrk : s.heap.memBrk = 8208 := hs.refines.brk_eq
  have hmax : s.heap.memMaxAddr = 4096 + maxHeap := by
    rw [hw.maxAddr, hs.refines.start]
  have hbody : bodySize 5000 = 5136 := by decide
  obtain ⟨h', hm⟩ := mmRealloc_extends (n := 5000) hw rfl hx (by decide) (by decide)
    (by rw [hbody]; decide) (by rw [hbody, hbrk, hmax]; decide)
  obtain ⟨s', hrun', -, hlive⟩ := hs.run_realloc (a := (4112, 16)) hrun rfl hm (by decide)
  refine ⟨s', hrun', hlive, ?_⟩
  rintro ⟨-, hpair⟩
  have hpair' : (s'.live.map fun a => (a.ptr, a.size)).Pairwise
      fun a b => a.1 + a.2 ≤ b.1 ∨ b.1 + b.2 ≤ a.1 := List.pairwise_map.mpr hpair
  rw [hlive] at hpair'
  exact absurd hpair' (by decide)

/-- The roving pointer stays on the block list along every run whose calls of `mm_realloc` are
safe. -/
theorem roving_of_reaches (halign : start % 8 = 0)
    (h : Reaches Session.step (fun s c => c.NoWrap ∧ c.Safe s) (Session.begin mem start) s) :
    s.Roving := by
  obtain ⟨bs, hs⟩ := sound_of_reaches halign h
  exact hs.roving

theorem roving_after_realloc : ∃ s,
    run Session.step (Session.begin (fun _ => 0) 4096) slideThenFree = some s ∧ s.Roving := by
  obtain ⟨s, hguard, hrun, -⟩ := slideThenFree_run
  refine ⟨s, hrun, roving_of_reaches (by decide) (reaches_of_permitted ?_ hrun)⟩
  exact hguard.mono fun c _ u hu => ⟨hu.1, hu.2.1⟩

/-- A block absorbs the free block that the roving pointer is at, and the pointer stays. -/
theorem realloc_not_roving : ∃ s, run Session.step (Session.begin (fun _ => 0) 4096)
    [.malloc 16, .malloc 16, .free 4136, .realloc 4112 100] = some s ∧
      s.heap.currentBlock = 4136 ∧ (blockList s.heap).map Prod.fst = [4104, 4112, 8208] ∧
        ¬s.Roving := by
  have hk : run Sketch.step (Sketch.begin 4096) [.malloc 16, .malloc 16, .free 4136] =
      some ⟨⟨4096, [Block.prologue, ⟨24, true, false, rfl⟩, ⟨4072, false, false, rfl⟩,
        Block.epilogue false], 4136⟩, [(4112, 16)]⟩ := by decide
  obtain ⟨s, hrun, hs⟩ := (Shows.begin _ (by decide)).run hk
  have ht : Tiled s.heap ([] ++ Block.prologue :: ⟨24, true, false, rfl⟩ ::
      [⟨4072, false, false, rfl⟩] ++ [Block.epilogue false]) := hs.refines.toTiled
  have hfirst : s.heap.heapListp = 4104 := hs.refines.first
  have hx : 4112 = s.heap.heapListp + extent Block.size [] + Block.prologue.size := by
    rw [hfirst]
    rfl
  have hbody : bodySize 100 = 240 := by decide
  obtain ⟨h', bs', hm, ht', hlistp, hcur, hsizes⟩ := mmRealloc_absorbs (n := 100) ht
    (by rw [hbody]; rfl) (by simp) hx (by decide) (by decide) (by rw [hbody]; decide)
    (by rw [hbody]; decide)
  obtain ⟨s', hrun', rfl, -⟩ := hs.run_realloc (a := (4112, 16)) hrun rfl hm (by decide)
  have hstarts : (blockList s'.heap).map Prod.fst = [4104, 4112, 8208] := by
    rw [ht'.blockList_eq, hlistp, hfirst]
    have hfst : (placed Block.size 4104 bs').map Prod.fst =
        (placed id 4104 (bs'.map Block.size)).map Prod.fst := by
      rw [placed_map_len, List.map_map]
      rfl
    rw [hfst, hsizes]
    decide
  have hroving : s'.heap.currentBlock = 4136 := hcur.trans hs.refines.roving
  refine ⟨s', hrun', hroving, hstarts, ?_⟩
  rintro ⟨⟨b, hb, -⟩, -⟩
  have hmem := List.mem_map_of_mem (f := Prod.fst) hb
  rw [hstarts, hroving] at hmem
  simp at hmem

/-- Adjacent free blocks are kept apart by a tag along every run whose calls of `mm_realloc` are
safe and whose calls of `mm_free` find no second free block behind the first. -/
theorem coalesced_of_reaches (halign : start % 8 = 0)
    (h : Reaches Session.step (fun s c => c.NoWrap ∧ c.Safe s ∧ c.JoinsAll s)
      (Session.begin mem start) s) : s.Coalesced := by
  obtain ⟨bs, hs, hk⟩ := keptApart_of_reaches halign h
  rw [Session.Coalesced, hs.wellFormed.blockList_eq]
  exact (isChain_placed _).mpr hk

/-- Two free blocks stay side by side, and the left one has the tag. -/
theorem coalesced_after_frees : ∃ s,
    run Session.step (Session.begin (fun _ => 0) 4096) slideThenFree = some s ∧
    blockList s.heap = [(4104, Block.prologue), (4112, ⟨416, true, false, rfl⟩),
      (4528, ⟨208, false, true, rfl⟩), (4736, ⟨3472, false, false, rfl⟩),
      (8208, Block.epilogue false)] ∧ s.Coalesced := by
  obtain ⟨s, hguard, hrun, hblocks⟩ := slideThenFree_run
  exact ⟨s, hrun, hblocks, coalesced_of_reaches (by decide) (reaches_of_permitted hguard hrun)⟩

/-- The block that was reserved for its left neighbour is freed first, and the one behind it is not
joined with it. Freeing the left neighbour clears the tag and joins only one of the two. -/
theorem free_not_coalesced : ∃ s, run Session.step (Session.begin (fun _ => 0) 4096)
    [.malloc 200, .malloc 16, .malloc 16, .realloc 4112 1, .free 4320, .free 4344, .free 4112] =
      some s ∧ blockList s.heap = [(4104, Block.prologue), (4112, ⟨232, false, false, rfl⟩),
        (4344, ⟨3864, false, false, rfl⟩), (8208, Block.epilogue false)] ∧ ¬s.Coalesced := by
  have hk : run Sketch.step (Sketch.begin 4096) [.malloc 200, .malloc 16, .malloc 16,
      .realloc 4112 1, .free 4320, .free 4344, .free 4112] =
      some ⟨⟨4096, [Block.prologue, ⟨232, false, false, rfl⟩, ⟨3864, false, false, rfl⟩,
        Block.epilogue false], 4344⟩, []⟩ := by decide
  obtain ⟨s, hrun, hs⟩ := (Shows.begin _ (by decide)).run hk
  refine ⟨s, hrun, hs.refines.blockList_eq, ?_⟩
  rw [Session.Coalesced, hs.refines.blockList_eq, isChain_placed]
  intro hchain
  have hkept : KeptApart ⟨232, false, false, rfl⟩ ⟨3864, false, false, rfl⟩ := by
    simp only [List.isChain_cons] at hchain
    simpa using hchain.2.1
  exact absurd (hkept rfl rfl) (by decide)

end SystemsLabs.Malloc
