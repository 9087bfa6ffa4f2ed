import SystemsLabs.Malloc.Replay
import SystemsLabs.Malloc.Twins

/-!
# The verdict of the driver on `mm.c`

A replay on the abstract allocator: an outline, the live indices and the table of the trace. For
traces that respect the allocator the check of the driver ends as this replay does, so its verdict
does not depend on memory, and the two other replays hand out the same blocks.
-/

namespace SystemsLabs.Malloc
open Library

/-! ### The abstract replay -/

structure Plan where
  outline : Outline
  live : List ℕ
  table : Table

namespace Plan

def begin (start : ℕ) (t : Table) : Plan := ⟨Outline.init start, [], t⟩

/-- The outline is now `o`, and index `i` has a block of `n` bytes at `p`. -/
def put (k : Plan) (o : Outline) (i p n : ℕ) : Plan :=
  ⟨o, i :: k.live.filter (· ≠ i), k.table.remember i p n⟩

/-- One request. A byte of 128 or more reads as a negative `char`, so for such an index the check
of the data that a reallocation keeps always fails. -/
def step (k : Plan) : TraceOp → Except Halt Plan
  | .alloc i n =>
    let r := k.outline.malloc n
    if r.2 = null then .error (.reported .mmMallocFailed) else .ok (k.put r.1 i r.2 n)
  | .realloc i n =>
    match k.outline.realloc (k.table.blocks i) n with
    | none => .error .fault
    | some r =>
      if r.2 = null then .error (.reported .mmReallocFailed)
      else if 128 ≤ i &&& 0xFF then .error (.reported .dataNotPreserved)
      else .ok (k.put r.1 i r.2 n)
  | .free i => .ok ⟨k.outline.free (k.table.blocks i), k.live.filter (· ≠ i), k.table⟩

/-- The request fits the live indices, its size does not wrap and a reallocation is safe. -/
def Accepts (k : Plan) : TraceOp → Prop
  | .alloc i n => i ∉ k.live ∧ n + 15 + padding < 2 ^ 31
  | .realloc i n => i ∈ k.live ∧ n + 15 + padding < 2 ^ 31 ∧
      (n = 0 ∨ k.outline.Spares (k.table.blocks i) n)
  | .free i => i ∈ k.live

instance (k : Plan) : (op : TraceOp) → Decidable (k.Accepts op)
  | .alloc i n => inferInstanceAs (Decidable (i ∉ k.live ∧ n + 15 + padding < 2 ^ 31))
  | .realloc i n => inferInstanceAs (Decidable (i ∈ k.live ∧ n + 15 + padding < 2 ^ 31 ∧
      (n = 0 ∨ k.outline.Spares (k.table.blocks i) n)))
  | .free i => inferInstanceAs (Decidable (i ∈ k.live))

/-- All requests of the trace are accepted, up to the first that stops the replay. -/
def Lawful (k : Plan) : List TraceOp → Prop
  | [] => True
  | op :: ops => k.Accepts op ∧
    match k.step op with
    | .ok k' => k'.Lawful ops
    | .error _ => True

instance decidableLawful : (k : Plan) → (ops : List TraceOp) → Decidable (k.Lawful ops)
  | _, [] => isTrue trivial
  | k, op :: ops =>
    have : Decidable (match k.step op with
        | .ok k' => k'.Lawful ops
        | .error _ => True) :=
      match k.step op with
      | .ok k' => decidableLawful k' ops
      | .error _ => isTrue trivial
    inferInstanceAs (Decidable (k.Accepts op ∧ _))

end Plan

/-- Two replays end alike: with the same error, or in related states. -/
inductive EndAlike {ε σ τ : Type} (R : σ → τ → Prop) : Except ε σ → Except ε τ → Prop
  | error (e : ε) : EndAlike R (.error e) (.error e)
  | ok {s : σ} {k : τ} (h : R s k) : EndAlike R (.ok s) (.ok k)

section EndAlike

variable {ε σ τ : Type} {R : σ → τ → Prop} {y : Except ε τ} {s : σ}

lemma EndAlike.right_ok (h : EndAlike R (.ok s) y) : ∃ k, y = .ok k ∧ R s k := by
  cases h with
  | ok h => exact ⟨_, rfl, h⟩

end EndAlike

section Lawful

variable {σ : Type} {R : σ → Plan → Prop} {step : σ → TraceOp → Except Halt σ} {s : σ} {k k' : Plan}
  {ops : List TraceOp} {i : ℕ}

/-- A replay that agrees with the abstract one on every accepted request ends alike. -/
theorem Plan.Lawful.endAlike
    (hstep : ∀ s k op, R s k → k.Accepts op → EndAlike R (step s op) (k.step op)) (hr : R s k)
    (hl : k.Lawful ops) : EndAlike R (interpret step i s ops) (interpret Plan.step i k ops) := by
  induction ops generalizing i s k with
  | nil => exact .ok hr
  | cons op ops ih =>
    obtain ⟨haccept, hrest⟩ := hl
    have hop := hstep s k op hr haccept
    rw [interpret, interpret]
    generalize step s op = x at hop
    generalize k.step op = y at hop hrest
    cases hop with
    | error e => exact .error _
    | ok h => exact ih h hrest

/-- A replay that follows the abstract one wherever that one goes on passes where that one does. -/
theorem Plan.Lawful.follow
    (hstep : ∀ s k op k', R s k → k.Accepts op → k.step op = .ok k' → ∃ s', step s op = .ok s' ∧ R s' k')
    (hr : R s k) (hl : k.Lawful ops) (h : interpret Plan.step i k ops = .ok k') :
    ∃ s', interpret step i s ops = .ok s' ∧ R s' k' := by
  induction ops generalizing i s k with
  | nil =>
    obtain rfl := Except.ok.inj h
    exact ⟨s, rfl, hr⟩
  | cons op ops ih =>
    obtain ⟨u, hu, hinterpret⟩ := interpret_cons.mp h
    obtain ⟨haccept, hrest⟩ := hl
    rw [hu] at hrest
    obtain ⟨s', hs', hr'⟩ := hstep s k op u hr haccept hu
    obtain ⟨t, ht, hrt⟩ := ih hr' hrest hinterpret
    exact ⟨t, interpret_cons.mpr ⟨s', hs', ht⟩, hrt⟩

end Lawful

/-! ### What the heap holds -/

/-- The allocation of index `i`. -/
def Table.allocation (t : Table) (i : ℕ) : Allocation := ⟨t.blocks i, t.blockSizes i, fun _ => none⟩

/-- The payloads of the indices are the same in both memories. -/
def Table.Kept (t : Table) (is : List ℕ) (m m' : Memory) : Prop :=
  ∀ j ∈ is, ∀ x < t.blockSizes j, m' (t.blocks j + x) = m (t.blocks j + x)

/-- The payloads of the indices hold their low bytes. -/
def Table.Filled (t : Table) (is : List ℕ) (m : Memory) : Prop :=
  ∀ j ∈ is, ∀ x < t.blockSizes j, m (t.blocks j + x) = BitVec.ofNat 8 (j &&& 0xFF)

/-- The heap shows the outline, and the blocks of the live indices are its allocated blocks. -/
structure Follows (h : Heap) (k : Plan) : Prop where
  sound : Sound ⟨h, k.live.map k.table.allocation⟩ k.outline.blocks
  refines : Refines h k.outline

section Follows

variable {h h' : Heap} {k : Plan} {o : Outline} {i j p n v : ℕ} {m : Memory}

lemma Table.allocation_remember (t : Table) (is : List ℕ) (i p n : ℕ) :
    (i :: is.filter (· ≠ i)).map (t.remember i p n).allocation =
      ⟨p, n, fun _ => none⟩ :: (is.filter (· ≠ i)).map t.allocation := by
  rw [List.map_cons]
  congr 1
  · simp [Table.allocation, Table.remember]
  · apply List.map_congr_left
    intro j hj
    have hne : j ≠ i := by simpa using (List.mem_filter.mp hj).2
    simp [Table.allocation, Table.remember, hne]

lemma Follows.injective (hf : Follows h k) (hi : i ∈ k.live) (hj : j ∈ k.live)
    (heq : k.table.blocks j = k.table.blocks i) : j = i := by
  have hnodup := hf.sound.nodup
  rw [List.map_map] at hnodup
  exact List.inj_on_of_nodup_map hnodup hj hi heq

lemma Follows.nodup (hf : Follows h k) : k.live.Nodup := by
  have hnodup := hf.sound.nodup
  rw [List.map_map] at hnodup
  exact hnodup.of_map _

lemma Follows.find (hf : Follows h k) (hi : i ∈ k.live) :
    Session.find ⟨h, k.live.map k.table.allocation⟩ (k.table.blocks i) =
      some (k.table.allocation i) := by
  obtain ⟨a, ha⟩ : ∃ a, Session.find ⟨h, k.live.map k.table.allocation⟩ (k.table.blocks i) = some a :=
    Option.isSome_iff_exists.mp (List.find?_isSome.mpr
      ⟨k.table.allocation i, List.mem_map_of_mem hi, decide_eq_true rfl⟩)
  obtain ⟨hmem, hptr⟩ := Session.find_eq ha
  obtain ⟨j, hj, rfl⟩ := List.mem_map.mp hmem
  rw [ha, hf.injective hi hj hptr]

lemma Follows.others (hf : Follows h k) (hi : i ∈ k.live) :
    Session.others ⟨h, k.live.map k.table.allocation⟩ (k.table.blocks i) =
      (k.live.filter (· ≠ i)).map k.table.allocation := by
  rw [Session.others, List.filter_map]
  congr 1
  apply List.filter_congr
  intro j hj
  simp only [Function.comp_apply, Table.allocation]
  exact decide_eq_decide.mpr (not_congr ⟨fun heq => hf.injective hi hj heq, fun heq => by rw [heq]⟩)

lemma Follows.occupied (hf : Follows h k) (hi : i ∈ k.live) :
    ∃ j, k.table.blockSizes i + 8 ≤ j ∧
      Occupied k.outline.first k.outline.blocks (k.table.blocks i) j := by
  obtain ⟨j, hj, hocc⟩ := hf.sound.room _ (List.mem_map_of_mem hi)
  exact ⟨j, hj, hf.refines.first ▸ hocc⟩

/-- The payloads outside of `S` are kept. -/
lemma Follows.kept {S : Set ℕ} {bs' : List Block} (hf : Follows h k)
    (he : Evolves S h k.outline.blocks h' bs') {is : List ℕ}
    (his : ∀ j ∈ is, j ∈ k.live ∧ k.table.blocks j ∉ S) : k.table.Kept is h.mem h'.mem := by
  intro j hj x hx
  obtain ⟨hlive, hS⟩ := his j hj
  exact hf.sound.payload_eq he (List.mem_map_of_mem hlive) hS hx

lemma memHeapsize_le {S : Set ℕ} {bs bs' : List Block} (he : Evolves S h bs h' bs') :
    memHeapsize h ≤ memHeapsize h' := by
  have hstart := he.start
  have hbrk := he.brk
  simp only [memHeapsize]
  omega

/-- A new block of the package for index `i`. -/
lemma Follows.put {bs : List Block} (hs : Sound ⟨h, ⟨p, n, fun _ => none⟩ ::
      (k.live.filter (· ≠ i)).map k.table.allocation⟩ bs) (hr : Refines h o) :
    Follows h (k.put o i p n) := by
  obtain rfl := hr.toTiled.unique hs.wellFormed.toTiled
  refine ⟨?_, hr⟩
  rw [Plan.put, Table.allocation_remember]
  exact hs

/-- Filling the block of a live index keeps everything but its payload. -/
lemma Follows.fill (hf : Follows h k) (hi : i ∈ k.live) (v : ℕ) :
    let m := memset h.mem (k.table.blocks i) v (k.table.blockSizes i)
    Follows { h with mem := m } k ∧ k.table.Kept (k.live.filter (· ≠ i)) h.mem m := by
  intro m
  obtain ⟨j, hj, hocc⟩ := hf.occupied hi
  rw [← hf.refines.first] at hocc
  have hag : AgreeOutside (k.table.blocks i) (k.table.blocks i + j - 8) h.mem m :=
    fun x hx => memset_apply_of_disjoint (by omega)
  obtain ⟨hw, hframe⟩ := hf.refines.toWellFormedAs.writePayload hocc hag
  refine ⟨⟨⟨hw, hf.sound.nodup, hf.sound.room, hf.sound.complete⟩, hw, hf.refines.start,
    hf.refines.roving⟩, ?_⟩
  have he : Evolves {k.table.blocks i} h k.outline.blocks { h with mem := m } k.outline.blocks :=
    ⟨rfl, le_rfl, rfl, hframe, hw⟩
  refine hf.kept he fun j hj => ?_
  obtain ⟨hlive, hne⟩ := List.mem_filter.mp hj
  exact ⟨hlive, fun heq => of_decide_eq_true hne (hf.injective hi hlive heq)⟩

/-! ### The calls -/

lemma Follows.begin {h : Heap} (halign : h.memStartBrk % 8 = 0) (hbrk : h.memBrk = h.memStartBrk)
    (hmax : h.memMaxAddr = h.memStartBrk + maxHeap) (t : Table) :
    (mmInit h).2 = 0 ∧ Follows (mmInit h).1 (Plan.begin h.memStartBrk t) := by
  obtain ⟨hcode, hr⟩ := mmInit_refines halign hbrk hmax
  refine ⟨hcode, ⟨hr.toWellFormedAs, List.nodup_nil, by simp [Plan.begin], ?_⟩, hr⟩
  rintro y j ⟨b, hb, -, hsize, -⟩
  have hmem := mem_of_mem_placed hb
  simp only [Plan.begin, Outline.init, List.mem_cons, List.not_mem_nil, or_false] at hmem
  rcases hmem with rfl | rfl <;> simp at hsize

/-- Nothing is allocated for no bytes. -/
lemma Outline.pos_of_malloc {o : Outline} (hp : (o.malloc n).2 ≠ null) : 0 < n := by
  by_contra hn
  exact hp (by rw [Outline.malloc, if_pos (by omega)])

lemma Outline.pos_of_realloc {o : Outline} {x : ℕ} {r : Outline × ℕ} (h : o.realloc x n = some r)
    (hr : r.2 ≠ null) : 0 < n := by
  by_contra hn
  rw [Outline.realloc, if_pos (by omega)] at h
  obtain rfl := Option.some.inj h
  exact hr rfl

lemma Follows.malloc (hf : Follows h k) (ha : k.Accepts (.alloc i n)) :
    mmMalloc h n = some (h, null) ∧ (k.outline.malloc n).2 = null ∨
      ∃ h', mmMalloc h n = some (h', (k.outline.malloc n).2) ∧ (k.outline.malloc n).2 ≠ null ∧
        Follows h' (k.put (k.outline.malloc n).1 i (k.outline.malloc n).2 n) ∧
        memHeapsize h ≤ memHeapsize h' ∧ k.table.Kept (k.live.filter (· ≠ i)) h.mem h'.mem := by
  obtain ⟨hi, hn⟩ := ha
  have hn : n + 15 < 2 ^ 32 := by omega
  obtain ⟨h', hm, hr⟩ := mmMalloc_refines hf.refines hn
  generalize k.outline.malloc n = r at *
  by_cases hp : r.2 = null
  · rw [hp] at hm
    obtain rfl := mmMalloc_null hf.refines.toWellFormedAs hn hm
    exact Or.inl ⟨hm, hp⟩
  obtain ⟨bs', he, hs', hfresh, -⟩ := hf.sound.malloc hn hp hm
  have hall : k.live.filter (· ≠ i) = k.live :=
    List.filter_eq_self.mpr fun j hj => decide_eq_true (by rintro rfl; exact hi hj)
  refine Or.inr ⟨h', hm, hp, Follows.put (by rwa [hall]) hr, memHeapsize_le he, ?_⟩
  rw [hall]
  exact hf.kept he fun j hj => ⟨hj, hfresh _ (List.mem_map_of_mem hj)⟩

lemma Follows.free (hf : Follows h k) (hi : i ∈ k.live) :
    Follows (mmFree h (k.table.blocks i))
        ⟨k.outline.free (k.table.blocks i), k.live.filter (· ≠ i), k.table⟩ ∧
      memHeapsize h ≤ memHeapsize (mmFree h (k.table.blocks i)) ∧
      k.table.Kept (k.live.filter (· ≠ i)) h.mem (mmFree h (k.table.blocks i)).mem := by
  obtain ⟨j, -, hocc⟩ := hf.occupied hi
  have hr := mmFree_refines hf.refines hocc
  obtain ⟨bs', he, hs', -⟩ := hf.sound.free (hf.find hi)
  rw [hf.others hi] at hs'
  obtain rfl := hr.toTiled.unique hs'.wellFormed.toTiled
  refine ⟨⟨hs', hr⟩, memHeapsize_le he, hf.kept he fun j hj => ?_⟩
  obtain ⟨hlive, hne⟩ := List.mem_filter.mp hj
  exact ⟨hlive, fun heq => of_decide_eq_true hne (hf.injective hi hlive heq)⟩

lemma Follows.realloc (hf : Follows h k) (ha : k.Accepts (.realloc i n)) :
    mmRealloc h (k.table.blocks i) n = none ∧ k.outline.realloc (k.table.blocks i) n = none ∨
      ∃ h' r, mmRealloc h (k.table.blocks i) n = some (h', r.2) ∧
        k.outline.realloc (k.table.blocks i) n = some r ∧ (r.2 = null ∨ r.2 ≠ null ∧
          Follows h' (k.put r.1 i r.2 n) ∧ memHeapsize h ≤ memHeapsize h' ∧
          k.table.Kept (k.live.filter (· ≠ i)) h.mem h'.mem ∧
          ∀ x < min n (k.table.blockSizes i), h'.mem (r.2 + x) = h.mem (k.table.blocks i + x)) := by
  obtain ⟨hi, hn, hspares⟩ := ha
  obtain ⟨j, hj, hocc⟩ := hf.occupied hi
  rcases mmRealloc_outline hf.refines hocc hn hspares with hfault | ⟨h', o, q, hm, ho, hr⟩
  · exact Or.inl hfault
  refine Or.inr ⟨h', (o, q), hm, ho, ?_⟩
  by_cases hq : q = null
  · exact Or.inl hq
  have hn0 : 0 < n := Outline.pos_of_realloc ho hq
  replace hspares := hspares.resolve_left hn0.ne'
  have hsafe := (hf.refines.reallocSafe_iff hocc).mpr hspares
  have hx := hf.refines.first ▸ hocc
  obtain ⟨bs', -, hs', -⟩ := (hf.sound.realloc (w := fun _ => none) (hf.find hi) hn (Or.inr hsafe)
    hm).resolve_left fun hno => hq hno.1
  rw [hf.others hi] at hs'
  rcases mmRealloc_spec hf.refines.toWellFormedAs hx (by omega) hn hsafe with
    hfault | hnull | ⟨h₁, q₁, bs₁, heq, -, he⟩
  · rw [hfault] at hm
    cases hm
  · rw [hnull] at hm
    exact absurd (Prod.mk.inj (Option.some.inj hm)).2.symm hq
  rw [heq] at hm
  obtain ⟨rfl, rfl⟩ := Prod.mk.inj (Option.some.inj hm)
  refine Or.inr ⟨hq, Follows.put hs' hr, memHeapsize_le he.toEvolves, hf.kept he.toEvolves ?_, ?_⟩
  · intro l hl
    obtain ⟨hlive, hne⟩ := List.mem_filter.mp hl
    have hli : k.table.blocks l ≠ k.table.blocks i :=
      fun heq => of_decide_eq_true hne (hf.injective hi hlive heq)
    refine ⟨hlive, ?_⟩
    rintro (heq | heq)
    · exact hli heq
    · -- the new block is not one of the other live ones
      obtain ⟨c, -, hc⟩ := hf.occupied hlive
      rw [Set.mem_singleton_iff] at heq
      exact (he.moved fun hqx => hli (heq.trans hqx)).2 c (heq ▸ hf.refines.first.symm ▸ hc)
  · exact mmRealloc_carries hf.refines.toWellFormedAs hx (by omega) hn (by omega) (by omega) heq hq

end Follows

/-! ### The correctness check -/

/-- What the check of the driver keeps: the range list records the live payloads, and these hold
the low bytes of their indices. -/
structure Checks (s : ValidState) (k : Plan) : Prop where
  follows : Follows s.heap k
  table : s.table = k.table
  ranges : s.ranges = k.live.map k.table.payload
  filled : k.table.Filled k.live s.heap.mem
  pos : ∀ i ∈ k.live, 0 < k.table.blockSizes i

section Checks

variable {h h' : Heap} {k : Plan} {o : Outline} {i j p n v : ℕ} {s : ValidState} {t : Table}
  {ops : List TraceOp}

lemma toInt_byte (hv : v < 256) : (BitVec.ofNat 8 v).toInt = v ↔ v < 128 := by
  rw [BitVec.toInt_eq_toNat_cond, BitVec.toNat_ofNat]
  split <;> omega

/-- A block that the heap shows passes the tests of `add_range`. -/
lemma Follows.addRange (hf : Follows h (k.put o i p n)) (hn : 0 < n) :
    addRange h ((k.live.filter (· ≠ i)).map k.table.payload) p n =
      .ok (⟨p, p + n - 1⟩ :: (k.live.filter (· ≠ i)).map k.table.payload) := by
  have hi : i ∈ (k.put o i p n).live := List.mem_cons_self
  obtain ⟨c, hc, hocc⟩ := hf.occupied hi
  simp only [Plan.put, Table.remember, Function.update_self] at hc hocc
  obtain ⟨hmod, hlo, hhi, -⟩ := hf.refines.toTiled.occupied_bounds (hf.refines.first ▸ hocc)
  have hlistp := hf.refines.listp
  refine addRange_eq_ok.mpr ⟨hn, hmod, ?_, ?_, ?_, rfl⟩
  · simp only [memHeapLo]
    omega
  · simp only [memHeapHi]
    omega
  · intro r hr
    obtain ⟨l, hl, rfl⟩ := List.mem_map.mp hr
    have hne : l ≠ i := by simpa using (List.mem_filter.mp hl).2
    obtain ⟨d, hd, hoccl⟩ := hf.occupied (List.mem_cons_of_mem i hl)
    have hblocks : k.table.blocks l ≠ p := by
      intro heq
      refine hne (hf.injective hi (List.mem_cons_of_mem i hl) ?_)
      simpa [Plan.put, Table.remember, hne] using heq
    simp only [Plan.put, Table.remember, Function.update_of_ne hne] at hd hoccl
    have hdisjoint := hoccl.disjoint hocc hblocks
    simp only [Range.caughtBy, Table.payload]
    omega

/-- The driver records and fills a new block. -/
lemma Checks.put (hc : Checks s k) (hf : Follows h (k.put o i p n)) (hn : 0 < n)
    (hkept : k.table.Kept (k.live.filter (· ≠ i)) s.heap.mem h.mem) :
    Checks ⟨{ h with mem := memset h.mem p (i &&& 0xFF) n },
      ⟨p, p + n - 1⟩ :: (k.live.filter (· ≠ i)).map k.table.payload, k.table.remember i p n⟩
      (k.put o i p n) := by
  have hi : i ∈ (k.put o i p n).live := List.mem_cons_self
  have hne : ∀ j ∈ k.live.filter (· ≠ i), j ≠ i := fun j hj => by simpa using (List.mem_filter.mp hj).2
  obtain ⟨hf', hfill⟩ := hf.fill hi (i &&& 0xFF)
  simp only [Plan.put, Table.remember, Function.update_self] at hf' hfill
  refine ⟨hf', rfl, ?_, ?_, ?_⟩
  · rw [Plan.put, List.map_cons, Table.payload_remember_self, Table.map_payload_remember]
  · intro j hj x hx
    rcases List.mem_cons.mp hj with rfl | hj
    · simp only [Plan.put, Table.remember, Function.update_self] at hx ⊢
      exact memset_apply_of_mem hx
    · have hji := hne j hj
      have hmem := hfill j (List.mem_filter.mpr ⟨List.mem_cons_of_mem i hj, decide_eq_true hji⟩)
      simp only [Plan.put, Table.remember, Function.update_of_ne hji] at hmem hx ⊢
      rw [hmem x hx, hkept j hj x hx]
      exact hc.filled j (List.mem_filter.mp hj).1 x hx
  · intro j hj
    rcases List.mem_cons.mp hj with rfl | hj
    · simpa [Plan.put, Table.remember] using hn
    · simpa [Plan.put, Table.remember, hne j hj] using hc.pos j (List.mem_filter.mp hj).1

lemma Checks.remove (hc : Checks s k) (hi : i ∈ k.live) :
    removeRange s.ranges (k.table.blocks i) = (k.live.filter (· ≠ i)).map k.table.payload := by
  rw [hc.ranges]
  exact removeRange_map hc.follows.nodup hi fun j hj heq => hc.follows.injective hi hj heq

/-- One request of the check ends as it does on the abstract allocator. -/
theorem Checks.step {op : TraceOp} (hc : Checks s k) (ha : k.Accepts op) :
    EndAlike Checks (mm.validOp s op) (k.step op) := by
  cases op with
  | alloc i n =>
    simp only [Package.validOp, mm, Plan.step, hc.table]
    have hall : k.live.filter (· ≠ i) = k.live :=
      List.filter_eq_self.mpr fun j hj => decide_eq_true (by rintro rfl; exact ha.1 hj)
    rcases hc.follows.malloc ha with ⟨hm, hnull⟩ | ⟨h', hm, hp, hf, -, hkept⟩
    · simp only [hm, hnull, if_true]
      exact .error _
    · have hn := Outline.pos_of_malloc hp
      have hadd := hf.addRange hn
      rw [hall, ← hc.ranges] at hadd
      have hput := hc.put hf hn hkept
      rw [hall, ← hc.ranges] at hput
      simp only [hm, if_neg hp, hadd]
      exact .ok hput
  | realloc i n =>
    simp only [Package.validOp, mm, Plan.step, hc.table, hc.remove ha.1]
    rcases hc.follows.realloc ha with ⟨hm, ho⟩ | ⟨h', r, hm, ho, hr⟩
    · simp only [hm, ho]
      exact .error _
    simp only [hm, ho]
    by_cases hq : r.2 = null
    · rw [if_pos hq, if_pos hq]
      exact .error _
    obtain ⟨-, hf, -, hkept, hcarried⟩ := hr.resolve_left hq
    have hn := Outline.pos_of_realloc ho hq
    rw [if_neg hq, if_neg hq, hf.addRange hn]
    -- the first byte decides, since all bytes are the same
    have hdata : dataPreserved h'.mem r.2 i (min n (k.table.blockSizes i)) ↔ ¬128 ≤ i &&& 0xFF := by
      have hlt : i &&& 0xFF < 256 := Nat.lt_of_le_of_lt Nat.and_le_right (by omega)
      have hbyte : ∀ x < min n (k.table.blockSizes i), (h'.mem (r.2 + x)).toInt =
          (i &&& 0xFF : ℕ) ↔ i &&& 0xFF < 128 := by
        intro x hx
        rw [hcarried x hx, hc.filled i ha.1 x (by omega)]
        exact toInt_byte hlt
      have hpos := hc.pos i ha.1
      rw [not_le]
      exact ⟨fun hall => (hbyte 0 (by omega)).mp (hall 0 (by omega)),
        fun hlow x hx => (hbyte x hx).mpr hlow⟩
    by_cases hlow : 128 ≤ i &&& 0xFF
    · simp only [hdata, not_not.mpr hlow, if_false, if_pos hlow]
      exact .error _
    · simp only [hdata, if_pos hlow, if_neg hlow]
      exact .ok (hc.put hf hn hkept)
  | free i =>
    obtain ⟨hf, -, hkept⟩ := hc.follows.free ha
    simp only [Package.validOp, mm, Plan.step, hc.table, hc.remove ha]
    refine .ok ⟨hf, rfl, rfl, ?_, fun j hj => hc.pos j (List.mem_filter.mp hj).1⟩
    intro j hj x hx
    exact (hkept j hj x hx).trans (hc.filled j (List.mem_filter.mp hj).1 x hx)

/-- On a heap that an earlier replay may have left, the check of a lawful trace ends as the abstract
replay does. -/
lemma evalMmValid_endAlike (halign : h.memStartBrk % 8 = 0)
    (hmax : h.memMaxAddr = h.memStartBrk + maxHeap)
    (hlawful : (Plan.begin h.memStartBrk t).Lawful ops) :
    EndAlike Checks (mm.evalMmValid h t ops)
      (interpret Plan.step 0 (Plan.begin h.memStartBrk t) ops) := by
  obtain ⟨hcode, hf⟩ := Follows.begin (h := memResetBrk h) halign rfl hmax t
  have hinit : ¬(mm.init (memResetBrk h)).2 < 0 := by
    simp only [mm, hcode]
    decide
  unfold Package.evalMmValid
  dsimp only
  rw [if_neg hinit]
  apply hlawful.endAlike fun s k op hc ha => hc.step ha
  exact ⟨hf, rfl, rfl, by simp [Table.Filled, Plan.begin], by simp [Plan.begin]⟩

/-- The verdict of the check on a lawful trace and the table of blocks it leaves are those of the
abstract replay, on any heap that an earlier replay may have left. -/
theorem verdict_of_plan (halign : h.memStartBrk % 8 = 0)
    (hmax : h.memMaxAddr = h.memStartBrk + maxHeap)
    (hlawful : (Plan.begin h.memStartBrk t).Lawful ops) :
    (mm.evalMmValid h t ops).map ValidState.table =
      (interpret Plan.step 0 (Plan.begin h.memStartBrk t) ops).map Plan.table := by
  have halike := evalMmValid_endAlike halign hmax hlawful
  generalize mm.evalMmValid h t ops = x at halike
  generalize interpret Plan.step 0 (Plan.begin h.memStartBrk t) ops = y at halike
  cases halike with
  | error e => rfl
  | ok hc => rw [Except.map, Except.map, hc.table]

end Checks

/-- A reallocation of index `i` between its allocation and its end. -/
def reallocTrace (i : ℕ) : List TraceOp := [.alloc i 8, .realloc i 200, .free i]

/-- The check accepts the package on a trace and rejects it on the same trace with another index. -/
theorem verdict_of_reallocTrace :
    (∃ t, (mm.evalMmValid (memInit (fun _ => 0) 4096) ⟨fun _ => 0, fun _ => 0⟩
      (reallocTrace 127)).map ValidState.table = .ok t) ∧
    (mm.evalMmValid (memInit (fun _ => 0) 4096) ⟨fun _ => 0, fun _ => 0⟩
      (reallocTrace 128)).map ValidState.table = .error (1, .reported .dataNotPreserved) := by
  have hlow : (Plan.begin 4096 ⟨fun _ => 0, fun _ => 0⟩).Lawful (reallocTrace 127) := by
    decide
  have hhigh : (Plan.begin 4096 ⟨fun _ => 0, fun _ => 0⟩).Lawful (reallocTrace 128) := by
    decide
  exact ⟨⟨_, (verdict_of_plan (by decide) rfl hlow).trans rfl⟩,
    (verdict_of_plan (by decide) rfl hhigh).trans rfl⟩

end SystemsLabs.Malloc
