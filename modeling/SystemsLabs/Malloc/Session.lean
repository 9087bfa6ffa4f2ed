import SystemsLabs.Library.Runs
import SystemsLabs.Malloc.Outline

/-!
# Sessions with the allocator

A user calls `mm_malloc`, `mm_free` and `mm_realloc` on the pointers it holds and writes into
the bytes it asked for. A session records the heap and the live allocations with what was
last written into them. In a sound session the live allocations are exactly the allocated
ordinary blocks of a well-formed heap, and each has room for its request.
-/

namespace SystemsLabs.Malloc
open Library

/-! ### Sessions -/

/-- A live pointer, the size that was asked for and the bytes its user wrote there. -/
structure Allocation where
  ptr : ℕ
  size : ℕ
  written : ℕ → Option Byte

structure Session where
  heap : Heap
  live : List Allocation

inductive Call
  | malloc (size : ℕ)
  | free (ptr : ℕ)
  | realloc (ptr size : ℕ)
  | write (ptr offset : ℕ) (v : Byte)

namespace Session

/-- A session right after `mm_init`. -/
def begin (mem : Memory) (start : ℕ) : Session where
  heap := (mmInit (memInit mem start)).1
  live := []

def find (s : Session) (p : ℕ) : Option Allocation := s.live.find? (fun a => a.ptr = p)

/-- The live allocations other than the one at `p`. -/
def others (s : Session) (p : ℕ) : List Allocation := s.live.filter (fun a => a.ptr ≠ p)

/-- One call. It is refused when its pointer is not live or a write leaves the request, and it
has no next state when the code faults. -/
def step (s : Session) : Call → Option Session
  | .malloc n => (mmMalloc s.heap n).map fun (h, p) =>
      if p = null then { s with heap := h }
      else { heap := h, live := ⟨p, n, fun _ => none⟩ :: s.live }
  | .free p => (s.find p).map fun _ => { heap := mmFree s.heap p, live := s.others p }
  | .realloc p n => (s.find p).bind fun a => (mmRealloc s.heap p n).map fun (h, q) =>
      if q = null then { s with heap := h }
      else
        { heap := h
          live := ⟨q, n, fun i => if i < min a.size n then a.written i else none⟩ :: s.others p }
  | .write p i v => (s.find p).bind fun a =>
      if i < a.size then some
        { heap := { s.heap with mem := Function.update s.heap.mem (p + i) v }
          live := { a with written := Function.update a.written i (some v) } :: s.others p }
      else none

end Session

/-! ### Conditions on calls -/

/-- The sizes are between 1 and the size of the heap. -/
def Call.InRange : Call → Prop
  | .malloc n => 1 ≤ n ∧ n ≤ maxHeap
  | .realloc _ n => 1 ≤ n ∧ n ≤ maxHeap
  | _ => True

/-- The size computations of the code do not wrap. -/
def Call.NoWrap : Call → Prop
  | .malloc n => n + 15 < 2 ^ 32
  | .realloc _ n => n + 15 + padding < 2 ^ 31
  | _ => True

/-- The calls other than `mm_realloc` whose size computations do not wrap. -/
def Call.Plain : Call → Prop
  | .malloc n => n + 15 < 2 ^ 32
  | .realloc _ _ => False
  | _ => True

/-- A call of `mm_realloc` keeps the heap intact. -/
def Call.Safe (s : Session) : Call → Prop
  | .realloc p n => n = 0 ∨ ReallocSafe s.heap p n
  | _ => True

/-- A call of `mm_free` leaves no two free blocks side by side. -/
def Call.JoinsAll (s : Session) : Call → Prop
  | .free p => FreeSafe s.heap p
  | _ => True

section Conditions

variable {c : Call}

lemma Call.InRange.noWrap (h : c.InRange) : c.NoWrap := by
  cases c with
  | malloc n =>
    simp only [Call.InRange, Call.NoWrap, maxHeap] at h ⊢
    omega
  | realloc p n =>
    simp only [Call.InRange, Call.NoWrap, maxHeap, padding] at h ⊢
    omega
  | free p => trivial
  | write p i v => trivial

lemma Call.Plain.noWrap (h : c.Plain) : c.NoWrap := by
  cases c with
  | realloc p n => exact h.elim
  | malloc n => exact h
  | free p => trivial
  | write p i v => trivial

lemma Call.Plain.safe (h : c.Plain) (s : Session) : c.Safe s := by
  cases c with
  | realloc p n => exact h.elim
  | malloc n => trivial
  | free p => trivial
  | write p i v => trivial

end Conditions

/-! ### Sound sessions -/

/-- The live allocations are the allocated blocks of the block list `bs`. -/
structure Sound (s : Session) (bs : List Block) : Prop where
  wellFormed : WellFormedAs s.heap bs
  nodup : (s.live.map Allocation.ptr).Nodup
  room : ∀ a ∈ s.live, ∃ k, a.size + 8 ≤ k ∧ Occupied s.heap.heapListp bs a.ptr k
  complete : ∀ y k, Occupied s.heap.heapListp bs y k → ∃ a ∈ s.live, a.ptr = y

/-- The heap holds the bytes that the user wrote last. -/
def Faithful (s : Session) : Prop :=
  ∀ a ∈ s.live, ∀ i < a.size, ∀ v, a.written i = some v → s.heap.mem (a.ptr + i) = v

section Sound

variable {s s' : Session} {bs bs' : List Block} {a : Allocation} {p k n i : ℕ} {S : Set ℕ}
  {h' : Heap} {v : Byte} {c : Call}

lemma Session.find_eq (h : s.find p = some a) : a ∈ s.live ∧ a.ptr = p := by
  have hp := List.find?_some h
  exact ⟨List.mem_of_find?_eq_some h, by simpa using hp⟩

lemma Session.mem_others : a ∈ s.others p ↔ a ∈ s.live ∧ a.ptr ≠ p := by
  simp [Session.others]

lemma Session.step_malloc : s.step (.malloc n) = some s' ↔
    ∃ h' p, mmMalloc s.heap n = some (h', p) ∧ (p = null ∧ s' = { s with heap := h' } ∨
      p ≠ null ∧ s' = ⟨h', ⟨p, n, fun _ => none⟩ :: s.live⟩) := by
  simp only [Session.step, Option.map_eq_some_iff, Prod.exists]
  refine exists₂_congr fun h' p => and_congr_right fun _ => ?_
  by_cases hp : p = null
  · rw [if_pos hp, eq_comm]
    tauto
  · rw [if_neg hp, eq_comm]
    tauto

lemma Session.step_free : s.step (.free p) = some s' ↔
    ∃ a, s.find p = some a ∧ s' = ⟨mmFree s.heap p, s.others p⟩ := by
  simp only [Session.step, Option.map_eq_some_iff]
  exact exists_congr fun a => and_congr_right fun _ => eq_comm

lemma Session.step_realloc : s.step (.realloc p n) = some s' ↔
    ∃ a h' q, s.find p = some a ∧ mmRealloc s.heap p n = some (h', q) ∧
      (q = null ∧ s' = { s with heap := h' } ∨ q ≠ null ∧
        s' = ⟨h', ⟨q, n, fun i => if i < min a.size n then a.written i else none⟩ :: s.others p⟩) := by
  simp only [Session.step, Option.bind_eq_some_iff, Option.map_eq_some_iff, Prod.exists,
    exists_and_left]
  refine exists_congr fun a => and_congr_right fun _ => exists₂_congr fun h' q =>
    and_congr_right fun _ => ?_
  by_cases hq : q = null
  · rw [if_pos hq, eq_comm]
    tauto
  · rw [if_neg hq, eq_comm]
    tauto

lemma Session.step_write : s.step (.write p i v) = some s' ↔
    ∃ a, s.find p = some a ∧ i < a.size ∧
      s' = ⟨{ s.heap with mem := Function.update s.heap.mem (p + i) v },
        { a with written := Function.update a.written i (some v) } :: s.others p⟩ := by
  simp only [Session.step, Option.bind_eq_some_iff]
  refine exists_congr fun a => and_congr_right fun _ => ?_
  by_cases hi : i < a.size <;> simp [hi, eq_comm]

/-- A change of the heap that keeps the allocations outside `S` and replaces those inside. -/
lemma Sound.update (hs : Sound s bs) (he : Evolves S s.heap bs h' bs') (added kept : List Allocation)
    (hsub : kept.Sublist s.live) (hkept : ∀ a ∈ s.live, a ∈ kept ↔ a.ptr ∉ S)
    (hadded : ∀ a ∈ added, a.ptr ∈ S ∧
      ∃ k, a.size + 8 ≤ k ∧ Occupied s.heap.heapListp bs' a.ptr k)
    (hnodup : (added.map Allocation.ptr).Nodup)
    (hcomplete : ∀ y ∈ S, ∀ k, Occupied s.heap.heapListp bs' y k → ∃ a ∈ added, a.ptr = y) :
    Sound ⟨h', added ++ kept⟩ bs' := by
  have hout : ∀ a ∈ kept, a ∈ s.live ∧ a.ptr ∉ S := fun a ha =>
    ⟨hsub.subset ha, (hkept a (hsub.subset ha)).mp ha⟩
  refine ⟨he.wellFormed, ?_, ?_, ?_⟩
  · rw [List.map_append, List.nodup_append]
    refine ⟨hnodup, (hsub.map _).nodup hs.nodup, ?_⟩
    intro x hx y hy hxy
    obtain ⟨a, ha, rfl⟩ := List.mem_map.mp hx
    obtain ⟨b, hb, rfl⟩ := List.mem_map.mp hy
    exact (hout b hb).2 (hxy ▸ (hadded a ha).1)
  · intro a ha
    rw [he.listp]
    rcases List.mem_append.mp ha with ha | ha
    · exact (hadded a ha).2
    · obtain ⟨k, hk, hocc⟩ := hs.room a (hout a ha).1
      exact ⟨k, hk, (he.frame.occupied _ _ (hout a ha).2).mpr hocc⟩
  · intro y k hocc
    rw [he.listp] at hocc
    by_cases hy : y ∈ S
    · obtain ⟨a, ha, rfl⟩ := hcomplete y hy k hocc
      exact ⟨a, List.mem_append_left _ ha, rfl⟩
    · obtain ⟨a, ha, rfl⟩ := hs.complete y k ((he.frame.occupied _ _ hy).mp hocc)
      exact ⟨a, List.mem_append_right _ ((hkept a ha).mpr hy), rfl⟩

/-- The payload of an allocation outside `S` does not change. -/
lemma Sound.payload_eq (hs : Sound s bs) (he : Evolves S s.heap bs h' bs') (ha : a ∈ s.live)
    (hS : a.ptr ∉ S) (hi : i < a.size) : h'.mem (a.ptr + i) = s.heap.mem (a.ptr + i) := by
  obtain ⟨k, hk, hocc⟩ := hs.room a ha
  exact he.frame.payload _ _ hS hocc _ (by omega) (by omega)

/-! ### Single calls -/

lemma Sound.occupied_of_find (hs : Sound s bs) (hp : s.find p = some a) :
    ∃ k, a.size + 8 ≤ k ∧ Occupied s.heap.heapListp bs p k := by
  obtain ⟨ha, rfl⟩ := Session.find_eq hp
  exact hs.room a ha

lemma mmMalloc_null {h h' : Heap} (hw : WellFormedAs h bs) (hn : n + 15 < 2 ^ 32)
    (hm : mmMalloc h n = some (h', null)) : h' = h := by
  rcases mmMalloc_spec hw hn with hnull | ⟨h₁, r, bs', heq, hr, -⟩
  · rw [hnull] at hm
    exact (Prod.mk.inj (Option.some.inj hm)).1.symm
  · rw [heq] at hm
    exact absurd (Prod.mk.inj (Option.some.inj hm)).2 hr

lemma Sound.malloc (hs : Sound s bs) (hn : n + 15 < 2 ^ 32) (hp : p ≠ null)
    (hm : mmMalloc s.heap n = some (h', p)) :
    ∃ bs', Evolves {p} s.heap bs h' bs' ∧ Sound ⟨h', ⟨p, n, fun _ => none⟩ :: s.live⟩ bs' ∧
      (∀ a ∈ s.live, a.ptr ≠ p) ∧ (∃ k, n + 8 ≤ k ∧ Occupied h'.heapListp bs' p k) ∧
      (bs.IsChain KeptApart → bs'.IsChain KeptApart) ∧ (Untagged bs → Untagged bs') := by
  rcases mmMalloc_spec hs.wellFormed hn with hnull | ⟨h₁, r, bs', heq, -, he, hk, hu⟩
  · rw [hnull] at hm
    exact absurd (Prod.mk.inj (Option.some.inj hm)).2.symm hp
  rw [heq] at hm
  obtain ⟨rfl, rfl⟩ := Prod.mk.inj (Option.some.inj hm)
  have hfresh : ∀ a ∈ s.live, a.ptr ≠ r := by
    rintro a ha rfl
    obtain ⟨k, -, hocc⟩ := hs.room a ha
    exact he.fresh k hocc
  refine ⟨bs', he.toEvolves, ?_, hfresh, he.listp ▸ he.occupied, hk, hu⟩
  apply hs.update he.toEvolves [⟨r, n, fun _ => none⟩] s.live (List.Sublist.refl _)
  · intro a ha
    simpa [ha] using hfresh a ha
  · simpa using he.occupied
  · simp
  · simp

lemma Sound.free (hs : Sound s bs) (hp : s.find p = some a) :
    ∃ bs', Evolves {p} s.heap bs (mmFree s.heap p) bs' ∧
      Sound ⟨mmFree s.heap p, s.others p⟩ bs' ∧
      (FreeSafe s.heap p → bs.IsChain KeptApart → bs'.IsChain KeptApart) ∧
      (Untagged bs → Untagged bs') := by
  obtain ⟨k, -, hocc⟩ := hs.occupied_of_find hp
  obtain ⟨bs', he, hno, hk, hu⟩ := mmFree_evolves hs.wellFormed hocc
  refine ⟨bs', he, ?_, hk, hu⟩
  apply hs.update he [] (s.others p) List.filter_sublist
  · intro a ha
    simp [Session.mem_others, ha]
  · simp
  · simp
  · rintro y rfl k hy
    exact absurd hy (hno k)

lemma Sound.realloc (hs : Sound s bs) (hp : s.find p = some a) (hn : n + 15 + padding < 2 ^ 31)
    (hsafe : n = 0 ∨ ReallocSafe s.heap p n) {q : ℕ} {w : ℕ → Option Byte}
    (hm : mmRealloc s.heap p n = some (h', q)) :
    q = null ∧ h' = s.heap ∨ ∃ bs', q ≠ null ∧ Sound ⟨h', ⟨q, n, w⟩ :: s.others p⟩ bs' ∧
      (bs.IsChain KeptApart → bs'.IsChain KeptApart) := by
  obtain ⟨k, -, hocc⟩ := hs.occupied_of_find hp
  by_cases hn0 : n = 0
  · rw [hn0] at hm
    obtain ⟨rfl, rfl⟩ := Prod.mk.inj (Option.some.inj hm)
    exact Or.inl ⟨rfl, rfl⟩
  rcases mmRealloc_spec hs.wellFormed hocc hn0 hn (hsafe.resolve_left hn0) with
    hfault | hnull | ⟨h₁, q₁, bs', heq, hq, hr⟩
  · rw [hfault] at hm
    cases hm
  · rw [hnull] at hm
    obtain ⟨rfl, rfl⟩ := Prod.mk.inj (Option.some.inj hm)
    exact Or.inl ⟨rfl, rfl⟩
  rw [heq] at hm
  obtain ⟨rfl, rfl⟩ := Prod.mk.inj (Option.some.inj hm)
  obtain ⟨j, hj, hq₁⟩ := hr.occupied
  refine Or.inr ⟨bs', hq, ?_, hr.keptApart⟩
  apply hs.update hr.toEvolves [⟨q₁, n, w⟩] (s.others p) List.filter_sublist
  · intro a ha
    have hqa : a.ptr ≠ p → a.ptr ≠ q₁ := by
      rintro hne rfl
      obtain ⟨i, -, hi⟩ := hs.room a ha
      exact (hr.moved hne).2 i hi
    simp only [Session.mem_others, ha, true_and, Set.mem_insert_iff, Set.mem_singleton_iff, not_or]
    exact ⟨fun hne => ⟨hne, hqa hne⟩, And.left⟩
  · intro b hb
    obtain rfl := List.mem_singleton.mp hb
    exact ⟨by simp, j, hj, hq₁⟩
  · simp
  · intro y hy i hi
    refine ⟨_, List.mem_singleton_self _, ?_⟩
    rcases hy with rfl | rfl
    · by_contra hne
      exact (hr.moved hne).1 i hi
    · rfl

lemma Sound.write (hs : Sound s bs) (hp : s.find p = some a) (hi : i < a.size)
    (w : ℕ → Option Byte) :
    Evolves {p} s.heap bs { s.heap with mem := Function.update s.heap.mem (p + i) v } bs ∧
      Sound ⟨{ s.heap with mem := Function.update s.heap.mem (p + i) v },
        { a with written := w } :: s.others p⟩ bs := by
  obtain ⟨k, hk, hocc⟩ := hs.occupied_of_find hp
  obtain ⟨-, rfl⟩ := Session.find_eq hp
  have hag : AgreeOutside a.ptr (a.ptr + k - 8) s.heap.mem
      (Function.update s.heap.mem (a.ptr + i) v) := by
    intro x hx
    exact Function.update_of_ne (by omega) _ _
  obtain ⟨hw, hf⟩ := hs.wellFormed.writePayload hocc hag
  have he : Evolves {a.ptr} s.heap bs
      { s.heap with mem := Function.update s.heap.mem (a.ptr + i) v } bs :=
    ⟨rfl, le_rfl, rfl, hf, hw⟩
  refine ⟨he, ?_⟩
  apply hs.update he [{ a with written := w }] (s.others a.ptr)
    List.filter_sublist
  · intro b hb
    simp [Session.mem_others, hb]
  · intro b hb
    obtain rfl := List.mem_singleton.mp hb
    exact ⟨rfl, k, hk, hocc⟩
  · simp
  · rintro y rfl j -
    exact ⟨_, List.mem_singleton_self _, rfl⟩

/-! ### Runs -/

lemma begin_refines (mem : Memory) {start : ℕ} (halign : start % 8 = 0) :
    Refines (Session.begin mem start).heap (Outline.init start) := by
  obtain ⟨g, hg⟩ : ∃ g, g = memInit mem start := ⟨_, rfl⟩
  have hstart : g.memStartBrk = start := by simp only [hg, memInit]
  have hbrk : g.memBrk = g.memStartBrk := by simp only [hg, memInit]
  have hmax : g.memMaxAddr = g.memStartBrk + maxHeap := by simp only [hg, memInit]
  have hr := (mmInit_refines (by rwa [hstart]) hbrk hmax).2
  rw [hstart] at hr
  simp only [Session.begin, ← hg]
  exact hr

theorem Sound.begin {mem : Memory} {start : ℕ} (halign : start % 8 = 0) :
    Sound (Session.begin mem start) (Outline.init start).blocks := by
  have hr := begin_refines mem halign
  refine ⟨hr.toWellFormedAs, List.nodup_nil, fun a ha => absurd ha List.not_mem_nil, ?_⟩
  rintro y k ⟨b, hb, -, hsize, -⟩
  have hmem := mem_of_mem_placed hb
  simp only [Outline.init, List.mem_cons, List.not_mem_nil, or_false] at hmem
  rcases hmem with rfl | rfl <;> simp at hsize

lemma Faithful.update (hf : Faithful s) (hs : Sound s bs) (he : Evolves S s.heap bs h' bs')
    (added kept : List Allocation)
    (hadded : ∀ a ∈ added, ∀ i < a.size, ∀ v, a.written i = some v → h'.mem (a.ptr + i) = v)
    (hkept : ∀ a ∈ kept, a ∈ s.live ∧ a.ptr ∉ S) : Faithful ⟨h', added ++ kept⟩ := by
  intro a ha i hi v hv
  rcases List.mem_append.mp ha with ha | ha
  · exact hadded a ha i hi v hv
  · obtain ⟨hlive, hS⟩ := hkept a ha
    rw [hs.payload_eq he hlive hS hi]
    exact hf a hlive i hi v hv

/-- What one call preserves. -/
theorem Sound.step (hs : Sound s bs) (hwrap : c.NoWrap) (hsafe : c.Safe s)
    (h : s.step c = some s') :
    ∃ bs', Sound s' bs' ∧
      (c.JoinsAll s → bs.IsChain KeptApart → bs'.IsChain KeptApart) ∧
      (c.Plain → (Untagged bs → Untagged bs') ∧ (Faithful s → Faithful s')) := by
  cases c with
  | malloc n =>
    obtain ⟨h', p, hm, ⟨rfl, rfl⟩ | ⟨hp, rfl⟩⟩ := Session.step_malloc.mp h
    · obtain rfl := mmMalloc_null hs.wellFormed hwrap hm
      exact ⟨bs, hs, fun _ => id, fun _ => ⟨id, id⟩⟩
    · obtain ⟨bs', he, hs', hfresh, -, hk, hu⟩ := hs.malloc hwrap hp hm
      refine ⟨bs', hs', fun _ => hk, fun _ => ⟨hu, fun hf => ?_⟩⟩
      apply hf.update hs he [⟨p, n, fun _ => none⟩] s.live
      · simp
      · exact fun a ha => ⟨ha, hfresh a ha⟩
  | free p =>
    obtain ⟨a, hp, rfl⟩ := Session.step_free.mp h
    obtain ⟨bs', he, hs', hk, hu⟩ := hs.free hp
    refine ⟨bs', hs', hk, fun _ => ⟨hu, fun hf => ?_⟩⟩
    apply hf.update hs he [] (s.others p)
    · simp
    · exact fun a ha => Session.mem_others.mp ha
  | realloc p n =>
    obtain ⟨a, h', q, hp, hm, heq⟩ := Session.step_realloc.mp h
    rcases hs.realloc (w := fun i => if i < min a.size n then a.written i else none) hp hwrap
      hsafe hm with ⟨rfl, rfl⟩ | ⟨bs', hq, hs', hk⟩
    · obtain ⟨-, rfl⟩ | ⟨hq, -⟩ := heq
      · exact ⟨bs, hs, fun _ => id, fun hplain => hplain.elim⟩
      · exact absurd rfl hq
    · obtain ⟨hnull, -⟩ | ⟨-, rfl⟩ := heq
      · exact absurd hnull hq
      · exact ⟨bs', hs', fun _ => hk, fun hplain => hplain.elim⟩
  | write p i v =>
    obtain ⟨a, hp, hi, rfl⟩ := Session.step_write.mp h
    obtain ⟨he, hs'⟩ := hs.write (v := v) hp hi (Function.update a.written i (some v))
    obtain ⟨ha, rfl⟩ := Session.find_eq hp
    refine ⟨bs, hs', fun _ => id, fun _ => ⟨id, fun hf => ?_⟩⟩
    refine hf.update hs he [_] (s.others a.ptr) ?_ (fun b hb => Session.mem_others.mp hb)
    intro b hb j hj w hw
    obtain rfl := List.mem_singleton.mp hb
    by_cases hij : j = i
    · subst hij
      simpa using hw
    · simp only [Function.update_of_ne hij] at hw
      rw [← hf a ha j hj w hw]
      exact Function.update_of_ne (by simpa using hij) _ _

/-- Every run of safe calls keeps a session sound. -/
theorem sound_of_reaches {mem : Memory} {start : ℕ} (halign : start % 8 = 0)
    (h : Reaches Session.step (fun s c => c.NoWrap ∧ c.Safe s) (Session.begin mem start) s) :
    ∃ bs, Sound s bs := by
  refine h.invariant (fun s => ∃ bs, Sound s bs) ⟨_, Sound.begin halign⟩ ?_
  rintro s c s' ⟨bs, hs⟩ ⟨hwrap, hsafe⟩ hstep
  obtain ⟨bs', hs', -⟩ := hs.step hwrap hsafe hstep
  exact ⟨bs', hs'⟩

/-- A run that also frees only where all free neighbours are joined keeps free blocks apart. -/
theorem keptApart_of_reaches {mem : Memory} {start : ℕ} (halign : start % 8 = 0)
    (h : Reaches Session.step (fun s c => c.NoWrap ∧ c.Safe s ∧ c.JoinsAll s)
      (Session.begin mem start) s) :
    ∃ bs, Sound s bs ∧ bs.IsChain KeptApart := by
  refine h.invariant (fun s => ∃ bs, Sound s bs ∧ bs.IsChain KeptApart)
    ⟨_, Sound.begin halign, by simp [Outline.init, KeptApart]⟩ ?_
  rintro s c s' ⟨bs, hs, hk⟩ ⟨hwrap, hsafe, hjoins⟩ hstep
  obtain ⟨bs', hs', hk', -⟩ := hs.step hwrap hsafe hstep
  exact ⟨bs', hs', hk' hjoins hk⟩

/-- Without tags no two free blocks are adjacent, so every call of `mm_free` joins all. -/
lemma freeSafe_of_untagged {h : Heap} (hw : WellFormedAs h bs) (hx : Occupied h.heapListp bs p k)
    (hk : bs.IsChain KeptApart) (hu : Untagged bs) : FreeSafe h p := by
  obtain ⟨pre, q, b, d, post, rfl, hxp, -, -⟩ := hw.split_occupied hx
  have hbAt : BlockAt h.mem p b := hw.toTiled.blockAt_behind hxp
  have hdAt : BlockAt h.mem (p + b.size) d := hw.toTiled.blockAt_behind₂ hxp
  intro hd he
  rw [hbAt.nextBlkp, hdAt.getAlloc_hdrp, Bool.toNat_eq_zero] at hd
  rw [hbAt.nextBlkp, hdAt.nextBlkp] at he
  have hne : post ≠ [] := by
    have hfr : Framed ((pre ++ [q, b]) ++ d :: post) := by simpa using hw.framed
    exact (hfr.ne_nil_of_free hd).2
  obtain ⟨e, post, rfl⟩ := List.exists_cons_of_ne_nil hne
  have heAt : BlockAt h.mem (p + b.size + d.size) e := hw.toTiled.blockAt_behind₃ hxp
  rw [heAt.getAlloc_hdrp, Bool.toNat_eq_zero] at he
  have hkept : KeptApart d e := by
    simp only [List.isChain_append, List.isChain_cons, List.head?_cons, Option.mem_def,
      Option.some.injEq, forall_eq'] at hk
    tauto
  have := hu d (by simp)
  rw [hkept hd he] at this
  cases this

/-- Along runs without `mm_realloc` no block carries a tag, no two free blocks are adjacent and
the payloads hold what was written into them. -/
theorem plain_of_reaches {mem : Memory} {start : ℕ} (halign : start % 8 = 0)
    (h : Reaches Session.step (fun _ c => c.Plain) (Session.begin mem start) s) :
    ∃ bs, Sound s bs ∧ bs.IsChain KeptApart ∧ Untagged bs ∧ Faithful s := by
  refine h.invariant (fun s => ∃ bs, Sound s bs ∧ bs.IsChain KeptApart ∧ Untagged bs ∧ Faithful s)
    ⟨_, Sound.begin halign, by simp [Outline.init, KeptApart], ?_, ?_⟩ ?_
  · simp [Outline.init, Untagged]
  · exact fun a ha => absurd ha List.not_mem_nil
  rintro s c s' ⟨bs, hs, hk, hu, hf⟩ hplain hstep
  obtain ⟨bs', hs', hk', hplain'⟩ := hs.step hplain.noWrap (hplain.safe s) hstep
  obtain ⟨hu', hf'⟩ := hplain' hplain
  refine ⟨bs', hs', hk' ?_ hk, hu' hu, hf' hf⟩
  cases c with
  | free p =>
    obtain ⟨a, hp, -⟩ := Session.step_free.mp hstep
    obtain ⟨k, -, hocc⟩ := hs.occupied_of_find hp
    exact freeSafe_of_untagged hs.wellFormed hocc hk hu
  | malloc n => trivial
  | realloc p n => trivial
  | write p i v => trivial

end Sound

end SystemsLabs.Malloc
