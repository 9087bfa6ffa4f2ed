import SystemsLabs.Malloc.Session

/-!
# Abstract sessions

A session on the abstract allocator: an outline and the live pointers with their sizes. Where
the sizes do not wrap and `mm_realloc` finds its block large enough, every step of an abstract
session is a step of the real one. The abstract steps can be evaluated.
-/

namespace SystemsLabs.Malloc
open Library

structure Sketch where
  outline : Outline
  live : List (ℕ × ℕ)
deriving DecidableEq

namespace Sketch

variable (k : Sketch)

def begin (start : ℕ) : Sketch := ⟨Outline.init start, []⟩

def find (p : ℕ) : Option (ℕ × ℕ) := k.live.find? (fun a => a.1 = p)

def others (p : ℕ) : List (ℕ × ℕ) := k.live.filter (fun a => a.1 ≠ p)

/-- The block that starts at `p`. -/
def blockAt (p : ℕ) : Option (ℕ × Block) :=
  (placed Block.size k.outline.first k.outline.blocks).find? (fun q => q.1 = p)

/-- One call, for sizes that do not wrap and blocks that need not move. -/
def step : Call → Option Sketch
  | .malloc n =>
    if n + 15 < 2 ^ 32 then
      let r := k.outline.malloc n
      some ⟨r.1, if r.2 = null then k.live else (r.2, n) :: k.live⟩
    else none
  | .free p => (k.find p).map fun _ => ⟨k.outline.free p, k.others p⟩
  | .realloc p n => (k.find p).bind fun _ => (k.blockAt p).bind fun q =>
      if n ≠ 0 ∧ n + 15 + padding < 2 ^ 31 ∧ bodySize n ≤ q.2.size then
        some ⟨k.outline.keep p q.2.size n, (p, n) :: k.others p⟩
      else none
  | .write p i _ => (k.find p).bind fun a =>
      if i < a.2 then some ⟨k.outline, a :: k.others p⟩ else none

end Sketch

/-- The session shows the abstract session `k`. -/
structure Shows (s : Session) (k : Sketch) : Prop where
  sound : Sound s k.outline.blocks
  refines : Refines s.heap k.outline
  live : k.live = s.live.map (fun a => (a.ptr, a.size))

section Shows

variable {s : Session} {k k' : Sketch} {c : Call} {p : ℕ}

lemma Shows.begin (mem : Memory) {start : ℕ} (halign : start % 8 = 0) :
    Shows (Session.begin mem start) (Sketch.begin start) :=
  ⟨Sound.begin halign, begin_refines mem halign, rfl⟩

lemma Shows.find_eq (hs : Shows s k) :
    k.find p = (s.find p).map (fun a => (a.ptr, a.size)) := by
  rw [Sketch.find, hs.live, List.find?_map]
  rfl

lemma Shows.others_eq (hs : Shows s k) :
    k.others p = (s.others p).map (fun a => (a.ptr, a.size)) := by
  rw [Sketch.others, hs.live, List.filter_map]
  rfl

lemma Shows.allocatedAt (hs : Shows s k) {b : Block}
    (hb : (p, b) ∈ placed Block.size k.outline.first k.outline.blocks) (halloc : b.alloc = true)
    (h16 : 16 ≤ b.size) : AllocatedAt s.heap p b :=
  ⟨hs.refines.blockList_eq ▸ hb, halloc, h16⟩

/-- A block that an abstract session finds at a live pointer is the allocated one. -/
lemma Shows.blockAt_eq (hs : Shows s k) {a : Allocation} (hp : s.find p = some a)
    {q : ℕ × Block} (hq : k.blockAt p = some q) :
    Occupied k.outline.first k.outline.blocks p q.2.size := by
  obtain ⟨j, -, b, hb, halloc, hsize, -⟩ := hs.sound.occupied_of_find hp
  rw [hs.refines.first] at hb
  have hmem := List.mem_of_find?_eq_some hq
  have hqp := List.find?_some (p := fun q : ℕ × Block => decide (q.1 = p)) hq
  obtain ⟨x, c⟩ := q
  obtain rfl : x = p := by simpa using hqp
  rcases Nat.eq_zero_or_pos c.size with hzero | hpos
  · -- the search stops at the first block, which is not the epilogue
    exfalso
    obtain ⟨pre, post, hbs, hx⟩ := mem_placed_iff.mp hmem
    obtain ⟨pre', post', hbs', hx'⟩ := mem_placed_iff.mp hb
    have hfr := hs.refines.framed
    have hlast : post = [] := by
      by_contra hne
      rw [hbs] at hfr
      rw [List.append_cons] at hfr
      have := hfr.size_of_left hne (b := c) (by simp)
      omega
    have h1 := congrArg (extent Block.size) hbs
    have h2 := congrArg (extent Block.size) hbs'
    rw [hlast] at h1
    simp only [extent_append, extent_cons, extent_nil] at h1 h2
    omega
  · obtain rfl := placed_inj hb hmem (by omega) hpos
    exact ⟨b, hb, halloc, hsize, rfl⟩

/-- Every abstract step is a step of the session. -/
theorem Shows.step (hs : Shows s k) (hk : k.step c = some k') :
    ∃ s', s.step c = some s' ∧ Shows s' k' := by
  cases c with
  | malloc n =>
    simp only [Sketch.step] at hk
    by_cases hn : n + 15 < 2 ^ 32
    · rw [if_pos hn] at hk
      obtain rfl := Option.some.inj hk
      obtain ⟨h', hm, hr⟩ := mmMalloc_refines hs.refines hn
      generalize k.outline.malloc n = r at *
      by_cases hp : r.2 = null
      · rw [hp] at hm
        obtain rfl := mmMalloc_null hs.sound.wellFormed hn hm
        refine ⟨s, Session.step_malloc.mpr ⟨_, _, hm, Or.inl ⟨rfl, rfl⟩⟩, ?_⟩
        have hbs := hr.toTiled.unique hs.refines.toTiled
        exact ⟨by rw [hbs]; exact hs.sound, hr, by rw [if_pos hp]; exact hs.live⟩
      · refine ⟨_, Session.step_malloc.mpr ⟨_, _, hm, Or.inr ⟨hp, rfl⟩⟩, ?_⟩
        obtain ⟨bs', -, hs', -⟩ := hs.sound.malloc hn hp hm
        obtain rfl := hr.toTiled.unique hs'.wellFormed.toTiled
        exact ⟨hs', hr, by rw [if_neg hp, hs.live]; rfl⟩
    · rw [if_neg hn] at hk
      cases hk
  | free p =>
    simp only [Sketch.step, hs.find_eq, Option.map_map, Option.map_eq_some_iff] at hk
    obtain ⟨a, hp, rfl⟩ := hk
    refine ⟨_, Session.step_free.mpr ⟨a, hp, rfl⟩, ?_⟩
    obtain ⟨j, -, hocc⟩ := hs.sound.occupied_of_find hp
    rw [hs.refines.first] at hocc
    have hr := mmFree_refines hs.refines hocc
    obtain ⟨bs', -, hs', -⟩ := hs.sound.free hp
    obtain rfl := hr.toTiled.unique hs'.wellFormed.toTiled
    exact ⟨hs', hr, hs.others_eq⟩
  | realloc p n =>
    simp only [Sketch.step, hs.find_eq, Option.bind_map, Option.bind_eq_some_iff] at hk
    obtain ⟨a, hp, hk⟩ := hk
    obtain ⟨q, hq, hk⟩ := Option.bind_eq_some_iff.mp hk
    split at hk
    · rename_i hfits
      obtain ⟨hn0, hn, hfits⟩ := hfits
      obtain rfl := Option.some.inj hk
      have hocc := hs.blockAt_eq hp hq
      obtain ⟨h', hm, hr⟩ := mmRealloc_refines hs.refines hocc hn0 hfits
      have hnull : p ≠ null := by
        have := (hs.sound.wellFormed.occupied_bounds (hs.refines.first ▸ hocc)).2.1
        simp only [null]
        omega
      have hsafe : ReallocSafe s.heap p n := by
        obtain ⟨b, hb, -, -, hsize⟩ := hocc
        rw [← hs.refines.first] at hb
        rw [ReallocSafe, (hs.sound.wellFormed.blockAt hb).getSize_hdrp]
        exact fun hlt => absurd hlt (by omega)
      refine ⟨_, Session.step_realloc.mpr ⟨a, h', p, hp, hm, Or.inr ⟨hnull, rfl⟩⟩, ?_⟩
      obtain ⟨hqnull, -⟩ | ⟨bs', -, hs', -⟩ := hs.sound.realloc
        (w := fun i => if i < min a.size n then a.written i else none) hp hn (Or.inr hsafe) hm
      · exact absurd hqnull hnull
      · obtain rfl := hr.toTiled.unique hs'.wellFormed.toTiled
        exact ⟨hs', hr, by rw [hs.others_eq]; rfl⟩
    · cases hk
  | write p i v =>
    simp only [Sketch.step, hs.find_eq, Option.bind_map, Option.bind_eq_some_iff] at hk
    obtain ⟨a, hp, hk⟩ := hk
    simp only [Function.comp_apply] at hk
    split at hk
    · rename_i hi
      obtain rfl := Option.some.inj hk
      refine ⟨_, Session.step_write.mpr ⟨a, hp, hi, rfl⟩, ?_⟩
      obtain ⟨he, hs'⟩ := hs.sound.write (v := v) hp hi (Function.update a.written i (some v))
      exact ⟨hs', ⟨he.wellFormed, hs.refines.start, hs.refines.roving⟩,
        by rw [hs.others_eq]; rfl⟩
    · cases hk

/-- A run that ends with a call of `mm_realloc`, whatever it does to the heap. -/
lemma Shows.run_realloc {s₀ : Session} {cs : List Call} {a : ℕ × ℕ} {n q : ℕ} {h' : Heap}
    (hs : Shows s k) (hrun : Library.run Session.step s₀ cs = some s) (hp : k.find p = some a)
    (hm : mmRealloc s.heap p n = some (h', q)) (hq : q ≠ null) :
    ∃ s', Library.run Session.step s₀ (cs ++ [.realloc p n]) = some s' ∧ s'.heap = h' ∧
      s'.live.map (fun a => (a.ptr, a.size)) = (q, n) :: k.others p := by
  rw [hs.find_eq, Option.map_eq_some_iff] at hp
  obtain ⟨b, hp, -⟩ := hp
  have hstep := Session.step_realloc.mpr ⟨b, h', q, hp, hm, Or.inr ⟨hq, rfl⟩⟩
  refine ⟨⟨h', ⟨q, n, fun i => if i < min b.size n then b.written i else none⟩ :: s.others p⟩,
    ?_, rfl, ?_⟩
  · rw [run_append, hrun, Option.bind_some, Library.run, hstep]
    rfl
  · rw [hs.others_eq]
    rfl

/-- Every abstract run is a run of the session. -/
theorem Shows.run {cs : List Call} (hs : Shows s k) (hk : Library.run Sketch.step k cs = some k') :
    ∃ s', Library.run Session.step s cs = some s' ∧ Shows s' k' :=
  run_of_simulation (fun _ _ _ _ hs hk => hs.step hk) hs hk

end Shows

end SystemsLabs.Malloc
