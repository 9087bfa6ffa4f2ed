import SystemsLabs.Malloc.Reshape
import SystemsLabs.Malloc.Sketch

/-!
# Sessions without memory

Abstract sessions with every safe call of `mm_realloc`. They step exactly as the real ones do, so
the addresses that the allocator hands out do not depend on what the memory holds.
-/

namespace SystemsLabs.Malloc
open Library

namespace Sketch

/-- One call, for sizes that do not wrap and safe reallocations. -/
def advance (k : Sketch) : Call → Option Sketch
  | .realloc p n => (k.find p).bind fun _ =>
      if n + 15 + padding < 2 ^ 31 ∧ (n = 0 ∨ k.outline.Spares p n) then
        (k.outline.realloc p n).map fun r =>
          ⟨r.1, if r.2 = null then k.live else (r.2, n) :: k.others p⟩
      else none
  | c => k.step c

end Sketch

/-- The size computations do not wrap and a reallocation keeps the heap intact. -/
def Call.Guarded (s : Session) (c : Call) : Prop := c.NoWrap ∧ c.Safe s

section Shows

variable {s s' : Session} {k k' : Sketch} {c : Call} {p n : ℕ}

lemma Shows.unique (hs : Shows s k) (hs' : Shows s k') : k = k' := by
  have hblocks := hs.refines.toTiled.unique hs'.refines.toTiled
  have hstart := hs.refines.start.symm.trans hs'.refines.start
  have hcurrent := hs.refines.roving.symm.trans hs'.refines.roving
  have hlive := hs.live.trans hs'.live.symm
  obtain ⟨⟨a, bs, c⟩, l⟩ := k
  obtain ⟨⟨a', bs', c'⟩, l'⟩ := k'
  simp only at hblocks hstart hcurrent hlive
  rw [hblocks, hstart, hcurrent, hlive]

/-- A live pointer is the start of an allocated block of the outline. -/
lemma Shows.occupied (hs : Shows s k) {a : Allocation} (hp : s.find p = some a) :
    ∃ j, a.size + 8 ≤ j ∧ Occupied k.outline.first k.outline.blocks p j :=
  hs.refines.first ▸ hs.sound.occupied_of_find hp

lemma Shows.realloc (hs : Shows s k) (hk : k.advance (.realloc p n) = some k') :
    Call.Guarded s (.realloc p n) ∧ ∃ s', s.step (.realloc p n) = some s' ∧ Shows s' k' := by
  simp only [Sketch.advance, hs.find_eq, Option.bind_map, Option.bind_eq_some_iff] at hk
  obtain ⟨a, hp, hk⟩ := hk
  simp only [Function.comp_apply] at hk
  split at hk
  · rename_i hguard
    obtain ⟨hn, hspares⟩ := hguard
    rw [Option.map_eq_some_iff] at hk
    obtain ⟨r, hr, rfl⟩ := hk
    obtain ⟨j, -, hocc⟩ := hs.occupied hp
    have hsafe : n = 0 ∨ ReallocSafe s.heap p n :=
      hspares.imp_right (hs.refines.reallocSafe_iff hocc).mpr
    refine ⟨⟨hn, hsafe⟩, ?_⟩
    rcases mmRealloc_outline hs.refines hocc hn hspares with
      ⟨-, hnone⟩ | ⟨h', o', q, hm, hq, hrefines⟩
    · rw [hnone] at hr
      cases hr
    obtain rfl := Option.some.inj (hq.symm.trans hr)
    obtain ⟨rfl, rfl⟩ | ⟨bs', hnull, hs', -⟩ := hs.sound.realloc
      (w := fun i => if i < min a.size n then a.written i else none) hp hn hsafe hm
    · -- the heap is full, nothing has changed
      refine ⟨s, Session.step_realloc.mpr ⟨a, _, _, hp, hm, Or.inl ⟨rfl, rfl⟩⟩, ?_⟩
      have hblocks := hrefines.toTiled.unique hs.refines.toTiled
      exact ⟨by rw [hblocks]; exact hs.sound, hrefines, by rw [if_pos rfl]; exact hs.live⟩
    · refine ⟨_, Session.step_realloc.mpr ⟨a, h', q, hp, hm, Or.inr ⟨hnull, rfl⟩⟩, ?_⟩
      obtain rfl := hrefines.toTiled.unique hs'.wellFormed.toTiled
      exact ⟨hs', hrefines, by rw [if_neg hnull, hs.others_eq]; rfl⟩
  · cases hk

/-- Every abstract call is a guarded call of the session. -/
theorem Shows.advance (hs : Shows s k) (hk : k.advance c = some k') :
    c.Guarded s ∧ ∃ s', s.step c = some s' ∧ Shows s' k' := by
  cases c with
  | realloc p n => exact hs.realloc hk
  | malloc n =>
    refine ⟨⟨?_, trivial⟩, hs.step hk⟩
    by_contra hn
    simp only [Call.NoWrap] at hn
    simp only [Sketch.advance, Sketch.step, if_neg hn] at hk
    cases hk
  | free p => exact ⟨⟨trivial, trivial⟩, hs.step hk⟩
  | write p i v => exact ⟨⟨trivial, trivial⟩, hs.step hk⟩

/-- Every guarded call of the session is an abstract one. -/
theorem Shows.follow (hs : Shows s k) (hguard : c.Guarded s) (h : s.step c = some s') :
    ∃ k', k.advance c = some k' ∧ Shows s' k' := by
  obtain ⟨hwrap, hsafe⟩ := hguard
  have hdefined : ∃ k', k.advance c = some k' := by
    cases c with
    | malloc n => exact ⟨_, if_pos hwrap⟩
    | free p =>
      obtain ⟨a, hp, -⟩ := Session.step_free.mp h
      simp only [Sketch.advance, Sketch.step, hs.find_eq, hp, Option.map_some]
      exact ⟨_, rfl⟩
    | write p i v =>
      obtain ⟨a, hp, hi, -⟩ := Session.step_write.mp h
      simp only [Sketch.advance, Sketch.step, hs.find_eq, hp, Option.map_some, Option.bind_some]
      exact ⟨_, if_pos hi⟩
    | realloc p n =>
      obtain ⟨a, h', q, hp, hm, -⟩ := Session.step_realloc.mp h
      obtain ⟨j, -, hocc⟩ := hs.occupied hp
      have hspares : n = 0 ∨ k.outline.Spares p n :=
        hsafe.imp_right (hs.refines.reallocSafe_iff hocc).mp
      rcases mmRealloc_outline hs.refines hocc hwrap hspares with
        ⟨hnone, -⟩ | ⟨h₁, o', q₁, -, hq, -⟩
      · rw [hnone] at hm
        cases hm
      simp only [Sketch.advance, hs.find_eq, hp, Option.map_some, Option.bind_some]
      rw [if_pos ⟨hwrap, hspares⟩, hq]
      exact ⟨_, rfl⟩
  obtain ⟨k', hk'⟩ := hdefined
  obtain ⟨-, s₁, hs₁, hshows⟩ := hs.advance hk'
  obtain rfl := Option.some.inj (hs₁.symm.trans h)
  exact ⟨k', hk', hshows⟩

/-- An abstract run is a guarded run of the session. -/
lemma Shows.advance_run {cs : List Call} (hs : Shows s k)
    (hk : Library.run Sketch.advance k cs = some k') :
    Permitted Session.step Call.Guarded s cs ∧
      ∃ s', Library.run Session.step s cs = some s' ∧ Shows s' k' :=
  ⟨permitted_of_simulation (fun _ _ _ _ hs hk => hs.advance hk) hs hk,
    run_of_simulation (fun _ _ _ _ hs hk => (hs.advance hk).2) hs hk⟩

/-- A guarded run of the session is an abstract run. -/
lemma Shows.follow_run {cs : List Call} (hs : Shows s k)
    (hguard : Permitted Session.step Call.Guarded s cs)
    (h : Library.run Session.step s cs = some s') :
    ∃ k', Library.run Sketch.advance k cs = some k' ∧ Shows s' k' :=
  run_of_permitted (fun _ _ _ _ hs hguard h => hs.follow hguard h) hs hguard h

end Shows

/-! ### Calls that join free blocks -/

/-- Freeing the block at `x` leaves no two free blocks side by side behind it. -/
def Outline.joins (o : Outline) (x : ℕ) : Bool :=
  match around x o.first o.blocks with
  | some (_, b, d :: e :: _) => d.alloc || e.alloc || b.tag
  | _ => true

lemma Refines.freeSafe_iff {h : Heap} {o : Outline} {x k : ℕ} (hr : Refines h o)
    (hx : Occupied o.first o.blocks x k) : FreeSafe h x ↔ o.joins x = true := by
  obtain ⟨pre, p, b, d, post, hbs, hxp, -, -, haround⟩ := hr.split hx
  have ht := hr.toTiled
  rw [hbs] at ht
  rw [← hr.first] at hxp
  have hbAt : BlockAt h.mem x b := ht.blockAt_behind hxp
  have hdAt : BlockAt h.mem (x + b.size) d := ht.blockAt_behind₂ hxp
  rw [FreeSafe, hbAt.nextBlkp, hdAt.getAlloc_hdrp, hdAt.nextBlkp, Bool.toNat_eq_zero, Outline.joins,
    haround]
  cases post with
  | nil =>
    -- the block behind is the epilogue
    have hd : d.alloc = true := by
      by_contra hfree
      have hfr : Framed ((pre ++ [p, b]) ++ d :: []) := by simpa using ht.framed
      exact (hfr.ne_nil_of_free (by simpa using hfree)).2 rfl
    simp [hd]
  | cons e post =>
    have heAt : BlockAt h.mem (x + b.size + d.size) e := ht.blockAt_behind₃ hxp
    rw [heAt.getAlloc_hdrp, hbAt.getTag_hdrp, Bool.toNat_eq_zero]
    have htag : 2 * b.tag.toNat ≠ 0 ↔ b.tag = true := by cases b.tag <;> simp
    simp only [htag, Bool.or_eq_true, ← Bool.not_eq_true]
    tauto

namespace Sketch

def joins (k : Sketch) : Call → Bool
  | .free p => k.outline.joins p
  | _ => true

/-- One call, where `mm_free` has to join all free blocks. -/
def join (k : Sketch) (c : Call) : Option Sketch := if k.joins c then k.advance c else none

end Sketch

/-- An abstract run that joins all free blocks is such a run of the session. -/
lemma Shows.join_run {s : Session} {k k' : Sketch} {cs : List Call} (hs : Shows s k)
    (hk : Library.run Sketch.join k cs = some k') :
    Permitted Session.step (fun s c => c.NoWrap ∧ c.Safe s ∧ c.JoinsAll s) s cs ∧
      ∃ s', Library.run Session.step s cs = some s' ∧ Shows s' k' := by
  have hstep : ∀ s k c k', Shows s k → k.join c = some k' →
      (c.NoWrap ∧ c.Safe s ∧ c.JoinsAll s) ∧ ∃ s', s.step c = some s' ∧ Shows s' k' := by
    intro s k c k' hs hk
    rw [Sketch.join, Option.ite_none_right_eq_some] at hk
    obtain ⟨hjoins, hk⟩ := hk
    obtain ⟨⟨hwrap, hsafe⟩, s', hs', hshows⟩ := hs.advance hk
    refine ⟨⟨hwrap, hsafe, ?_⟩, s', hs', hshows⟩
    cases c with
    | free p =>
      obtain ⟨a, hp, -⟩ := Session.step_free.mp hs'
      obtain ⟨j, -, hocc⟩ := hs.occupied hp
      exact (hs.refines.freeSafe_iff hocc).mpr hjoins
    | _ => trivial
  exact ⟨permitted_of_simulation hstep hs hk,
    run_of_simulation (fun s k c k' hs hk => (hstep s k c k' hs hk).2) hs hk⟩

/-! ### Whole sessions -/

/-- The outline and the live pointers after a session are `k` if and only if the abstract session
computes `k`, for guarded calls in any number and order. -/
theorem sessions_are_sketches {mem : Memory} {start : ℕ} (halign : start % 8 = 0) {cs : List Call}
    {k : Sketch} :
    (Permitted Session.step Call.Guarded (Session.begin mem start) cs ∧
        ∃ s, run Session.step (Session.begin mem start) cs = some s ∧ Shows s k) ↔
      run Sketch.advance (Sketch.begin start) cs = some k := by
  have hbegin := Shows.begin mem halign
  constructor
  · rintro ⟨hguard, s, hrun, hs⟩
    obtain ⟨k', hk', hs'⟩ := hbegin.follow_run hguard hrun
    rw [hk', hs'.unique hs]
  · exact fun hk => hbegin.advance_run hk

/-- Calls of `mm_realloc` that slide a block down, copy a block and extend the heap. -/
def reallocations (v : Byte) : List Call :=
  [.malloc 24, .malloc 40, .malloc 100, .malloc 16, .free 4144, .realloc 4192 16, .write 4144 3 v,
    .realloc 4112 100, .realloc 4328 5000]

lemma reallocations_sketch : ∃ k, run Sketch.advance (Sketch.begin 4096) (reallocations 7) =
    some k ∧ k.live = [(4328, 5000), (4144, 16), (4304, 16)] := by
  have h : (run Sketch.advance (Sketch.begin 4096) (reallocations 7)).map Sketch.live =
      some [(4328, 5000), (4144, 16), (4304, 16)] := by decide
  simpa only [Option.map_eq_some_iff] using h

theorem sketch_of_reallocations : ∃ k : Sketch, k.live = [(4328, 5000), (4144, 16), (4304, 16)] ∧
    Permitted Session.step Call.Guarded (Session.begin (fun _ => 0) 4096) (reallocations 7) ∧
      ∃ s, run Session.step (Session.begin (fun _ => 0) 4096) (reallocations 7) = some s ∧
        Shows s k := by
  obtain ⟨k, hk, hlive⟩ := reallocations_sketch
  exact ⟨k, hlive, (sessions_are_sketches (by decide)).mpr hk⟩

/-- A call without the byte that it writes. -/
def Call.blind : Call → Call
  | .write p i _ => .write p i 0
  | c => c

lemma Sketch.advance_blind (k : Sketch) (c : Call) : k.advance c.blind = k.advance c := by
  cases c <;> rfl

lemma Sketch.run_blind {cs : List Call} (k : Sketch) :
    run Sketch.advance k (cs.map Call.blind) = run Sketch.advance k cs := by
  induction cs generalizing k with
  | nil => rfl
  | cons c cs ih => simp only [List.map_cons, run, Sketch.advance_blind, ih]

/-- Two sessions make the same guarded calls, but the memory below them held something else and
they write other bytes. The second session is guarded too, and it has the same live pointers, the
same blocks, the same roving pointer and the same break. -/
theorem layout_ignores_contents {mem : Memory} (mem' : Memory) {start : ℕ} (halign : start % 8 = 0)
    {cs cs' : List Call} {s : Session} (hcalls : cs.map Call.blind = cs'.map Call.blind)
    (hguard : Permitted Session.step Call.Guarded (Session.begin mem start) cs)
    (hrun : run Session.step (Session.begin mem start) cs = some s) :
    Permitted Session.step Call.Guarded (Session.begin mem' start) cs' ∧
      ∃ s', run Session.step (Session.begin mem' start) cs' = some s' ∧
        s'.live.map (fun a => (a.ptr, a.size)) = s.live.map (fun a => (a.ptr, a.size)) ∧
        blockList s'.heap = blockList s.heap ∧ s'.heap.currentBlock = s.heap.currentBlock ∧
        s'.heap.memBrk = s.heap.memBrk := by
  obtain ⟨k, hk, hs⟩ := (Shows.begin mem halign).follow_run hguard hrun
  rw [← Sketch.run_blind, hcalls, Sketch.run_blind] at hk
  obtain ⟨hguard', s', hrun', hs'⟩ := (Shows.begin mem' halign).advance_run hk
  refine ⟨hguard', s', hrun', ?_, ?_, ?_, ?_⟩
  · rw [← hs.live, hs'.live]
  · rw [hs.refines.blockList_eq, hs'.refines.blockList_eq]
  · rw [hs.refines.roving, hs'.refines.roving]
  · rw [hs.refines.brk_eq, hs'.refines.brk_eq]

theorem layout_of_reallocations : ∃ s s', s.live.map (fun a => (a.ptr, a.size)) =
      [(4328, 5000), (4144, 16), (4304, 16)] ∧
    run Session.step (Session.begin (fun _ => 0) 4096) (reallocations 7) = some s ∧
    run Session.step (Session.begin (fun _ => 255) 4096) (reallocations 9) = some s' ∧
    blockList s'.heap = blockList s.heap := by
  obtain ⟨k, hk, hlive⟩ := reallocations_sketch
  obtain ⟨hguard, s, hrun, hs⟩ := (Shows.begin (fun _ => 0) (by decide)).advance_run hk
  have hcalls : (reallocations 7).map Call.blind = (reallocations 9).map Call.blind := rfl
  obtain ⟨-, s', hrun', -, hblocks, -⟩ :=
    layout_ignores_contents (fun _ => 255) (by decide) hcalls hguard hrun
  exact ⟨s, s', by rw [← hs.live, hlive], hrun, hrun', hblocks⟩

end SystemsLabs.Malloc
