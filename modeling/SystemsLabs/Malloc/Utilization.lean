import SystemsLabs.Malloc.Verdict

/-!
# The other replays

Where the check of the driver passes, the two other replays pass on the heap and the table that
the check leaves, and they get the same blocks. The utilization they measure is the peak of the
bytes that the trace asks for against a heap that has room for all of them.
-/

namespace SystemsLabs.Malloc
open Library

/-! ### The bytes of a trace -/

/-- The live indices with their payload sizes. -/
def TraceOp.payloads (ps : List (ℕ × ℕ)) : TraceOp → List (ℕ × ℕ)
  | .alloc i n => (i, n) :: ps.filter (·.1 ≠ i)
  | .realloc i n => (i, n) :: ps.filter (·.1 ≠ i)
  | .free i => ps.filter (·.1 ≠ i)

/-- The payload bytes that are live. -/
def liveBytes (ps : List (ℕ × ℕ)) : ℕ := (ps.map Prod.snd).sum

/-- The most payload bytes that are live at any time. -/
def peakBytes : List (ℕ × ℕ) → List TraceOp → ℕ
  | ps, [] => liveBytes ps
  | ps, op :: ops => max (liveBytes ps) (peakBytes (op.payloads ps) ops)

namespace Plan

/-- The live indices of a plan with their payload sizes. -/
def payloads (k : Plan) : List (ℕ × ℕ) := k.live.map fun i => (i, k.table.blockSizes i)

end Plan

section Plan

variable {k k' l : Plan} {op : TraceOp} {ops : List TraceOp} {i j n : ℕ} {o : Outline}

lemma Plan.payloads_filter : (k.live.filter (· ≠ i)).map (fun j => (j, k.table.blockSizes j)) =
    k.payloads.filter (·.1 ≠ i) := by
  rw [payloads, List.filter_map]
  rfl

lemma Plan.payloads_put {p : ℕ} :
    (k.put o i p n).payloads = (i, n) :: k.payloads.filter (·.1 ≠ i) := by
  rw [← payloads_filter, payloads, Plan.put, List.map_cons]
  congr 1
  · simp [Table.remember]
  · apply List.map_congr_left
    intro j hj
    have hne : j ≠ i := by simpa using (List.mem_filter.mp hj).2
    simp [Table.remember, hne]

/-- The bytes of one index and of the others. -/
lemma Plan.liveBytes_eq (hnodup : k.live.Nodup) (hi : i ∈ k.live) :
    liveBytes k.payloads = k.table.blockSizes i + liveBytes (k.payloads.filter (·.1 ≠ i)) := by
  have hsum := List.sum_map_erase k.table.blockSizes hi
  rw [hnodup.erase_eq_filter] at hsum
  rw [← payloads_filter, liveBytes, liveBytes, payloads, List.map_map, List.map_map]
  have hfilter : k.live.filter (· ≠ i) = k.live.filter (· != i) := by
    apply List.filter_congr
    intro j _
    by_cases hj : j = i <;> simp [hj]
  rw [hfilter]
  exact hsum.symm

/-! ### Outlines -/

lemma Outline.malloc_start (o : Outline) (n : ℕ) : (o.malloc n).1.start = o.start := by
  unfold Outline.malloc
  dsimp only
  split
  · rfl
  split
  · rfl
  split <;> rfl

lemma Outline.settle_start (o : Outline) (q n : ℕ) : (o.settle q n).start = o.start := by
  unfold Outline.settle
  split
  · unfold Outline.keep
    split <;> rfl
  · rfl

lemma Outline.realloc_start {x : ℕ} {r : Outline × ℕ} (h : o.realloc x n = some r) :
    r.1.start = o.start := by
  by_cases hn : n = 0
  · rw [Outline.realloc, if_pos hn] at h
    obtain rfl := Option.some.inj h
    rfl
  rw [Outline.realloc, if_neg hn] at h
  split at h
  · dsimp only at h
    split_ifs at h <;> obtain rfl := Option.some.inj h <;>
      simp only [Outline.settle_start, Outline.absorb, Outline.lengthen, Outline.free,
        Outline.malloc_start]
  · cases h

/-- A request moves the live indices as the trace says and leaves the start of the heap. -/
lemma Plan.step_eq_ok (hok : k.step op = .ok k') :
    k'.live = op.live k.live ∧ k'.payloads = op.payloads k.payloads ∧
      k'.outline.start = k.outline.start := by
  cases op with
  | alloc i n =>
    simp only [Plan.step] at hok
    split_ifs at hok
    obtain rfl := Except.ok.inj hok
    exact ⟨rfl, payloads_put, Outline.malloc_start _ _⟩
  | realloc i n =>
    simp only [Plan.step] at hok
    split at hok
    · cases hok
    rename_i hr
    split_ifs at hok
    obtain rfl := Except.ok.inj hok
    exact ⟨rfl, payloads_put, Outline.realloc_start hr⟩
  | free i =>
    obtain rfl := Except.ok.inj hok
    exact ⟨rfl, payloads_filter (k := k), rfl⟩

lemma Plan.interpret_eq_ok (hok : interpret Plan.step i k ops = .ok k') :
    k'.live = ops.foldl TraceOp.live k.live ∧ k'.outline.start = k.outline.start := by
  induction ops generalizing i k with
  | nil =>
    obtain rfl := Except.ok.inj hok
    exact ⟨rfl, rfl⟩
  | cons op ops ih =>
    obtain ⟨u, hu, hrest⟩ := interpret_cons.mp hok
    obtain ⟨hlive, -, hstart⟩ := step_eq_ok hu
    obtain ⟨hlive', hstart'⟩ := ih hrest
    exact ⟨by rw [hlive', hlive, List.foldl_cons], hstart'.trans hstart⟩

/-! ### Tables left by earlier replays -/

/-- The plans agree but for the table entries of indices that are not live. -/
structure Plan.Alike (k l : Plan) : Prop where
  outline : k.outline = l.outline
  live : k.live = l.live
  blocks : ∀ i ∈ k.live, k.table.blocks i = l.table.blocks i
  blockSizes : ∀ i ∈ k.live, k.table.blockSizes i = l.table.blockSizes i

lemma Plan.Alike.put (ha : Alike k l) (o : Outline) (i p n : ℕ) :
    Alike (k.put o i p n) (l.put o i p n) := by
  refine ⟨rfl, by simp only [Plan.put, ha.live], fun j hj => ?_, fun j hj => ?_⟩
  all_goals
    by_cases hji : j = i
    · subst hji
      simp [Plan.put, Table.remember]
    · have hlive : j ∈ k.live := by simpa [Plan.put, hji] using hj
      simp [Plan.put, Table.remember, hji, ha.blocks j hlive, ha.blockSizes j hlive]

lemma Plan.Alike.step (ha : Alike k l) (haccept : k.Accepts op) (hok : k.step op = .ok k') :
    l.Accepts op ∧ ∃ l', l.step op = .ok l' ∧ Alike k' l' := by
  cases op with
  | alloc i n =>
    simp only [Plan.step, Plan.Accepts, ← ha.outline, ← ha.live] at hok haccept ⊢
    split_ifs at hok with hnull
    obtain rfl := Except.ok.inj hok
    rw [if_neg hnull]
    exact ⟨haccept, _, rfl, ha.put _ _ _ _⟩
  | realloc i n =>
    have hblocks := ha.blocks i haccept.1
    simp only [Plan.step, Plan.Accepts, ← ha.outline, ← ha.live, ← hblocks] at hok haccept ⊢
    split at hok
    · cases hok
    rename_i r hr
    split_ifs at hok with hnull hdata
    obtain rfl := Except.ok.inj hok
    simp only [if_neg hnull, if_neg hdata]
    exact ⟨haccept, _, rfl, ha.put _ _ _ _⟩
  | free i =>
    have hblocks := ha.blocks i haccept
    obtain rfl := Except.ok.inj hok
    simp only [Plan.step, Plan.Accepts, ← ha.outline, ← ha.live, ← hblocks] at haccept ⊢
    refine ⟨haccept, _, rfl, rfl, rfl, fun j hj => ?_, fun j hj => ?_⟩
    · exact ha.blocks j (List.mem_filter.mp hj).1
    · exact ha.blockSizes j (List.mem_filter.mp hj).1

lemma Plan.Alike.interpret (ha : Alike k l) (hlawful : k.Lawful ops)
    (hok : interpret Plan.step i k ops = .ok k') :
    l.Lawful ops ∧ ∃ l', Malloc.interpret Plan.step i l ops = .ok l' ∧ Alike k' l' := by
  induction ops generalizing i k l with
  | nil =>
    obtain rfl := Except.ok.inj hok
    exact ⟨trivial, l, rfl, ha⟩
  | cons op ops ih =>
    obtain ⟨u, hu, hrest⟩ := interpret_cons.mp hok
    obtain ⟨haccept, hops⟩ := hlawful
    rw [hu] at hops
    obtain ⟨haccept', v, hv, huv⟩ := ha.step haccept hu
    obtain ⟨hlawful', l', hl', ha'⟩ := ih huv hops hrest
    refine ⟨⟨haccept', ?_⟩, l', interpret_cons.mpr ⟨v, hv, hl'⟩, ha'⟩
    rw [hv]
    exact hlawful'

end Plan

/-! ### The replays on `mm.c` -/

/-- What the utilization replay keeps. -/
structure Measures (s : UtilState) (k : Plan) : Prop where
  follows : Follows s.heap k
  table : s.table = k.table
  total : s.totalSize = liveBytes k.payloads
  peak : s.totalSize ≤ s.maxTotalSize
  room : s.maxTotalSize + 16 ≤ memHeapsize s.heap

/-- What the timed replay keeps. -/
structure Times (s : SpeedState) (k : Plan) : Prop where
  follows : Follows s.heap k
  blocks : s.blocks = k.table.blocks

section Replays

variable {h h' : Heap} {k k' : Plan} {s : UtilState} {u : SpeedState} {v : ValidState}
  {op : TraceOp} {ops : List TraceOp} {i : ℕ} {t : Table}

/-- The heap has room for the live payloads and the boundary tags. -/
lemma Follows.liveBytes_le (hf : Follows h k) : liveBytes k.payloads + 16 ≤ memHeapsize h := by
  have hsum : (k.live.map fun i => k.table.blockSizes i + 8).sum ≤
      extent Block.size k.outline.blocks := by
    have hnodup := hf.sound.nodup
    rw [List.map_map] at hnodup
    refine sum_le_extent (a := k.outline.first) (g := k.table.blocks) hnodup fun i hi => ?_
    obtain ⟨j, hj, b, hb, -, hsize, rfl⟩ := hf.occupied hi
    exact ⟨b, hb, by omega, hj⟩
  have hprologue : 8 ≤ extent Block.size k.outline.blocks := by
    obtain ⟨mid, t, hbs, -⟩ := hf.refines.framed
    rw [hbs]
    simp
  have hbrk := hf.refines.brk_eq
  have hstart := hf.refines.start
  simp only [Outline.brk, Outline.first] at hbrk
  rw [List.sum_map_add, List.map_const', List.sum_replicate, smul_eq_mul] at hsum
  rw [liveBytes, Plan.payloads, List.map_map]
  change (k.live.map k.table.blockSizes).sum + 16 ≤ _
  simp only [memHeapsize]
  rcases Nat.eq_zero_or_pos k.live.length with hzero | hpos
  · rw [List.length_eq_zero_iff.mp hzero] at hsum ⊢
    simp only [List.map_nil, List.sum_nil]
    omega
  · omega

/-- A new block of the utilization replay, which then has `total` bytes in use. -/
lemma Measures.put {o : Outline} {p n : ℕ} {total : ℤ} (hm : Measures s k)
    (hf : Follows h (k.put o i p n)) (hsize : memHeapsize s.heap ≤ memHeapsize h)
    (htotal : total = liveBytes (k.payloads.filter (·.1 ≠ i)) + n) :
    Measures ⟨h, s.table.remember i p n, total, max s.maxTotalSize total⟩ (k.put o i p n) := by
  have hlive : total = liveBytes (k.put o i p n).payloads := by
    rw [htotal, Plan.payloads_put, liveBytes, liveBytes, List.map_cons, List.sum_cons]
    push_cast
    ring
  have hroom := hm.room
  have hbytes := hf.liveBytes_le
  refine ⟨hf, by rw [hm.table]; rfl, hlive, le_max_right _ _, ?_⟩
  simp only
  omega

/-- A request that goes on raises the maximum to the bytes that are live behind it. -/
theorem Measures.step (hm : Measures s k) (haccept : k.Accepts op) (hok : k.step op = .ok k') :
    ∃ s', mm.utilOp s op = .ok s' ∧ Measures s' k' ∧
      s'.maxTotalSize = max s.maxTotalSize (liveBytes k'.payloads) := by
  cases op with
  | alloc i n =>
    rcases hm.follows.malloc haccept with ⟨-, hnull⟩ | ⟨h', hmalloc, hp, hf, hsize, -⟩
    · simp only [Plan.step, hnull, if_true] at hok
      cases hok
    simp only [Plan.step, if_neg hp] at hok
    obtain rfl := Except.ok.inj hok
    have hall : k.payloads.filter (·.1 ≠ i) = k.payloads := by
      rw [← Plan.payloads_filter, Plan.payloads]
      congr 1
      exact List.filter_eq_self.mpr fun j hj => decide_eq_true (by rintro rfl; exact haccept.1 hj)
    have htotal : s.totalSize + n = (liveBytes (k.payloads.filter (·.1 ≠ i)) : ℤ) + n := by
      rw [hall, hm.total]
    have hput := hm.put hf hsize htotal
    refine ⟨_, by simp only [Package.utilOp, mm, hmalloc, if_neg hp], hput, ?_⟩
    rw [← hput.total]
  | realloc i n =>
    rcases hm.follows.realloc haccept with ⟨-, ho⟩ | ⟨h', r, hrealloc, ho, hr⟩
    · simp only [Plan.step, ho] at hok
      cases hok
    simp only [Plan.step, ho] at hok
    split_ifs at hok with hq hdata
    obtain rfl := Except.ok.inj hok
    obtain ⟨-, hf, hsize, -⟩ := hr.resolve_left hq
    have hbytes := Plan.liveBytes_eq hm.follows.nodup haccept.1
    have htotal : s.totalSize + (n - s.table.blockSizes i) =
        (liveBytes (k.payloads.filter (·.1 ≠ i)) : ℤ) + n := by
      rw [hm.total, hbytes, hm.table]
      push_cast
      ring
    have hput := hm.put hf hsize htotal
    refine ⟨_, ?_, hput, by rw [← hput.total]⟩
    simp only [Package.utilOp, mm, hm.table, hrealloc, if_neg hq]
  | free i =>
    obtain ⟨hf, hsize, -⟩ := hm.follows.free haccept
    have hbytes := Plan.liveBytes_eq hm.follows.nodup haccept
    have htotal := hm.total
    have hpeak := hm.peak
    have hroom := hm.room
    obtain rfl := Except.ok.inj hok
    have hpayloads : Plan.payloads ⟨k.outline.free (k.table.blocks i), k.live.filter (· ≠ i),
        k.table⟩ = k.payloads.filter (·.1 ≠ i) := Plan.payloads_filter (k := k)
    refine ⟨⟨mmFree s.heap (k.table.blocks i), s.table, s.totalSize - s.table.blockSizes i,
      s.maxTotalSize⟩, by simp only [Package.utilOp, mm, hm.table], ⟨hf, hm.table, ?_, ?_, ?_⟩, ?_⟩
    all_goals
      simp only [hpayloads, hm.table]
      omega

lemma le_peakBytes (ps : List (ℕ × ℕ)) (ops : List TraceOp) : liveBytes ps ≤ peakBytes ps ops := by
  cases ops with
  | nil => exact le_rfl
  | cons op ops => exact le_max_left _ _

lemma Measures.run (hm : Measures s k) (hlawful : k.Lawful ops)
    (hok : interpret Plan.step i k ops = .ok k') :
    ∃ s', interpret mm.utilOp i s ops = .ok s' ∧ Measures s' k' ∧
      s'.maxTotalSize = max s.maxTotalSize (peakBytes k.payloads ops) := by
  have htotal := hm.total
  have hpeak := hm.peak
  induction ops generalizing i s k with
  | nil =>
    obtain rfl := Except.ok.inj hok
    exact ⟨s, rfl, hm, by rw [peakBytes, ← htotal, max_eq_left hpeak]⟩
  | cons op ops ih =>
    obtain ⟨l, hl, hrest⟩ := interpret_cons.mp hok
    obtain ⟨haccept, hops⟩ := hlawful
    rw [hl] at hops
    obtain ⟨s₁, hs₁, hm₁, hmax⟩ := hm.step haccept hl
    obtain ⟨s', hs', hm', hmax'⟩ := ih hm₁ hops hrest hm₁.total hm₁.peak
    refine ⟨s', interpret_cons.mpr ⟨s₁, hs₁, hs'⟩, hm', ?_⟩
    have hle := le_peakBytes l.payloads ops
    obtain ⟨-, hpayloads, -⟩ := Plan.step_eq_ok hl
    rw [hmax', hmax, peakBytes, ← hpayloads]
    push_cast
    omega

theorem Times.step (hu : Times u k) (haccept : k.Accepts op) (hok : k.step op = .ok k') :
    ∃ u', mm.speedOp u op = .ok u' ∧ Times u' k' := by
  cases op with
  | alloc i n =>
    rcases hu.follows.malloc haccept with ⟨-, hnull⟩ | ⟨h', hmalloc, hp, hf, -⟩
    · simp only [Plan.step, hnull, if_true] at hok
      cases hok
    simp only [Plan.step, if_neg hp] at hok
    obtain rfl := Except.ok.inj hok
    refine ⟨_, by simp only [Package.speedOp, mm, hu.blocks, hmalloc, if_neg hp]; rfl, hf, rfl⟩
  | realloc i n =>
    rcases hu.follows.realloc haccept with ⟨-, ho⟩ | ⟨h', r, hrealloc, ho, hr⟩
    · simp only [Plan.step, ho] at hok
      cases hok
    simp only [Plan.step, ho] at hok
    split_ifs at hok with hq hdata
    obtain rfl := Except.ok.inj hok
    obtain ⟨-, hf, -⟩ := hr.resolve_left hq
    refine ⟨_, by simp only [Package.speedOp, mm, hu.blocks, hrealloc, if_neg hq]; rfl, hf, rfl⟩
  | free i =>
    obtain ⟨hf, -⟩ := hu.follows.free haccept
    obtain rfl := Except.ok.inj hok
    exact ⟨_, rfl, by rw [hu.blocks]; exact hf, hu.blocks⟩

/-! ### Behind an accepted check -/

/-- What the heap and the table are when the check accepts: those of the abstract replay. -/
lemma plan_of_accepted (halign : h.memStartBrk % 8 = 0) (hmax : h.memMaxAddr = h.memStartBrk + maxHeap)
    (hlawful : (Plan.begin h.memStartBrk t).Lawful ops) (hok : mm.evalMmValid h t ops = .ok v) :
    ∃ k, interpret Plan.step 0 (Plan.begin h.memStartBrk t) ops = .ok k ∧ Checks v k :=
  (hok ▸ evalMmValid_endAlike halign hmax hlawful).right_ok

/-- A later replay starts from the same outline with the table that the earlier one left. -/
lemma begin_replay {a : ℕ} (hlawful : (Plan.begin a t).Lawful ops)
    (hok : interpret Plan.step 0 (Plan.begin a t) ops = .ok k) (hf : Follows h k) (t' : Table) :
    (mmInit (memResetBrk h)).2 = 0 ∧ Follows (mmInit (memResetBrk h)).1 (Plan.begin a t') ∧
      (Plan.begin a t').Lawful ops ∧
      ∃ k', interpret Plan.step 0 (Plan.begin a t') ops = .ok k' ∧ k.Alike k' := by
  obtain rfl : h.memStartBrk = a := hf.refines.start.trans (Plan.interpret_eq_ok hok).2
  have hbegin := Follows.begin (h := memResetBrk h) hf.refines.aligned rfl hf.refines.maxAddr t'
  have halike : (Plan.begin h.memStartBrk t).Alike (Plan.begin h.memStartBrk t') :=
    ⟨rfl, rfl, by simp [Plan.begin], by simp [Plan.begin]⟩
  exact ⟨hbegin.1, hbegin.2, halike.interpret hlawful hok⟩

lemma evalMmUtil_follows {a : ℕ} (hcode : (mmInit (memResetBrk h)).2 = 0)
    (hf : Follows (mmInit (memResetBrk h)).1 (Plan.begin a t)) (hlawful : (Plan.begin a t).Lawful ops)
    (hok : interpret Plan.step 0 (Plan.begin a t) ops = .ok k) :
    ∃ s, mm.evalMmUtil h t ops = .ok s ∧ Measures s k ∧ s.maxTotalSize = peakBytes [] ops := by
  have hroom : (0 : ℤ) + 16 ≤ memHeapsize (mmInit (memResetBrk h)).1 := by
    have := hf.liveBytes_le
    omega
  obtain ⟨s, hs, hm, hpeak⟩ := Measures.run (s := ⟨_, t, 0, 0⟩) ⟨hf, rfl, rfl, le_rfl, hroom⟩
    hlawful hok
  refine ⟨s, ?_, hm, ?_⟩
  · simpa only [Package.evalMmUtil, mm, hcode, lt_irrefl, if_false] using hs
  · rw [hpeak]
    exact max_eq_right (Int.natCast_nonneg _)

lemma evalMmSpeed_follows {a : ℕ} (hcode : (mmInit (memResetBrk h)).2 = 0)
    (hf : Follows (mmInit (memResetBrk h)).1 (Plan.begin a t)) (hlawful : (Plan.begin a t).Lawful ops)
    (hok : interpret Plan.step 0 (Plan.begin a t) ops = .ok k) :
    ∃ u, mm.evalMmSpeed h t.blocks ops = .ok u ∧ Times u k := by
  obtain ⟨u, hu, htimes⟩ := Plan.Lawful.follow (R := Times) (fun s k op k' hs => hs.step)
    (s := ⟨_, t.blocks⟩) ⟨hf, rfl⟩ hlawful hok
  refine ⟨u, ?_, htimes⟩
  simpa only [Package.evalMmSpeed, mm, hcode, lt_irrefl, if_false] using hu

/-- Where the check accepts a lawful trace, the utilization replay passes on the heap and the table
that the check leaves, and so does the timed replay after it. All three put the live indices into
the same blocks and leave the same block list. -/
theorem replays_agree (halign : h.memStartBrk % 8 = 0)
    (hmax : h.memMaxAddr = h.memStartBrk + maxHeap)
    (hlawful : (Plan.begin h.memStartBrk t).Lawful ops) (hok : mm.evalMmValid h t ops = .ok v) :
    ∃ s u, mm.evalMmUtil v.heap v.table ops = .ok s ∧
      mm.evalMmSpeed s.heap s.table.blocks ops = .ok u ∧
      (∀ i ∈ ops.foldl TraceOp.live [], s.table.blocks i = v.table.blocks i ∧
        u.blocks i = v.table.blocks i) ∧
      blockList s.heap = blockList v.heap ∧ blockList u.heap = blockList v.heap := by
  obtain ⟨k, hk, hc⟩ := plan_of_accepted halign hmax hlawful hok
  obtain ⟨hcode, hf, hlawful₁, k₁, hk₁, halike⟩ := begin_replay hlawful hk hc.follows v.table
  obtain ⟨s, hs, hm, -⟩ := evalMmUtil_follows hcode hf hlawful₁ hk₁
  obtain ⟨hcode₂, hf₂, hlawful₂, k₂, hk₂, halike₂⟩ := begin_replay hlawful₁ hk₁ hm.follows s.table
  obtain ⟨u, hu, ht⟩ := evalMmSpeed_follows hcode₂ hf₂ hlawful₂ hk₂
  refine ⟨s, u, hs, hu, fun i hi => ?_, ?_, ?_⟩
  · have hlive : i ∈ k.live := by
      rw [(Plan.interpret_eq_ok hk).1]
      exact hi
    rw [hm.table, ht.blocks, hc.table, ← halike₂.blocks i (halike.live ▸ hlive), halike.blocks i hlive]
    exact ⟨rfl, rfl⟩
  · rw [hm.follows.refines.blockList_eq, hc.follows.refines.blockList_eq, halike.outline]
  · rw [ht.follows.refines.blockList_eq, hc.follows.refines.blockList_eq, halike.outline,
      halike₂.outline]

/-- Where the check accepts a lawful trace, the utilization replay compares the peak of the bytes
that the trace asks for with the heap size that the check has left, and the heap is larger. -/
theorem utilization_of_accepted (halign : h.memStartBrk % 8 = 0)
    (hmax : h.memMaxAddr = h.memStartBrk + maxHeap)
    (hlawful : (Plan.begin h.memStartBrk t).Lawful ops) (hok : mm.evalMmValid h t ops = .ok v) :
    ∃ s, mm.evalMmUtil v.heap v.table ops = .ok s ∧ s.maxTotalSize = peakBytes [] ops ∧
      memHeapsize s.heap = memHeapsize v.heap ∧ s.maxTotalSize + 16 ≤ memHeapsize s.heap := by
  obtain ⟨k, hk, hc⟩ := plan_of_accepted halign hmax hlawful hok
  obtain ⟨hcode, hf, hlawful₁, k₁, hk₁, halike⟩ := begin_replay hlawful hk hc.follows v.table
  obtain ⟨s, hs, hm, hpeak⟩ := evalMmUtil_follows hcode hf hlawful₁ hk₁
  refine ⟨s, hs, hpeak, ?_, hm.room⟩
  simp only [memHeapsize, hm.follows.refines.brk_eq, hm.follows.refines.start,
    hc.follows.refines.brk_eq, hc.follows.refines.start, halike.outline]

end Replays

/-- A trace with a reallocation between other requests. -/
def mixedTrace : List TraceOp := [.alloc 0 24, .alloc 1 40, .realloc 0 100, .free 1, .alloc 2 16]

lemma mixedTrace_lawful : (Plan.begin 4096 ⟨fun _ => 0, fun _ => 0⟩).Lawful mixedTrace := by
  decide

lemma mixedTrace_accepted : ∃ v, mm.evalMmValid (memInit (fun _ => 0) 4096)
    ⟨fun _ => 0, fun _ => 0⟩ mixedTrace = .ok v := by
  have halike := evalMmValid_endAlike (h := memInit (fun _ => 0) 4096) (by decide) rfl
    mixedTrace_lawful
  obtain ⟨k, hk⟩ : ∃ k, interpret Plan.step 0 (Plan.begin 4096 ⟨fun _ => 0, fun _ => 0⟩)
    mixedTrace = .ok k := ⟨_, rfl⟩
  generalize mm.evalMmValid _ _ _ = x at halike ⊢
  change EndAlike Checks x (interpret Plan.step 0 (Plan.begin 4096 _) mixedTrace) at halike
  rw [hk] at halike
  cases halike with
  | ok hc => exact ⟨_, rfl⟩

theorem replays_of_mixedTrace : ∃ v s u,
    mm.evalMmValid (memInit (fun _ => 0) 4096) ⟨fun _ => 0, fun _ => 0⟩ mixedTrace = .ok v ∧
    mm.evalMmUtil v.heap v.table mixedTrace = .ok s ∧
    mm.evalMmSpeed s.heap s.table.blocks mixedTrace = .ok u ∧
    s.table.blocks 2 = v.table.blocks 2 ∧ u.blocks 0 = v.table.blocks 0 := by
  obtain ⟨v, hv⟩ := mixedTrace_accepted
  obtain ⟨s, u, hs, hu, hblocks, -⟩ := replays_agree (by decide) rfl mixedTrace_lawful hv
  exact ⟨v, s, u, hv, hs, hu, (hblocks 2 (by decide)).1, (hblocks 0 (by decide)).2⟩

theorem utilization_of_mixedTrace : ∃ v s,
    mm.evalMmValid (memInit (fun _ => 0) 4096) ⟨fun _ => 0, fun _ => 0⟩ mixedTrace = .ok v ∧
    mm.evalMmUtil v.heap v.table mixedTrace = .ok s ∧ s.maxTotalSize = 140 ∧
    156 ≤ memHeapsize s.heap := by
  obtain ⟨v, hv⟩ := mixedTrace_accepted
  obtain ⟨s, hs, hpeak, -, hroom⟩ := utilization_of_accepted (by decide) rfl mixedTrace_lawful hv
  have hbytes : peakBytes [] mixedTrace = 140 := by decide
  rw [hbytes] at hpeak
  exact ⟨v, s, hv, hs, hpeak, by omega⟩

end SystemsLabs.Malloc
