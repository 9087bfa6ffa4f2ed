import SystemsLabs.Malloc.Driver

/-!
# What an accepted replay says

The range list that the driver keeps, for any allocator package. An accepted trace leaves aligned
payloads of which every two are apart, or the later one encloses the earlier one: the test for an
overlap looks at the ends of the new payload only.
-/

namespace SystemsLabs.Malloc
open Library

/-! ### Replays -/

section Interpret

variable {σ τ : Type} {step : σ → TraceOp → Except Halt σ} {s t : σ} {ops : List TraceOp}
  {is : List ℕ} {i : ℕ}

lemma interpret_cons {op : TraceOp} : interpret step i s (op :: ops) = .ok t ↔
    ∃ u, step s op = .ok u ∧ interpret step (i + 1) u ops = .ok t := by
  rw [interpret]
  cases hop : step s op with
  | error e => simp
  | ok u => simp

/-- What every fitting request keeps, an accepted balanced trace keeps. -/
theorem interpret_invariant {P : List ℕ → σ → Prop}
    (hstep : ∀ is s op t, P is s → op.Fits is → step s op = .ok t → P (op.live is) t)
    (hs : P is s) (hbal : Balanced is ops) (h : interpret step i s ops = .ok t) :
    P (ops.foldl TraceOp.live is) t := by
  induction ops generalizing i is s with
  | nil =>
    obtain rfl := Except.ok.inj h
    exact hs
  | cons op ops ih =>
    obtain ⟨u, hu, hrest⟩ := interpret_cons.mp h
    exact ih (hstep is s op u hs hbal.1 hu) hbal.2 hrest

end Interpret

/-! ### Ranges -/

namespace Range

def Apart (r p : Range) : Prop := r.hi < p.lo ∨ p.hi < r.lo

/-- Both ends of `p` lie strictly inside `r`. -/
def Encloses (r p : Range) : Prop := r.lo < p.lo ∧ p.hi < r.hi

instance (r p : Range) : Decidable (r.Encloses p) := inferInstanceAs (Decidable (_ ∧ _))

lemma not_caughtBy {r p : Range} (hr : r.lo ≤ r.hi) :
    ¬p.caughtBy r.lo r.hi ↔ r.Apart p ∨ r.Encloses p := by
  unfold caughtBy Apart Encloses
  omega

end Range

section Ranges

variable {h : Heap} {ranges ranges' : List Range} {lo size : ℕ}

/-- The conditions under which `add_range` records a payload. -/
theorem addRange_eq_ok : addRange h ranges lo size = .ok ranges' ↔
    0 < size ∧ lo % alignment = 0 ∧ memHeapLo h ≤ lo ∧ lo + size - 1 ≤ memHeapHi h ∧
      (∀ p ∈ ranges, ¬p.caughtBy lo (lo + size - 1)) ∧ ranges' = ⟨lo, lo + size - 1⟩ :: ranges := by
  unfold addRange
  dsimp only
  by_cases h0 : size = 0
  · rw [if_pos h0]
    simp [h0]
  rw [if_neg h0]
  by_cases halign : lo % alignment ≠ 0
  · rw [if_pos halign]
    simp only [reduceCtorEq, false_iff]
    exact fun hall => halign hall.2.1
  rw [if_neg halign]
  by_cases hout : lo < memHeapLo h ∨ lo > memHeapHi h ∨ lo + size - 1 < memHeapLo h ∨
      lo + size - 1 > memHeapHi h
  · rw [if_pos hout]
    simp only [reduceCtorEq, false_iff]
    omega
  rw [if_neg hout]
  cases hfind : ranges.find? (fun p => decide (p.caughtBy lo (lo + size - 1))) with
  | some p =>
    have hp := List.find?_some hfind
    simp only [reduceCtorEq, false_iff]
    exact fun hall => hall.2.2.2.2.1 p (List.mem_of_find?_eq_some hfind) (by simpa using hp)
  | none =>
    have hnone := List.find?_eq_none.mp hfind
    simp only [decide_eq_true_eq] at hnone
    simp only [Except.ok.injEq]
    constructor
    · rintro rfl
      exact ⟨by omega, by omega, by omega, by omega, hnone, rfl⟩
    · exact fun hall => hall.2.2.2.2.2.symm

/-- `remove_range` removes the range of one index. -/
lemma removeRange_map {f : ℕ → Range} {is : List ℕ} {i : ℕ} (hnodup : is.Nodup) (hi : i ∈ is)
    (hinj : ∀ j ∈ is, (f j).lo = (f i).lo → j = i) :
    removeRange (is.map f) (f i).lo = (is.filter (· ≠ i)).map f := by
  induction is with
  | nil => cases hi
  | cons j is ih =>
    rw [List.nodup_cons] at hnodup
    rw [removeRange, List.map_cons, List.eraseP_cons]
    by_cases hj : j = i
    · subst hj
      have hall : is.filter (fun k => !decide (k = j)) = is :=
        List.filter_eq_self.mpr fun k hk => by
          simp only [Bool.not_eq_true', decide_eq_false_iff_not]
          rintro rfl
          exact hnodup.1 hk
      simp [hall]
    · have hlo : (f j).lo ≠ (f i).lo := fun heq => hj (hinj j (by simp) heq)
      have hmem : i ∈ is := (List.mem_cons.mp hi).resolve_left (Ne.symm hj)
      have hrest := ih hnodup.2 hmem fun k hk => hinj k (List.mem_cons_of_mem j hk)
      rw [removeRange] at hrest
      simp [hlo, hj, hrest]

end Ranges

/-! ### Accepted replays -/

/-- The range of the payload of index `i`. -/
def Table.payload (t : Table) (i : ℕ) : Range := ⟨t.blocks i, t.blocks i + t.blockSizes i - 1⟩

section Payload

variable {t : Table} {is : List ℕ} {i j p n : ℕ}

lemma Table.payload_remember_self : (t.remember i p n).payload i = ⟨p, p + n - 1⟩ := by
  simp [Table.payload, Table.remember]

lemma Table.payload_remember_of_ne (h : j ≠ i) : (t.remember i p n).payload j = t.payload j := by
  simp [Table.payload, Table.remember, h]

lemma Table.map_payload_remember : (is.filter (· ≠ i)).map (t.remember i p n).payload =
    (is.filter (· ≠ i)).map t.payload := by
  apply List.map_congr_left
  intro j hj
  exact Table.payload_remember_of_ne (by simpa using (List.mem_filter.mp hj).2)

/-- The later payload of two lies apart from the earlier one or encloses it. -/
def Table.Sorted (t : Table) (i j : ℕ) : Prop :=
  (t.payload i).Apart (t.payload j) ∨ (t.payload i).Encloses (t.payload j)

/-- The range list records the payloads of the live indices. -/
structure Records (is : List ℕ) (s : ValidState) : Prop where
  nodup : is.Nodup
  ranges : s.ranges = is.map s.table.payload
  sound : ∀ i ∈ is, 0 < s.table.blockSizes i ∧ s.table.blocks i % alignment = 0
  sorted : is.Pairwise s.table.Sorted

variable {s : ValidState} {h : Heap} {ranges : List Range}

lemma Records.proper (hs : Records is s) (hi : i ∈ is) :
    (s.table.payload i).lo ≤ (s.table.payload i).hi := by
  have := (hs.sound i hi).1
  simp only [Table.payload]
  omega

lemma Records.injective (hs : Records is s) (hi : i ∈ is) (hj : j ∈ is)
    (heq : (s.table.payload j).lo = (s.table.payload i).lo) : j = i := by
  have hlo : (is.map fun j => (s.table.payload j).lo).Nodup := by
    refine List.pairwise_map.mpr (hs.sorted.imp_of_mem fun hi hj hij => ?_)
    have := hs.proper hi
    have := hs.proper hj
    simp only [Table.Sorted, Range.Apart, Range.Encloses] at hij
    omega
  exact List.inj_on_of_nodup_map hlo hj hi heq

lemma Records.remove (hs : Records is s) (hi : i ∈ is) (h : Heap) :
    Records (is.filter (· ≠ i)) { s with
      heap := h
      ranges := removeRange s.ranges (s.table.blocks i) } := by
  refine ⟨hs.nodup.filter _, ?_, fun j hj => hs.sound j (List.mem_filter.mp hj).1,
    hs.sorted.filter _⟩
  rw [hs.ranges]
  exact removeRange_map hs.nodup hi fun j hj heq => hs.injective hi hj heq

lemma Records.add (hs : Records (is.filter (· ≠ i)) s)
    (hadd : addRange h s.ranges p n = .ok ranges) (h' : Heap) :
    Records (i :: is.filter (· ≠ i)) ⟨h', ranges, s.table.remember i p n⟩ := by
  obtain ⟨hn, halign, -, -, hfree, rfl⟩ := addRange_eq_ok.mp hadd
  have hne : ∀ j ∈ is.filter (· ≠ i), j ≠ i := fun j hj => by simpa using (List.mem_filter.mp hj).2
  refine ⟨List.nodup_cons.mpr ⟨fun hmem => hne i hmem rfl, hs.nodup⟩, ?_, ?_, ?_⟩
  · rw [List.map_cons, Table.payload_remember_self, Table.map_payload_remember, hs.ranges]
  · intro j hj
    rcases List.mem_cons.mp hj with rfl | hj
    · simpa [Table.remember] using ⟨hn, halign⟩
    · simpa [Table.remember, hne j hj] using hs.sound j hj
  · rw [List.pairwise_cons]
    constructor
    · intro j hj
      have hcaught := hfree (s.table.payload j) (hs.ranges ▸ List.mem_map_of_mem hj)
      rw [Table.Sorted, Table.payload_remember_self, Table.payload_remember_of_ne (hne j hj)]
      exact (Range.not_caughtBy (r := ⟨p, p + n - 1⟩) (by simp only; omega)).mp hcaught
    · refine hs.sorted.imp_of_mem fun hj hk hjk => ?_
      rwa [Table.Sorted, Table.payload_remember_of_ne (hne _ hj),
        Table.payload_remember_of_ne (hne _ hk)]

/-- What one accepted request keeps, whatever the package does. -/
theorem Records.step {A : Package} {s' : ValidState} {op : TraceOp} (hs : Records is s)
    (hfits : op.Fits is) (hok : A.validOp s op = .ok s') : Records (op.live is) s' := by
  cases op with
  | alloc i n =>
    simp only [Package.validOp] at hok
    split at hok
    · cases hok
    split at hok
    · cases hok
    split at hok
    · cases hok
    rename_i hadd
    obtain rfl := Except.ok.inj hok
    have hall : is.filter (· ≠ i) = is :=
      List.filter_eq_self.mpr fun j hj => decide_eq_true (by rintro rfl; exact hfits hj)
    exact (show Records (is.filter (· ≠ i)) s by rwa [hall]).add hadd _
  | realloc i n =>
    simp only [Package.validOp] at hok
    split at hok
    · cases hok
    rename_i h' newp _
    split at hok
    · cases hok
    split at hok
    · cases hok
    rename_i hadd
    split at hok
    · obtain rfl := Except.ok.inj hok
      have hrecords := (hs.remove hfits h').add hadd
        { h' with mem := memset h'.mem newp (i &&& 0xFF) n }
      exact hrecords
    · cases hok
  | free i =>
    obtain rfl := Except.ok.inj hok
    exact hs.remove hfits _

/-- After an accepted balanced trace, for any package: the range list records the payloads of the
live indices, these are aligned, and of two payloads the one that was allocated later lies apart
from the other or encloses it. -/
theorem accepted_payloads {A : Package} {ops : List TraceOp} (hbal : Balanced [] ops)
    (hok : A.evalMmValid h t ops = .ok s) : Records (ops.foldl TraceOp.live []) s := by
  unfold Package.evalMmValid at hok
  dsimp only at hok
  split at hok
  · cases hok
  · exact interpret_invariant (P := Records) (fun is s op t hs => hs.step)
      ⟨List.nodup_nil, rfl, by simp, List.Pairwise.nil⟩ hbal hok

end Payload

/-- A package that serves large requests around the small ones. -/
def nesting : Package where
  init h := ({ h with memBrk := h.memStartBrk + 64 }, 0)
  malloc h n := some (h, h.memStartBrk + if n ≤ 8 then 16 else 8)
  realloc h p _ := some (h, p)
  free h _ := h

theorem enclosing_accepted : ∃ s,
    nesting.evalMmValid (memInit (fun _ => 0) 4096) ⟨fun _ => 0, fun _ => 0⟩
      [.alloc 0 8, .alloc 1 24] = .ok s ∧ Records [1, 0] s ∧
        (s.table.payload 1).Encloses (s.table.payload 0) := by
  obtain ⟨s, hs, hencloses⟩ : ∃ s, nesting.evalMmValid (memInit (fun _ => 0) 4096)
      ⟨fun _ => 0, fun _ => 0⟩ [.alloc 0 8, .alloc 1 24] = .ok s ∧
        (s.table.payload 1).Encloses (s.table.payload 0) := ⟨_, rfl, by decide⟩
  exact ⟨s, hs, accepted_payloads (by decide) hs, hencloses⟩

end SystemsLabs.Malloc
