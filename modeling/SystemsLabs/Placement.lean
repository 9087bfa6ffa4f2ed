import Mathlib.Data.List.GetD
import Mathlib.Tactic

/-!
# Placing processes in blocks

Both strategies place the processes one after the other, each in a block that has room for it, and
differ in the block they choose. A process that is refused would not even fit if the others after it
were not placed.
-/

namespace SystemsLabs.Placement

variable {sizes rest arraySize processSize : List ℤ} {procSize bestBlock : ℤ} {j k block : ℕ}

/-! ### The strategies -/

/-- The loop of `first` over the blocks. It ends behind the last block if none has room. -/
def firstLoop (procSize : ℤ) : List ℤ → ℕ → ℕ
  | [], block => block
  | blockSize :: rest, block =>
    if procSize ≤ blockSize then block else firstLoop procSize rest (block + 1)

/-- The entry of `allocation` and the sizes that are left. -/
def firstPlace (sizes : List ℤ) (procSize : ℤ) : ℤ × List ℤ :=
  let block := firstLoop procSize sizes 0
  if block = sizes.length then (-1, sizes)
  else (block, sizes.modify block (fun blockSize => blockSize - procSize))

/-- The loop of `best` over the blocks. -/
def bestLoop (sizes : List ℤ) (procSize : ℤ) : List ℤ → ℕ → ℤ → ℤ
  | [], _, bestBlock => bestBlock
  | blockSize :: rest, block, bestBlock =>
    if procSize ≤ blockSize ∧ (bestBlock = -1 ∨ blockSize < sizes.getD bestBlock.toNat 0) then
      bestLoop sizes procSize rest (block + 1) block
    else bestLoop sizes procSize rest (block + 1) bestBlock

def bestPlace (sizes : List ℤ) (procSize : ℤ) : ℤ × List ℤ :=
  let bestBlock := bestLoop sizes procSize sizes 0 (-1)
  if bestBlock = -1 then (-1, sizes)
  else (bestBlock, sizes.modify bestBlock.toNat (fun blockSize => blockSize - procSize))

/-- The loop over the processes. -/
def allocate (place : List ℤ → ℤ → ℤ × List ℤ) : List ℤ → List ℤ → List ℤ
  | _, [] => []
  | sizes, procSize :: rest =>
    (place sizes procSize).1 :: allocate place (place sizes procSize).2 rest

def first (arraySize processSize : List ℤ) : List ℤ := allocate firstPlace arraySize processSize

def best (arraySize processSize : List ℤ) : List ℤ := allocate bestPlace arraySize processSize

/-! ### Allocations -/

/-- The size of the processes in block `k`. -/
def used : List ℤ → List ℤ → ℕ → ℤ
  | a :: allocation, procSize :: processSize, k =>
    (if a = k then procSize else 0) + used allocation processSize k
  | _, _, _ => 0

/-- No block holds more than its size, and no block has room for a process that was refused. -/
structure Allocation (arraySize processSize allocation : List ℤ) : Prop where
  length : allocation.length = processSize.length
  blocks : ∀ a ∈ allocation, a = -1 ∨ 0 ≤ a ∧ a < arraySize.length
  room : ∀ k < arraySize.length, used allocation processSize k ≤ arraySize.getD k 0
  refused : ∀ q ∈ allocation.zip processSize, q.1 = -1 → ∀ k < arraySize.length,
    arraySize.getD k 0 < used allocation processSize k + q.2

/-- What a strategy may do with a process. -/
inductive Placed (sizes : List ℤ) (procSize : ℤ) : ℤ × List ℤ → Prop
  | placed {k : ℕ} (hk : k < sizes.length) (hroom : procSize ≤ sizes.getD k 0) :
    Placed sizes procSize (k, sizes.modify k (fun blockSize => blockSize - procSize))
  | refused (hfull : ∀ k < sizes.length, sizes.getD k 0 < procSize) :
    Placed sizes procSize (-1, sizes)

lemma used_nonneg (allocation : List ℤ) (hp : ∀ p ∈ processSize, 0 ≤ p) :
    0 ≤ used allocation processSize k := by
  induction processSize generalizing allocation with
  | nil => cases allocation <;> exact le_rfl
  | cons p processSize ih =>
    cases allocation with
    | nil => exact le_rfl
    | cons a allocation =>
      have hrest := ih allocation (fun q hq => hp q (List.mem_cons_of_mem p hq))
      have hpos := hp p List.mem_cons_self
      rw [used]
      split <;> omega

lemma getD_modify (hk : k < sizes.length) :
    (sizes.modify k (fun blockSize => blockSize - procSize)).getD j 0 =
      sizes.getD j 0 - if (k : ℤ) = j then procSize else 0 := by
  rw [List.getD_eq_getElem?_getD, List.getD_eq_getElem?_getD, List.getElem?_modify]
  by_cases hj : k = j
  · subst hj
    simp [List.getElem?_eq_getElem hk]
  · have hj' : ¬(k : ℤ) = j := by omega
    simp [hj, hj']

/-- A strategy that places every process where it fits, and refuses only what fits nowhere, makes an
allocation. -/
theorem allocation_of_placed {place : List ℤ → ℤ → ℤ × List ℤ}
    (hplace : ∀ sizes procSize, Placed sizes procSize (place sizes procSize))
    (hs : ∀ k < sizes.length, 0 ≤ sizes.getD k 0) (hp : ∀ p ∈ processSize, 0 ≤ p) :
    Allocation sizes processSize (allocate place sizes processSize) := by
  induction processSize generalizing sizes with
  | nil => exact ⟨rfl, by simp [allocate], fun k hk => hs k hk, by simp [allocate]⟩
  | cons p processSize ih =>
    have hrest : ∀ q ∈ processSize, 0 ≤ q := fun q hq => hp q (List.mem_cons_of_mem p hq)
    have hstep := hplace sizes p
    rw [allocate]
    generalize place sizes p = r at hstep
    cases hstep with
    | @placed k hk hroom =>
      dsimp only
      have hlen : (sizes.modify k (fun blockSize => blockSize - p)).length = sizes.length :=
        List.length_modify ..
      have hleft : ∀ j < (sizes.modify k (fun blockSize => blockSize - p)).length,
          0 ≤ (sizes.modify k (fun blockSize => blockSize - p)).getD j 0 := by
        intro j hj
        have hsize := hs j (hlen ▸ hj)
        rw [getD_modify hk]
        split_ifs with hkj
        · obtain rfl : k = j := by omega
          omega
        · omega
      obtain ⟨hlength, hblocks, hused, hrefused⟩ := ih hleft hrest
      rw [hlen] at hblocks hused hrefused
      constructor
      case length => rw [List.length_cons, List.length_cons, hlength]
      case blocks =>
        intro a ha
        rcases List.mem_cons.mp ha with rfl | ha
        · exact Or.inr ⟨by omega, by exact_mod_cast hk⟩
        · exact hblocks a ha
      case room =>
        intro j hj
        have hroom' := hused j hj
        rw [getD_modify hk] at hroom'
        rw [used]
        omega
      case refused =>
        intro q hq hq1 j hj
        rw [List.zip_cons_cons] at hq
        rcases List.mem_cons.mp hq with rfl | hq
        · simp only at hq1
          omega
        · have hfull := hrefused q hq hq1 j hj
          rw [getD_modify hk] at hfull
          rw [used]
          omega
    | refused hfull =>
      obtain ⟨hlength, hblocks, hused, hrefused⟩ := ih hs hrest
      have hskip : ∀ allocation (k : ℕ), used (-1 :: allocation) (p :: processSize) k =
          used allocation processSize k := by
        intro allocation k
        rw [used, if_neg (by omega), zero_add]
      constructor
      case length => rw [List.length_cons, List.length_cons, hlength]
      case blocks =>
        intro a ha
        rcases List.mem_cons.mp ha with rfl | ha
        · exact Or.inl rfl
        · exact hblocks a ha
      case room =>
        intro j hj
        rw [hskip]
        exact hused j hj
      case refused =>
        intro q hq hq1 j hj
        rw [List.zip_cons_cons] at hq
        rw [hskip]
        rcases List.mem_cons.mp hq with rfl | hq
        · have hnonneg := used_nonneg (k := j) (allocate place sizes processSize) hrest
          have hfull := hfull j hj
          simp only
          omega
        · exact hrefused q hq hq1 j hj

/-! ### The choices -/

lemma firstLoop_eq : firstLoop procSize sizes block =
    block + sizes.findIdx (fun blockSize => procSize ≤ blockSize) := by
  induction sizes generalizing block with
  | nil => rfl
  | cons blockSize sizes ih =>
    rw [firstLoop, ih, List.findIdx_cons]
    by_cases h : procSize ≤ blockSize
    · simp [h]
    · simp [h]
      omega

lemma placed_firstPlace (sizes : List ℤ) (procSize : ℤ) :
    Placed sizes procSize (firstPlace sizes procSize) := by
  simp only [firstPlace, firstLoop_eq, zero_add]
  split_ifs with hnone
  · apply Placed.refused
    intro k hk
    have hsmall := List.findIdx_eq_length.mp hnone _ (List.getElem_mem hk)
    rw [List.getD_eq_getElem _ _ hk]
    simpa using hsmall
  · have hk := lt_of_le_of_ne List.findIdx_le_length hnone
    apply Placed.placed hk
    have hroom := List.findIdx_getElem (w := hk)
    rw [List.getD_eq_getElem _ _ hk]
    simpa using hroom

/-- The smallest one of the first `n` blocks that have room, or -1. -/
def BestOf (sizes : List ℤ) (procSize : ℤ) (n : ℕ) (bestBlock : ℤ) : Prop :=
  (bestBlock = -1 ∧ ∀ i < n, sizes.getD i 0 < procSize) ∨
    ∃ k < n, bestBlock = k ∧ procSize ≤ sizes.getD k 0 ∧
      ∀ i < n, procSize ≤ sizes.getD i 0 → sizes.getD k 0 ≤ sizes.getD i 0

lemma BestOf.step (h : BestOf sizes procSize block bestBlock) :
    BestOf sizes procSize (block + 1)
      (if procSize ≤ sizes.getD block 0 ∧
        (bestBlock = -1 ∨ sizes.getD block 0 < sizes.getD bestBlock.toNat 0) then (block : ℤ)
      else bestBlock) := by
  rcases h with ⟨rfl, hfull⟩ | ⟨k, hk, rfl, hroom, hleast⟩
  · by_cases hfits : procSize ≤ sizes.getD block 0
    · rw [if_pos ⟨hfits, Or.inl rfl⟩]
      refine Or.inr ⟨block, Nat.lt_succ_self block, rfl, hfits, fun i hi hi' => ?_⟩
      rcases Nat.lt_succ_iff_lt_or_eq.mp hi with hi | rfl
      · exact absurd (hfull i hi) (not_lt.mpr hi')
      · exact le_rfl
    · rw [if_neg (fun h => hfits h.1)]
      refine Or.inl ⟨rfl, fun i hi => ?_⟩
      rcases Nat.lt_succ_iff_lt_or_eq.mp hi with hi | rfl
      · exact hfull i hi
      · exact not_le.mp hfits
  · have hne : (k : ℤ) ≠ -1 := by omega
    rw [Int.toNat_natCast]
    by_cases hbetter : procSize ≤ sizes.getD block 0 ∧
        ((k : ℤ) = -1 ∨ sizes.getD block 0 < sizes.getD k 0)
    · have hless := hbetter.2.resolve_left hne
      rw [if_pos hbetter]
      refine Or.inr ⟨block, Nat.lt_succ_self block, rfl, hbetter.1, fun i hi hi' => ?_⟩
      rcases Nat.lt_succ_iff_lt_or_eq.mp hi with hi | rfl
      · exact hless.le.trans (hleast i hi hi')
      · exact le_rfl
    · rw [if_neg hbetter]
      refine Or.inr ⟨k, by omega, rfl, hroom, fun i hi hi' => ?_⟩
      rcases Nat.lt_succ_iff_lt_or_eq.mp hi with hi | rfl
      · exact hleast i hi hi'
      · exact not_lt.mp fun hless => hbetter ⟨hi', Or.inr hless⟩

/-- The loop over the blocks keeps the best one so far. -/
lemma bestLoop_spec (h : BestOf sizes procSize block bestBlock) (hblock : block ≤ sizes.length)
    (hrest : sizes.drop block = rest) :
    BestOf sizes procSize sizes.length (bestLoop sizes procSize rest block bestBlock) := by
  induction rest generalizing block bestBlock with
  | nil =>
    have hend : sizes.length ≤ block := List.drop_eq_nil_iff.mp hrest
    obtain rfl : block = sizes.length := le_antisymm hblock hend
    exact h
  | cons blockSize rest ih =>
    have hlt : block < sizes.length := by
      by_contra hge
      rw [List.drop_of_length_le (not_lt.mp hge)] at hrest
      cases hrest
    rw [List.drop_eq_getElem_cons hlt, List.cons.injEq] at hrest
    obtain ⟨rfl, hrest⟩ := hrest
    have hstep := h.step
    rw [List.getD_eq_getElem _ _ hlt] at hstep
    rw [bestLoop]
    split_ifs at hstep ⊢ <;> exact ih hstep hlt hrest

lemma bestOf_bestLoop (sizes : List ℤ) (procSize : ℤ) :
    BestOf sizes procSize sizes.length (bestLoop sizes procSize sizes 0 (-1)) :=
  bestLoop_spec (Or.inl ⟨rfl, by simp⟩) (Nat.zero_le _) rfl

lemma placed_bestPlace (sizes : List ℤ) (procSize : ℤ) :
    Placed sizes procSize (bestPlace sizes procSize) := by
  rw [bestPlace]
  rcases bestOf_bestLoop sizes procSize with ⟨hbest, hfull⟩ | ⟨k, hk, hbest, hroom, -⟩
  · simp only [hbest, if_true]
    exact Placed.refused hfull
  · have hne : (k : ℤ) ≠ -1 := by omega
    simp only [hbest, if_neg hne, Int.toNat_natCast]
    exact Placed.placed hk hroom

/-- Both strategies make an allocation, for any blocks and processes. -/
theorem first_best_allocation (harray : ∀ s ∈ arraySize, 0 ≤ s)
    (hprocess : ∀ p ∈ processSize, 0 ≤ p) :
    Allocation arraySize processSize (first arraySize processSize) ∧
      Allocation arraySize processSize (best arraySize processSize) := by
  have hs : ∀ k < arraySize.length, 0 ≤ arraySize.getD k 0 := by
    intro k hk
    rw [List.getD_eq_getElem _ _ hk]
    exact harray _ (List.getElem_mem hk)
  exact ⟨allocation_of_placed placed_firstPlace hs hprocess,
    allocation_of_placed placed_bestPlace hs hprocess⟩

/-- The sizes of `main`. -/
theorem first_best_allocation_main :
    Allocation [30, 50, 40, 10, 20] [41, 4, 24, 15, 19]
        (first [30, 50, 40, 10, 20] [41, 4, 24, 15, 19]) ∧
      Allocation [30, 50, 40, 10, 20] [41, 4, 24, 15, 19]
        (best [30, 50, 40, 10, 20] [41, 4, 24, 15, 19]) :=
  first_best_allocation (by decide) (by decide)

end SystemsLabs.Placement
