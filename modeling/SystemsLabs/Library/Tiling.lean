import Mathlib.Data.List.Chain
import Mathlib.Data.List.Nodup
import Mathlib.Tactic

/-!
# Pieces laid end to end

A list of pieces with lengths tiles an interval of addresses. `placed len a l` pairs every
piece with its start address, the first piece starting at `a`. Pieces at different starts
never overlap, replacing consecutive pieces by others of the same total length moves no
other piece, and every address of the interval is covered by one piece.
-/

namespace SystemsLabs.Library

variable {α : Type*} (len : α → ℕ)

/-- The total length of the pieces. -/
def extent (l : List α) : ℕ := (l.map len).sum

/-- The pieces with their start addresses, the first one starting at `a`. -/
def placed (a : ℕ) : List α → List (ℕ × α)
  | [] => []
  | b :: l => (a, b) :: placed (a + len b) l

/-- The start of the piece that contains address `x`, for `x` inside the tiled interval. -/
def cover (a : ℕ) : List α → ℕ → ℕ
  | [], _ => a
  | b :: l, x => if x < a + len b then a else cover (a + len b) l x

@[simp] lemma extent_nil : extent len [] = 0 := rfl

@[simp] lemma extent_cons (b : α) (l : List α) : extent len (b :: l) = len b + extent len l := rfl

@[simp] lemma extent_append (l r : List α) : extent len (l ++ r) = extent len l + extent len r := by
  simp [extent]

@[simp] lemma placed_nil (a : ℕ) : placed len a [] = [] := rfl

@[simp] lemma placed_cons (a : ℕ) (b : α) (l : List α) :
    placed len a (b :: l) = (a, b) :: placed len (a + len b) l := rfl

@[simp] lemma placed_append (a : ℕ) (l r : List α) :
    placed len a (l ++ r) = placed len a l ++ placed len (a + extent len l) r := by
  induction l generalizing a with
  | nil => simp
  | cons b l ih => simp [ih, Nat.add_assoc]

lemma length_le_extent {l : List α} (h : ∀ b ∈ l, 0 < len b) : l.length ≤ extent len l := by
  induction l with
  | nil => simp
  | cons b l ih =>
    have := h b (by simp)
    have := ih fun c hc => h c (List.mem_cons_of_mem b hc)
    rw [List.length_cons, extent_cons]
    omega

/-- The places of pieces depend on their lengths only. -/
lemma placed_map_len (a : ℕ) (l : List α) :
    placed id a (l.map len) = (placed len a l).map (fun q => (q.1, len q.2)) := by
  induction l generalizing a with
  | nil => rfl
  | cons b l ih => simp [ih]

variable {len} {a x y : ℕ} {b c : α} {l : List α}

/-- A placed piece splits the list at its start. -/
lemma mem_placed_iff :
    (x, b) ∈ placed len a l ↔ ∃ pre post, l = pre ++ b :: post ∧ x = a + extent len pre := by
  induction l generalizing a with
  | nil => simp
  | cons c l ih =>
    rw [placed_cons, List.mem_cons, ih]
    constructor
    · rintro (h | ⟨pre, post, rfl, rfl⟩)
      · obtain ⟨rfl, rfl⟩ := Prod.mk.inj h
        exact ⟨[], l, rfl, rfl⟩
      · exact ⟨c :: pre, post, rfl, by simp [Nat.add_assoc]⟩
    · rintro ⟨pre, post, hl, rfl⟩
      cases pre with
      | nil =>
        obtain ⟨rfl, rfl⟩ := List.cons.inj hl
        exact Or.inl (by simp)
      | cons d pre =>
        obtain ⟨rfl, rfl⟩ := List.cons.inj hl
        exact Or.inr ⟨pre, post, rfl, by simp [Nat.add_assoc]⟩

lemma mem_of_mem_placed (h : (x, b) ∈ placed len a l) : b ∈ l := by
  obtain ⟨pre, post, rfl, -⟩ := mem_placed_iff.mp h
  simp

lemma le_of_mem_placed (h : (x, b) ∈ placed len a l) : a ≤ x := by
  obtain ⟨pre, post, -, rfl⟩ := mem_placed_iff.mp h
  omega

lemma add_le_of_mem_placed (h : (x, b) ∈ placed len a l) : x + len b ≤ a + extent len l := by
  obtain ⟨pre, post, rfl, rfl⟩ := mem_placed_iff.mp h
  simp only [extent_append, extent_cons]
  omega

/-- Of two placed pieces the one that starts first ends before the other starts. -/
theorem placed_disjoint (hx : (x, b) ∈ placed len a l) (hy : (y, c) ∈ placed len a l)
    (hxy : x < y) : x + len b ≤ y := by
  induction l generalizing a with
  | nil => simp at hx
  | cons d l ih =>
    rw [placed_cons, List.mem_cons] at hx hy
    rcases hx with hx | hx
    · obtain ⟨rfl, rfl⟩ := Prod.mk.inj hx
      rcases hy with hy | hy
      · obtain ⟨rfl, -⟩ := Prod.mk.inj hy
        omega
      · exact le_of_mem_placed hy
    · rcases hy with hy | hy
      · obtain ⟨rfl, -⟩ := Prod.mk.inj hy
        have := le_of_mem_placed hx
        omega
      · exact ih hx hy

/-- Pieces of positive length have different starts. -/
theorem placed_inj (hx : (x, b) ∈ placed len a l) (hy : (x, c) ∈ placed len a l)
    (hb : 0 < len b) (hc : 0 < len c) : b = c := by
  induction l generalizing a with
  | nil => simp at hx
  | cons d l ih =>
    rw [placed_cons, List.mem_cons] at hx hy
    rcases hx with hx | hx <;> rcases hy with hy | hy
    · exact (Prod.mk.inj hx).2.trans (Prod.mk.inj hy).2.symm
    · obtain ⟨rfl, rfl⟩ := Prod.mk.inj hx
      have := le_of_mem_placed hy
      omega
    · obtain ⟨rfl, rfl⟩ := Prod.mk.inj hy
      have := le_of_mem_placed hx
      omega
    · exact ih hx hy

/-- Two pieces that end at the same address are the same. -/
theorem placed_inj_end (hx : (x, b) ∈ placed len a l) (hy : (y, c) ∈ placed len a l)
    (hb : 0 < len b) (hc : 0 < len c) (hend : x + len b = y + len c) : x = y ∧ b = c := by
  rcases Nat.lt_trichotomy x y with hlt | rfl | hlt
  · have := placed_disjoint hx hy hlt
    omega
  · exact ⟨rfl, placed_inj hx hy hb hc⟩
  · have := placed_disjoint hy hx hlt
    omega

/-- Parts of different pieces have no more room than all pieces together. -/
theorem sum_le_extent {ι : Type*} {f g : ι → ℕ} {is : List ι} (hnodup : (is.map g).Nodup)
    (hplaced : ∀ i ∈ is, ∃ b, (g i, b) ∈ placed len a l ∧ 0 < len b ∧ f i ≤ len b) :
    (is.map f).sum ≤ extent len l := by
  induction l generalizing a is with
  | nil =>
    cases is with
    | nil => simp
    | cons i is =>
      obtain ⟨b, hb, -⟩ := hplaced i (by simp)
      simp at hb
  | cons c l ih =>
    rw [extent_cons]
    -- the indices whose piece lies in the tail
    have htail : ∀ i ∈ is, g i ≠ a → ∃ b, (g i, b) ∈ placed len (a + len c) l ∧ 0 < len b ∧
        f i ≤ len b := by
      intro i hi hne
      obtain ⟨b, hb, hpos⟩ := hplaced i hi
      rw [placed_cons, List.mem_cons] at hb
      exact ⟨b, hb.resolve_left fun heq => hne (Prod.mk.inj heq).1, hpos⟩
    by_cases hhead : ∃ i ∈ is, g i = a
    · obtain ⟨i, hi, rfl⟩ := hhead
      obtain ⟨b, hb, hpos, hf⟩ := hplaced i hi
      obtain ⟨pre, post, rfl⟩ := List.append_of_mem hi
      have hother : ∀ j ∈ pre ++ post, g j ≠ g i := by
        intro j hj heq
        have hperm : (pre ++ i :: post).Perm (i :: (pre ++ post)) := List.perm_middle
        have hcons := ((hperm.map g).nodup_iff.mp hnodup)
        rw [List.map_cons, List.nodup_cons] at hcons
        exact hcons.1 (heq ▸ List.mem_map_of_mem hj)
      have hsub : (pre ++ post).Sublist (pre ++ i :: post) :=
        (List.Sublist.refl pre).append (List.sublist_cons_self i post)
      rw [placed_cons, List.mem_cons] at hb
      rcases hb with hb | hb
      · obtain ⟨-, rfl⟩ := Prod.mk.inj hb
        have hrest := ih ((hsub.map g).nodup hnodup) fun j hj => htail j (hsub.subset hj) (hother j hj)
        simp only [List.map_append, List.sum_append, List.map_cons, List.sum_cons] at hrest ⊢
        omega
      · -- the head is empty
        have hempty : len c = 0 := by
          have := le_of_mem_placed hb
          omega
        refine (ih (a := g i + len c) hnodup fun j hj => ?_).trans (Nat.le_add_left _ _)
        rcases eq_or_ne (g j) (g i) with heq | hne
        · obtain rfl : j = i := List.inj_on_of_nodup_map hnodup hj hi heq
          exact ⟨b, hb, hpos, hf⟩
        · exact htail j hj hne
    · refine (ih hnodup fun j hj => htail j hj fun heq => hhead ⟨j, hj, heq⟩).trans ?_
      exact Nat.le_add_left _ _

/-- The pieces come in the order of their addresses. -/
lemma placed_pairwise (len : α → ℕ) (a : ℕ) (l : List α) :
    (placed len a l).Pairwise (fun q r => q.1 + len q.2 ≤ r.1) := by
  induction l generalizing a with
  | nil => exact List.Pairwise.nil
  | cons b l ih => exact List.pairwise_cons.mpr ⟨fun q hq => le_of_mem_placed hq, ih _⟩

variable {r : List α}

/-- The pieces that start in front of an inner boundary. -/
lemma filter_placed_lt (hl : ∀ b ∈ l, 0 < len b) :
    (placed len a (l ++ r)).filter (fun q => q.1 < a + extent len l) = placed len a l := by
  have hleft : (placed len a l).filter (fun q => q.1 < a + extent len l) = placed len a l := by
    rw [List.filter_eq_self]
    intro q hq
    have := add_le_of_mem_placed hq
    have := hl q.2 (mem_of_mem_placed hq)
    simp only [decide_eq_true_eq]
    omega
  have hright : (placed len (a + extent len l) r).filter (fun q => q.1 < a + extent len l) = [] := by
    rw [List.filter_eq_nil_iff]
    intro q hq
    have := le_of_mem_placed hq
    simp only [decide_eq_true_eq]
    omega
  rw [placed_append, List.filter_append, hleft, hright, List.append_nil]

/-- The pieces that start from an inner boundary on. -/
lemma filter_placed_ge (hl : ∀ b ∈ l, 0 < len b) :
    (placed len a (l ++ r)).filter (fun q => a + extent len l ≤ q.1) =
      placed len (a + extent len l) r := by
  have hleft : (placed len a l).filter (fun q => a + extent len l ≤ q.1) = [] := by
    rw [List.filter_eq_nil_iff]
    intro q hq
    have := add_le_of_mem_placed hq
    have := hl q.2 (mem_of_mem_placed hq)
    simp only [decide_eq_true_eq]
    omega
  have hright : (placed len (a + extent len l) r).filter (fun q => a + extent len l ≤ q.1) =
      placed len (a + extent len l) r := by
    rw [List.filter_eq_self]
    intro q hq
    have := le_of_mem_placed hq
    simp only [decide_eq_true_eq]
    omega
  rw [placed_append, List.filter_append, hleft, hright, List.nil_append]

/-- Every address of the tiled interval lies in the piece that `cover` names. -/
lemma cover_spec (hlo : a ≤ x) (hhi : x < a + extent len l) :
    ∃ b, (cover len a l x, b) ∈ placed len a l ∧ cover len a l x ≤ x ∧
      x < cover len a l x + len b := by
  induction l generalizing a with
  | nil =>
    rw [extent_nil] at hhi
    omega
  | cons c l ih =>
    rw [cover]
    by_cases hx : x < a + len c
    · rw [if_pos hx]
      exact ⟨c, by simp, hlo, hx⟩
    · rw [if_neg hx]
      rw [extent_cons] at hhi
      obtain ⟨b, hmem, hle, hlt⟩ := ih (a := a + len c) (by omega) (by omega)
      exact ⟨b, by simp [hmem], hle, hlt⟩

lemma cover_le (hx : a ≤ x) : cover len a l x ≤ x := by
  induction l generalizing a with
  | nil => exact hx
  | cons b l ih =>
    rw [cover]
    by_cases hlt : x < a + len b
    · rwa [if_pos hlt]
    · rw [if_neg hlt]
      exact ih (by omega)

lemma cover_eq (h : (y, b) ∈ placed len a l) (hlo : y ≤ x) (hhi : x < y + len b) :
    cover len a l x = y := by
  have hle := le_of_mem_placed h
  have hend := add_le_of_mem_placed h
  have hspec : ∃ c, (cover len a l x, c) ∈ placed len a l ∧ cover len a l x ≤ x ∧
      x < cover len a l x + len c := cover_spec (by omega) (by omega)
  obtain ⟨c, hmem, hcle, hclt⟩ := hspec
  rcases lt_trichotomy (cover len a l x) y with hlt | heq | hgt
  · have := placed_disjoint hmem h hlt
    omega
  · exact heq
  · have := placed_disjoint h hmem hgt
    omega

lemma cover_of_mem (h : (x, b) ∈ placed len a l) (hb : 0 < len b) : cover len a l x = x :=
  cover_eq h le_rfl (by omega)

variable {pre mid mid' post : List α}

/-- Replacing consecutive pieces by others of the same total length keeps all other places. -/
lemma mem_placed_splice (hlen : extent len mid' = extent len mid) :
    (x, b) ∈ placed len a (pre ++ mid' ++ post) ↔
      (x, b) ∈ placed len a pre ∨ (x, b) ∈ placed len (a + extent len pre) mid' ∨
        (x, b) ∈ placed len (a + extent len pre + extent len mid) post := by
  simp only [placed_append, extent_append, List.mem_append, hlen, Nat.add_assoc, or_assoc]

/-- Joining consecutive pieces into one only makes the covering pieces larger. -/
theorem cover_cover_splice {d : α} (hlen : len d = extent len mid) (hlo : a ≤ x)
    (hhi : x < a + extent len (pre ++ mid ++ post)) :
    cover len a (pre ++ d :: post) (cover len a (pre ++ mid ++ post) x) =
      cover len a (pre ++ d :: post) x := by
  obtain ⟨b, hmem, hle, hlt⟩ := cover_spec hlo hhi
  rw [mem_placed_splice rfl] at hmem
  have hplaces : ∀ {y : ℕ} {c : α}, (y, c) ∈ placed len a (pre ++ d :: post) ↔
      (y, c) ∈ placed len a pre ∨ (y = a + extent len pre ∧ c = d) ∨
        (y, c) ∈ placed len (a + extent len pre + len d) post := by
    intro y c
    simp only [placed_append, placed_cons, List.mem_append, List.mem_cons, Prod.mk.injEq]
  rcases hmem with hmem | hmem | hmem
  · rw [cover_eq (hplaces.mpr (Or.inl hmem)) le_rfl (by omega),
      cover_eq (hplaces.mpr (Or.inl hmem)) hle hlt]
  · have hstart := le_of_mem_placed hmem
    have hend := add_le_of_mem_placed hmem
    have hd := hplaces.mpr (Or.inr (Or.inl ⟨rfl, rfl⟩))
    rw [cover_eq hd (by omega) (by omega), cover_eq hd (by omega) (by omega)]
  · rw [← hlen] at hmem
    rw [cover_eq (hplaces.mpr (Or.inr (Or.inr hmem))) le_rfl (by omega),
      cover_eq (hplaces.mpr (Or.inr (Or.inr hmem))) hle hlt]

lemma cover_congr {l' : List α} (h : l.map len = l'.map len) :
    cover len a l x = cover len a l' x := by
  induction l generalizing a l' with
  | nil =>
    rw [List.map_nil, eq_comm, List.map_eq_nil_iff] at h
    rw [h]
  | cons b l ih =>
    cases l' with
    | nil => simp at h
    | cons b' l' =>
      rw [List.map_cons, List.map_cons, List.cons.injEq] at h
      rw [cover, cover, h.1, ih h.2]

/-! ### Marked pieces -/

section Marked

variable {mark : α → Bool} {k : ℕ} {l' : List α} {c' : α}

/-- A marked piece of length `k` starts at `y`. -/
def MarkedAt (len : α → ℕ) (mark : α → Bool) (a : ℕ) (l : List α) (y k : ℕ) : Prop :=
  ∃ b, (y, b) ∈ placed len a l ∧ mark b = true ∧ len b = k

lemma markedAt_head (hl : ∀ b ∈ c :: l, 0 < len b) :
    MarkedAt len mark a (c :: l) a k ↔ mark c = true ∧ len c = k := by
  constructor
  · rintro ⟨b, hb, hmark, rfl⟩
    rw [placed_cons, List.mem_cons] at hb
    rcases hb with hb | hb
    · rw [← (Prod.mk.inj hb).2]
      exact ⟨hmark, rfl⟩
    · have := le_of_mem_placed hb
      have := hl c (by simp)
      omega
  · rintro ⟨hmark, hlen⟩
    exact ⟨c, by simp, hmark, hlen⟩

lemma markedAt_tail (hl : ∀ b ∈ c :: l, 0 < len b) :
    MarkedAt len mark (a + len c) l y k ↔ MarkedAt len mark a (c :: l) y k ∧ y ≠ a := by
  have hc := hl c (by simp)
  unfold MarkedAt
  simp only [placed_cons, List.mem_cons, Prod.mk.injEq]
  constructor
  · rintro ⟨b, hb, hmark, hlen⟩
    have := le_of_mem_placed hb
    exact ⟨⟨b, Or.inr hb, hmark, hlen⟩, by omega⟩
  · rintro ⟨⟨b, ⟨rfl, -⟩ | hb, hmark, hlen⟩, hne⟩
    · exact absurd rfl hne
    · exact ⟨b, hb, hmark, hlen⟩

/-- An unmarked first piece is at least as long as the one of a tiling with the same marks. -/
lemma len_le_of_marked (hl : ∀ b ∈ c :: l, 0 < len b)
    (hsep : (c :: l).IsChain fun b d => mark b = true ∨ mark d = true) (hc : mark c = false)
    (hext : extent len (c :: l) = extent len (c' :: l'))
    (hmark : ∀ y k, MarkedAt len mark a (c :: l) y k → MarkedAt len mark a (c' :: l') y k) :
    len c' ≤ len c := by
  by_contra hlt
  rw [not_le] at hlt
  cases l with
  | nil =>
    simp only [extent_cons, extent_nil] at hext
    omega
  | cons d l =>
    have hd : mark d = true := by
      rw [List.isChain_cons_cons, hc] at hsep
      simpa using hsep.1
    have hplace : MarkedAt len mark a (c :: d :: l) (a + len c) (len d) :=
      ⟨d, by simp, hd, rfl⟩
    obtain ⟨b, hb, -, -⟩ := hmark _ _ hplace
    rw [placed_cons, List.mem_cons, Prod.mk.injEq] at hb
    have hpos := hl c (by simp)
    rcases hb with ⟨heq, -⟩ | hb
    · omega
    · have := le_of_mem_placed hb
      omega

/-- Where no two unmarked pieces are adjacent, the marked pieces and the total length determine
the tiling. -/
theorem map_eq_of_marked (hl : ∀ b ∈ l, 0 < len b) (hl' : ∀ b ∈ l', 0 < len b)
    (hsep : l.IsChain fun b d => mark b = true ∨ mark d = true)
    (hsep' : l'.IsChain fun b d => mark b = true ∨ mark d = true)
    (hext : extent len l = extent len l')
    (hmark : ∀ y k, MarkedAt len mark a l y k ↔ MarkedAt len mark a l' y k) :
    l.map (fun b => (len b, mark b)) = l'.map (fun b => (len b, mark b)) := by
  induction l generalizing a l' with
  | nil =>
    cases l' with
    | nil => rfl
    | cons c' l' =>
      have := hl' c' (by simp)
      simp only [extent_nil, extent_cons] at hext
      omega
  | cons c l ih =>
    cases l' with
    | nil =>
      have := hl c (by simp)
      simp only [extent_nil, extent_cons] at hext
      omega
    | cons c' l' =>
      have hhead : ∀ k, (mark c = true ∧ len c = k) ↔ (mark c' = true ∧ len c' = k) := fun k => by
        rw [← markedAt_head (a := a) hl, ← markedAt_head (a := a) hl']
        exact hmark a k
      have hfirst : mark c = mark c' ∧ len c = len c' := by
        cases hc : mark c with
        | true =>
          obtain ⟨hc', hlen⟩ := (hhead (len c)).mp ⟨hc, rfl⟩
          exact ⟨hc'.symm, hlen.symm⟩
        | false =>
          have hc' : mark c' = false := by
            by_contra hne
            have := ((hhead (len c')).mpr ⟨by simpa using hne, rfl⟩).1
            rw [hc] at this
            cases this
          refine ⟨hc'.symm, le_antisymm ?_ ?_⟩
          · exact len_le_of_marked hl' hsep' hc' hext.symm fun y k => (hmark y k).mpr
          · exact len_le_of_marked hl hsep hc hext fun y k => (hmark y k).mp
      have htail : ∀ y k, MarkedAt len mark (a + len c) l y k ↔
          MarkedAt len mark (a + len c) l' y k := fun y k => by
        rw [markedAt_tail hl, hmark y k, hfirst.2, markedAt_tail hl']
      have hrest := ih (fun b hb => hl b (List.mem_cons_of_mem c hb))
        (fun b hb => hl' b (List.mem_cons_of_mem c' hb)) hsep.of_cons hsep'.of_cons
        (by simp only [extent_cons] at hext; omega) htail
      rw [List.map_cons, List.map_cons, hrest, hfirst.1, hfirst.2]

end Marked

end SystemsLabs.Library
