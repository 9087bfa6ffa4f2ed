import Mathlib.Data.Set.Lattice
import Mathlib.Tactic

/-!
# Footprints of stateful programs

A relation between states that is indexed by a set says what a program touches. It composes along
sequences and loops, where the sets are united. Programs with disjoint footprints touch nothing twice.
-/

namespace SystemsLabs.Library

variable {σ ι κ β : Type*}

/-- Doing nothing touches nothing, and one thing after the other touches both sets. -/
structure Footprint (R : Set ι → σ → σ → Prop) : Prop where
  refl : ∀ s, R ∅ s s
  trans : ∀ {S T s t u}, R S s t → R T t u → R (S ∪ T) s u

/-- Every run of the program has the footprint `S`. -/
def Leaves (R : Set ι → σ → σ → Prop) (p : StateM σ PUnit) (S : Set ι) : Prop :=
  ∀ s, R S s (p s).2

variable {R : Set ι → σ → σ → Prop} {p q : StateM σ PUnit} {S T : Set ι}

lemma Leaves.congr (h : Leaves R p S) (heq : S = T) : Leaves R p T := heq ▸ h

lemma Footprint.pure (hR : Footprint R) : Leaves R (Pure.pure PUnit.unit) ∅ := hR.refl

lemma Footprint.seq (hR : Footprint R) (hp : Leaves R p S) (hq : Leaves R q T) :
    Leaves R (p >>= fun _ => q) (S ∪ T) :=
  fun s => hR.trans (hp s) (hq (p s).2)

/-- A loop has the footprints of its rounds. -/
lemma Footprint.forM (hR : Footprint R) {l : List κ} {body : κ → StateM σ PUnit} {P : κ → Set ι}
    (hbody : ∀ x ∈ l, Leaves R (body x) (P x)) : Leaves R (l.forM body) (⋃ x ∈ l, P x) := by
  induction l with
  | nil =>
    apply hR.pure.congr
    simp
  | cons x l ih =>
    rw [List.forall_mem_cons] at hbody
    apply (hR.seq hbody.1 (ih hbody.2)).congr
    simp

/-- Every run of the program puts different values of `S` in front of a list. -/
def Prepends (trace : σ → List ι) (p : StateM σ PUnit) (S : Set ι) : Prop :=
  ∀ s, ∃ l, trace (p s).2 = l ++ trace s ∧ l.Nodup ∧ ∀ x ∈ l, x ∈ S

variable {trace : σ → List ι}

lemma Prepends.mono (h : Prepends trace p S) (hST : ∀ x ∈ S, x ∈ T) : Prepends trace p T := by
  intro s
  obtain ⟨l, heq, hnodup, hmem⟩ := h s
  exact ⟨l, heq, hnodup, fun x hx => hST x (hmem x hx)⟩

lemma prepends_pure : Prepends trace (Pure.pure PUnit.unit) S := fun _ => ⟨[], rfl, by simp⟩

lemma Prepends.seq (hp : Prepends trace p S) (hq : Prepends trace q T) (hST : ∀ x ∈ S, x ∉ T) :
    Prepends trace (p >>= fun _ => q) (S ∪ T) := by
  intro s
  obtain ⟨l, heq, hl, hlS⟩ := hp s
  obtain ⟨l', heq', hl', hlT⟩ := hq (p s).2
  refine ⟨l' ++ l, ?_, ?_, ?_⟩
  · rw [List.append_assoc, ← heq, ← heq']
    rfl
  · apply hl'.append hl
    intro x hx' hx
    exact hST x (hlS x hx) (hlT x hx')
  · intro x hx
    exact (List.mem_append.mp hx).elim (fun h => Or.inr (hlT x h)) (fun h => Or.inl (hlS x h))

/-- The rounds of a loop touch nothing twice if they are apart. -/
lemma Prepends.forM {l : List κ} {body : κ → StateM σ PUnit} {P : κ → Set ι} (hl : l.Nodup)
    (hbody : ∀ k ∈ l, Prepends trace (body k) (P k))
    (hP : ∀ k ∈ l, ∀ k' ∈ l, k ≠ k' → ∀ x ∈ P k, x ∉ P k') :
    Prepends trace (l.forM body) {x | ∃ k ∈ l, x ∈ P k} := by
  induction l with
  | nil => exact prepends_pure
  | cons k l ih =>
    obtain ⟨hk, hl⟩ := List.nodup_cons.mp hl
    have hrest := ih hl (fun k' hk' => hbody k' (List.mem_cons_of_mem k hk'))
      (fun k₁ h₁ k₂ h₂ => hP k₁ (List.mem_cons_of_mem k h₁) k₂ (List.mem_cons_of_mem k h₂))
    apply ((hbody k (by simp)).seq hrest ?_).mono
    · rintro x (hx | ⟨k', hk', hx⟩)
      · exact ⟨k, by simp, hx⟩
      · exact ⟨k', List.mem_cons_of_mem k hk', hx⟩
    · rintro x hx ⟨k', hk', hx'⟩
      have hne : k ≠ k' := by
        rintro rfl
        exact hk hk'
      exact hP k (by simp) k' (List.mem_cons_of_mem k hk') hne x hx hx'

end SystemsLabs.Library
