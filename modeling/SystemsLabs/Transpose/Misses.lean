import SystemsLabs.Csim.Compulsory
import SystemsLabs.Transpose.Once

/-!
# Misses of the transpositions

The records of an execution name the elements of two arrays of `int`, wherever these lie. The order
in which the submitted transposition goes through the blocks saves misses only in caches that are too
small for the matrices.
-/

namespace SystemsLabs.Transpose
open Csim

variable {α : Type*} {M N s E b : ℕ} {addrA addrB : BitVec 64}

/-- The address of an access, in arrays of 4-byte elements at `addrA` and `addrB`. -/
def Access.address (M N : ℕ) (addrA addrB : BitVec 64) (x : Access) : BitVec 64 :=
  (match x with
    | Access.readA _ _ => addrA
    | Access.writeB _ _ => addrB) + BitVec.ofNat 64 (4 * x.place M N)

def Access.op : Access → Op
  | Access.readA _ _ => Op.L
  | Access.writeB _ _ => Op.S

/-- The records of an execution, oldest first. -/
def records (M N : ℕ) (addrA addrB : BitVec 64) (trace : List Access) : List (Op × BitVec 64) :=
  trace.reverse.map fun x => (x.op, x.address M N addrA addrB)

/-- The simulator on the records of a function that is called on the arrays `a` and `c`. -/
def simulated (s E b M N : ℕ) (addrA addrB : BitVec 64) (p : StateM (Arrays α) PUnit)
    (a c : ℕ → α) : Cache :=
  simulate s b (initCache s E) (records M N addrA addrB (p ⟨a, c, []⟩).2.trace)

lemma accesses_records (trace : List Access) : accesses (records M N addrA addrB trace) =
    trace.reverse.map (Access.address M N addrA addrB) := by
  rw [records]
  generalize trace.reverse = l
  induction l with
  | nil => rfl
  | cons x l ih =>
    rw [List.map_cons, accesses_cons, ih]
    cases x <;> rfl

lemma length_accesses_records (trace : List Access) :
    (accesses (records M N addrA addrB trace)).length = trace.length := by
  rw [accesses_records, List.length_map, List.length_reverse]

lemma accesses_records_subset {l l' : List Access} (M N : ℕ) (addrA addrB : BitVec 64) (h : l ⊆ l') :
    accesses (records M N addrA addrB l) ⊆ accesses (records M N addrA addrB l') := by
  rw [accesses_records, accesses_records]
  apply List.map_subset
  intro x hx
  exact List.mem_reverse.mpr (h (List.mem_reverse.mp hx))

/-- The blocks of one execution and of another one that makes more accesses. -/
lemma blocks_records_le {l l' extra : List Access} (M N : ℕ) (addrA addrB : BitVec 64)
    (h : l ⊆ l' ++ extra) :
    blocks b (accesses (records M N addrA addrB l)) ≤
      blocks b (accesses (records M N addrA addrB l')) + extra.length := by
  have hsubset : accesses (records M N addrA addrB l) ⊆
      accesses (records M N addrA addrB l') ++ extra.map (Access.address M N addrA addrB) := by
    intro y hy
    have hy := accesses_records_subset M N addrA addrB h hy
    simp only [accesses_records, List.mem_map, List.mem_append, List.mem_reverse] at hy ⊢
    obtain ⟨x, hx | hx, rfl⟩ := hy
    · exact Or.inl ⟨x, hx, rfl⟩
    · exact Or.inr ⟨x, hx, rfl⟩
  have hle := (blocks_le (b := b) hsubset).trans blocks_append_le
  rwa [List.length_map] at hle

lemma length_strays_le : (strays M N).length ≤ N := by
  rw [strays]
  exact (List.length_filter_le _ _).trans_eq List.length_range

end SystemsLabs.Transpose
