import SystemsLabs.Library.Footprint

/-!
# Matrix transposition

The matrices lie row by row in two arrays that do not overlap. A load from `A` and a store to `B`
leave a trace of the indices they are written with.
-/

namespace SystemsLabs.Transpose
open Library

/-- An evaluated index expression `A[i][j]` or `B[i][j]`. -/
inductive Access
  | readA (i j : ℕ)
  | writeB (i j : ℕ)
deriving DecidableEq, Repr

/-- The two arrays, and the accesses so far, the latest one first. -/
structure Arrays (α : Type*) where
  A : ℕ → α
  B : ℕ → α
  trace : List Access

variable {α : Type*}

/-- The value of `A[i][j]`. -/
def load (M i j : ℕ) : StateM (Arrays α) α := fun s =>
  (s.A (i * M + j), { s with trace := Access.readA i j :: s.trace })

/-- `B[i][j] = v` -/
def store (N i j : ℕ) (v : α) : StateM (Arrays α) PUnit := fun s =>
  (⟨⟩, { s with B := Function.update s.B (i * N + j) v, trace := Access.writeB i j :: s.trace })

/-- The values of a variable that counts from `lo` up to `hi`, which is excluded. -/
def upTo (lo hi : ℕ) : List ℕ := List.range' lo (hi - lo)

/-- The multiples of 8 below `hi`. -/
def byEight (hi : ℕ) : List ℕ := List.range' 0 ((hi + 7) / 8) 8

def blockingDiag (M N ROW COL : ℕ) : StateM (Arrays α) PUnit :=
  (upTo ROW (min N (ROW + 8))).forM (fun row => do
    let tmp ← load M row row
    (upTo COL (min M (COL + 8))).forM (fun col =>
      if row = col then pure ⟨⟩
      else do
        let v ← load M row col
        store N col row v)
    store N row row tmp)

def blocking (M N ROW COL : ℕ) : StateM (Arrays α) PUnit :=
  if ROW = COL then blockingDiag M N ROW COL
  else
    (upTo COL (min (COL + 8) M)).forM (fun row =>
      (upTo ROW (min (ROW + 8) N)).forM (fun col => do
        let v ← load M col row
        store N row col v))

def blocking64 (M N ROW COL : ℕ) : StateM (Arrays α) PUnit := do
  let r0 ← load M ROW (COL + 4)
  let r1 ← load M ROW (COL + 5)
  let r2 ← load M ROW (COL + 6)
  let r3 ← load M ROW (COL + 7)
  (upTo 0 8).forM (fun i => do
    let t0 ← load M (ROW + i) (COL + 0)
    let t1 ← load M (ROW + i) (COL + 1)
    let t2 ← load M (ROW + i) (COL + 2)
    let t3 ← load M (ROW + i) (COL + 3)
    store N (COL + 0) (ROW + i) t0
    store N (COL + 1) (ROW + i) t1
    store N (COL + 2) (ROW + i) t2
    store N (COL + 3) (ROW + i) t3)
  -- the right half from the bottom up, without its first row
  (upTo 1 8).reverse.forM (fun i => do
    let t0 ← load M (ROW + i) (COL + 4)
    let t1 ← load M (ROW + i) (COL + 5)
    let t2 ← load M (ROW + i) (COL + 6)
    let t3 ← load M (ROW + i) (COL + 7)
    store N (COL + 4) (ROW + i) t0
    store N (COL + 5) (ROW + i) t1
    store N (COL + 6) (ROW + i) t2
    store N (COL + 7) (ROW + i) t3)
  store N (COL + 4) ROW r0
  store N (COL + 5) ROW r1
  store N (COL + 6) ROW r2
  store N (COL + 7) ROW r3

def transposeSubmit (M N : ℕ) : StateM (Arrays α) PUnit :=
  let transFunction := if M = 64 ∧ N = 64 then blocking64 else blocking
  (byEight N).forM (fun row => (byEight M).forM (fun col => transFunction M N row col))

def trans (M N : ℕ) : StateM (Arrays α) PUnit :=
  (upTo 0 N).forM (fun i =>
    (upTo 0 M).forM (fun j => do
      let tmp ← load M i j
      store N j i tmp))

end SystemsLabs.Transpose
