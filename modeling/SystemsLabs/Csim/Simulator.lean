import Mathlib.Data.BitVec
import Mathlib.Tactic

/-!
# The cache simulator

A cache is an array of `2 ^ s` sets of `E` blocks. Every access to a block stores the value
of one global counter in it, and a miss replaces a block whose stored value is smallest. The
counters of the program are global `int` variables. They stand with the cache here and are
natural numbers, so results about traces carry a bound on the number of accesses.
-/

namespace SystemsLabs.Csim

structure Block where
  valid : Bool
  tag : BitVec 64
  lruCount : ℕ
deriving DecidableEq, Repr, Inhabited

structure Cache where
  setList : List (List Block)
  lru : ℕ
  hits : ℕ
  misses : ℕ
  evictions : ℕ
deriving DecidableEq, Repr

def emptyBlock : Block := ⟨false, 0, 0⟩

def initCache (s E : ℕ) : Cache :=
  ⟨List.replicate (2 ^ s) (List.replicate E emptyBlock), 0, 0, 0, 0⟩

/-- The index of the set of an address. -/
def index (s b : ℕ) (addr : BitVec 64) : ℕ := ((addr >>> b) &&& BitVec.ofNat 64 (2 ^ s - 1)).toNat

/-- The tag of an address. -/
def tag (s b : ℕ) (addr : BitVec 64) : BitVec 64 := addr >>> (s + b)

/-- The first loop of `cacheAccess`. -/
def findHit (set : List Block) (t : BitVec 64) : Option ℕ :=
  set.findIdx? (fun blk => t == blk.tag && blk.valid)

/-- The second loop of `cacheAccess` from `blockIdx` on, with its variables `evictionBlock`
and `evictionLru`. -/
def findEviction : List Block → ℕ → ℕ → ℕ → ℕ
  | [], _, evictionBlock, _ => evictionBlock
  | blk :: blks, blockIdx, evictionBlock, evictionLru =>
    if evictionLru > blk.lruCount then findEviction blks (blockIdx + 1) blockIdx blk.lruCount
    else findEviction blks (blockIdx + 1) evictionBlock evictionLru

/-- The set of an address. -/
def Cache.setAt (c : Cache) (s b : ℕ) (addr : BitVec 64) : List Block :=
  c.setList.getD (index s b addr) []

def cacheAccess (s b : ℕ) (c : Cache) (addr : BitVec 64) : Cache :=
  let set := c.setAt s b addr
  match findHit set (tag s b addr) with
  | some blockIdx =>
    { c with
      setList := c.setList.set (index s b addr)
        (set.modify blockIdx (fun blk => { blk with lruCount := c.lru }))
      hits := c.hits + 1
      lru := c.lru + 1 }
  | none =>
    -- the initial value of `evictionLru` is the largest unsigned one
    let evictionBlock := findEviction set 0 0 (2 ^ 64 - 1)
    { c with
      setList := c.setList.set (index s b addr)
        (set.set evictionBlock ⟨true, tag s b addr, c.lru⟩)
      evictions := if (set.getD evictionBlock default).valid then c.evictions + 1 else c.evictions
      misses := c.misses + 1
      lru := c.lru + 1 }

/-- The kinds of trace records. -/
inductive Op
  | I
  | L
  | S
  | M
deriving DecidableEq, Repr

def simulate (s b : ℕ) (c : Cache) : List (Op × BitVec 64) → Cache
  | [] => c
  | (opt, addr) :: file =>
    if opt = Op.I then simulate s b c file
    else if opt = Op.M then simulate s b (cacheAccess s b (cacheAccess s b c addr) addr) file
    else simulate s b (cacheAccess s b c addr) file

/-- The accesses of one record. -/
def Op.accesses : Op → BitVec 64 → List (BitVec 64)
  | Op.I, _ => []
  | Op.L, addr => [addr]
  | Op.S, addr => [addr]
  | Op.M, addr => [addr, addr]

/-- The accesses of a trace, in order. -/
def accesses (file : List (Op × BitVec 64)) : List (BitVec 64) :=
  file.flatMap (fun r => r.1.accesses r.2)

/-- The cache after a list of accesses. -/
def afterAccesses (s E b : ℕ) (as : List (BitVec 64)) : Cache :=
  as.foldl (cacheAccess s b) (initCache s E)

lemma simulate_eq_foldl {s b : ℕ} (c : Cache) (file : List (Op × BitVec 64)) :
    simulate s b c file = (accesses file).foldl (cacheAccess s b) c := by
  induction file generalizing c with
  | nil => rfl
  | cons r file ih =>
    obtain ⟨opt, addr⟩ := r
    rw [accesses, List.flatMap_cons, List.foldl_append, ← accesses, ← ih, simulate]
    cases opt <;> rfl

/-- The trace enters the cache through its accesses only. -/
lemma simulate_initCache (s E b : ℕ) (file : List (Op × BitVec 64)) :
    simulate s b (initCache s E) file = afterAccesses s E b (accesses file) :=
  simulate_eq_foldl _ file

@[simp] lemma afterAccesses_nil (s E b : ℕ) : afterAccesses s E b [] = initCache s E := rfl

@[simp] lemma afterAccesses_concat (s E b : ℕ) (as : List (BitVec 64)) (a : BitVec 64) :
    afterAccesses s E b (as ++ [a]) = cacheAccess s b (afterAccesses s E b as) a := by
  simp [afterAccesses]

lemma index_lt {s : ℕ} (hs : s < 64) (b : ℕ) (addr : BitVec 64) : index s b addr < 2 ^ s := by
  have hpos : 0 < 2 ^ s := Nat.two_pow_pos s
  have hlt : 2 ^ s < 2 ^ 64 := Nat.pow_lt_pow_right (by norm_num) hs
  rw [index, BitVec.toNat_and, BitVec.toNat_ofNat, Nat.mod_eq_of_lt (by omega)]
  exact lt_of_le_of_lt Nat.and_le_right (by omega)

section Access

variable {s b : ℕ} {c : Cache} {addr : BitVec 64} {set : List Block} {t : BitVec 64}

/-- The blocks of the accessed set after the access. -/
def accessSet (lru : ℕ) (t : BitVec 64) (set : List Block) : List Block :=
  match findHit set t with
  | some blockIdx => set.modify blockIdx (fun blk => { blk with lruCount := lru })
  | none => set.set (findEviction set 0 0 (2 ^ 64 - 1)) ⟨true, t, lru⟩

def isHit (set : List Block) (t : BitVec 64) : Bool := (findHit set t).isSome

def isEviction (set : List Block) (t : BitVec 64) : Bool :=
  !isHit set t && (set.getD (findEviction set 0 0 (2 ^ 64 - 1)) default).valid

lemma cacheAccess_setList : (cacheAccess s b c addr).setList =
    c.setList.set (index s b addr) (accessSet c.lru (tag s b addr) (c.setAt s b addr)) := by
  unfold cacheAccess accessSet
  cases h : findHit (c.setAt s b addr) (tag s b addr) <;> simp only [h]

@[simp] lemma cacheAccess_lru : (cacheAccess s b c addr).lru = c.lru + 1 := by
  unfold cacheAccess
  cases h : findHit (c.setAt s b addr) (tag s b addr) <;> simp only [h]

lemma cacheAccess_hits : (cacheAccess s b c addr).hits =
    c.hits + (isHit (c.setAt s b addr) (tag s b addr)).toNat := by
  unfold cacheAccess isHit
  cases h : findHit (c.setAt s b addr) (tag s b addr) <;> simp [h]

lemma cacheAccess_misses : (cacheAccess s b c addr).misses =
    c.misses + (!isHit (c.setAt s b addr) (tag s b addr)).toNat := by
  unfold cacheAccess isHit
  cases h : findHit (c.setAt s b addr) (tag s b addr) <;> simp [h]

lemma cacheAccess_evictions : (cacheAccess s b c addr).evictions =
    c.evictions + (isEviction (c.setAt s b addr) (tag s b addr)).toNat := by
  unfold cacheAccess isEviction isHit
  cases h : findHit (c.setAt s b addr) (tag s b addr) with
  | some blockIdx => simp [h]
  | none =>
    simp only [h, Option.isSome_none, Bool.not_false, Bool.true_and]
    split <;> simp_all

end Access

section Loops

variable {set : List Block} {t : BitVec 64} {i : ℕ}

lemma findHit_eq_some (h : findHit set t = some i) :
    ∃ pre blk post, set = pre ++ blk :: post ∧ i = pre.length ∧ blk.valid = true ∧ blk.tag = t := by
  rw [findHit, List.findIdx?_eq_some_iff_getElem] at h
  obtain ⟨hi, hblk, -⟩ := h
  rw [Bool.and_eq_true, beq_iff_eq] at hblk
  refine ⟨set.take i, set[i], set.drop (i + 1), ?_, ?_, hblk.2, hblk.1.symm⟩
  · rw [List.getElem_cons_drop, List.take_append_drop]
  · rw [List.length_take, Nat.min_eq_left hi.le]

lemma findHit_eq_none : findHit set t = none ↔ ∀ blk ∈ set, blk.valid = true → blk.tag ≠ t := by
  rw [findHit, List.findIdx?_eq_none_iff]
  constructor
  · intro h blk hblk hvalid htag
    simpa [hvalid, htag] using h blk hblk
  · intro h blk hblk
    cases hvalid : blk.valid with
    | false => exact Bool.and_false _
    | true =>
      have := (h blk hblk hvalid).symm
      simp [this]

/-- The second loop keeps its block unless a later one has a smaller count, and then takes the
first of the blocks with the smallest count. -/
lemma findEviction_cases (set : List Block) (blockIdx evictionBlock evictionLru : ℕ) :
    (findEviction set blockIdx evictionBlock evictionLru = evictionBlock ∧
      ∀ blk ∈ set, evictionLru ≤ blk.lruCount) ∨
    ∃ pre blk post, set = pre ++ blk :: post ∧
      findEviction set blockIdx evictionBlock evictionLru = blockIdx + pre.length ∧
      blk.lruCount < evictionLru ∧ (∀ p ∈ pre, blk.lruCount < p.lruCount) ∧
      ∀ p ∈ post, blk.lruCount ≤ p.lruCount := by
  induction set generalizing blockIdx evictionBlock evictionLru with
  | nil => exact Or.inl ⟨rfl, by simp⟩
  | cons c set ih =>
    rw [findEviction]
    by_cases hc : evictionLru > c.lruCount
    · rw [if_pos hc]
      right
      rcases ih (blockIdx + 1) blockIdx c.lruCount with
        ⟨heq, hle⟩ | ⟨pre, blk, post, rfl, heq, hlt, hpre, hpost⟩
      · exact ⟨[], c, set, rfl, heq, hc, by simp, hle⟩
      · refine ⟨c :: pre, blk, post, rfl, ?_, by omega, ?_, hpost⟩
        · rw [heq, List.length_cons]
          omega
        · rw [List.forall_mem_cons]
          exact ⟨hlt, hpre⟩
    · rw [if_neg hc]
      rcases ih (blockIdx + 1) evictionBlock evictionLru with
        ⟨heq, hle⟩ | ⟨pre, blk, post, rfl, heq, hlt, hpre, hpost⟩
      · left
        refine ⟨heq, ?_⟩
        rw [List.forall_mem_cons]
        exact ⟨by omega, hle⟩
      · right
        refine ⟨c :: pre, blk, post, rfl, ?_, hlt, ?_, hpost⟩
        · rw [heq, List.length_cons]
          omega
        · rw [List.forall_mem_cons]
          exact ⟨by omega, hpre⟩

/-- The block that a miss replaces is the first one with the smallest count. -/
lemma findEviction_spec (hne : set ≠ []) (hlt : ∀ blk ∈ set, blk.lruCount < 2 ^ 64 - 1) :
    ∃ pre blk post, set = pre ++ blk :: post ∧ findEviction set 0 0 (2 ^ 64 - 1) = pre.length ∧
      (∀ p ∈ pre, blk.lruCount < p.lruCount) ∧ ∀ p ∈ post, blk.lruCount ≤ p.lruCount := by
  rcases findEviction_cases set 0 0 (2 ^ 64 - 1) with
    ⟨-, hle⟩ | ⟨pre, blk, post, hset, heq, -, hpre, hpost⟩
  · obtain ⟨blk, hblk⟩ := List.exists_mem_of_ne_nil set hne
    exact absurd (hle blk hblk) (Nat.not_le.mpr (hlt blk hblk))
  · rw [Nat.zero_add] at heq
    exact ⟨pre, blk, post, hset, heq, hpre, hpost⟩

end Loops

end SystemsLabs.Csim
