import SystemsLabs.Library.WordBits

/-!
# Byte-addressed memory

A memory assigns a byte to every address. Words are four bytes in little-endian order.
The frame lemmas say which bytes a word store or a block move leaves alone.
-/

namespace SystemsLabs.Library

abbrev Byte := BitVec 8

abbrev Memory := ℕ → Byte

/-- The little-endian word at address `a`. -/
def loadWord (m : Memory) (a : ℕ) : ℕ :=
  (m a).toNat + 256 * (m (a + 1)).toNat + 65536 * (m (a + 2)).toNat + 16777216 * (m (a + 3)).toNat

/-- Writes the word `v` at address `a`. -/
def storeWord (m : Memory) (a v : ℕ) : Memory :=
  fun x => if a ≤ x ∧ x < a + 4 then BitVec.ofNat 8 (v / 256 ^ (x - a)) else m x

/-- Copies `n` bytes from `src` to `dst`; the two ranges may overlap. -/
def moveBytes (m : Memory) (dst src n : ℕ) : Memory :=
  fun x => if dst ≤ x ∧ x < dst + n then m (src + (x - dst)) else m x

/-- Writes the low byte of `v` to `n` bytes from `p` on. -/
def memset (m : Memory) (p v n : ℕ) : Memory :=
  fun x => if p ≤ x ∧ x < p + n then BitVec.ofNat 8 v else m x

lemma memset_apply_of_mem {m : Memory} {p v n i : ℕ} (h : i < n) :
    memset m p v n (p + i) = BitVec.ofNat 8 v := by
  unfold memset
  rw [if_pos (by omega)]

lemma memset_apply_of_disjoint {m : Memory} {p v n x : ℕ} (h : x < p ∨ p + n ≤ x) :
    memset m p v n x = m x := by
  unfold memset
  rw [if_neg (by omega)]

lemma loadWord_lt (m : Memory) (a : ℕ) : loadWord m a < 2 ^ 32 := by
  unfold loadWord
  omega

lemma loadWord_congr {m m' : Memory} {a : ℕ} (h : ∀ x, a ≤ x → x < a + 4 → m' x = m x) :
    loadWord m' a = loadWord m a := by
  unfold loadWord
  rw [h a (by omega) (by omega), h (a + 1) (by omega) (by omega), h (a + 2) (by omega) (by omega),
    h (a + 3) (by omega) (by omega)]

lemma storeWord_apply_of_disjoint {m : Memory} {a v x : ℕ} (h : x < a ∨ a + 4 ≤ x) :
    storeWord m a v x = m x := by
  unfold storeWord
  rw [if_neg (by omega)]

lemma loadWord_storeWord {m : Memory} {a v : ℕ} (hv : v < 2 ^ 32) :
    loadWord (storeWord m a v) a = v := by
  have h0 : storeWord m a v a = BitVec.ofNat 8 v := by simp [storeWord]
  have h1 : storeWord m a v (a + 1) = BitVec.ofNat 8 (v / 256) := by simp [storeWord]
  have h2 : storeWord m a v (a + 2) = BitVec.ofNat 8 (v / 65536) := by simp [storeWord]
  have h3 : storeWord m a v (a + 3) = BitVec.ofNat 8 (v / 16777216) := by simp [storeWord]
  unfold loadWord
  rw [h0, h1, h2, h3]
  simp only [BitVec.toNat_ofNat]
  omega

lemma loadWord_storeWord_of_disjoint {m : Memory} {a b v : ℕ} (h : b + 4 ≤ a ∨ a + 4 ≤ b) :
    loadWord (storeWord m a v) b = loadWord m b :=
  loadWord_congr (fun _ _ _ => storeWord_apply_of_disjoint (by omega))

lemma storeWord_comm {m : Memory} {a b v w : ℕ} (h : b + 4 ≤ a ∨ a + 4 ≤ b) :
    storeWord (storeWord m a v) b w = storeWord (storeWord m b w) a v := by
  funext x
  simp only [storeWord]
  by_cases hb : b ≤ x ∧ x < b + 4
  · rw [if_pos hb, if_neg (by omega), if_pos hb]
  · rw [if_neg hb, if_neg hb]

lemma moveBytes_apply_of_mem {m : Memory} {dst src n i : ℕ} (h : i < n) :
    moveBytes m dst src n (dst + i) = m (src + i) := by
  unfold moveBytes
  rw [if_pos (by omega), Nat.add_sub_cancel_left]

lemma moveBytes_apply_of_disjoint {m : Memory} {dst src n x : ℕ} (h : x < dst ∨ dst + n ≤ x) :
    moveBytes m dst src n x = m x := by
  unfold moveBytes
  rw [if_neg (by omega)]

/-- The two memories agree on every address outside `[lo, hi)`. -/
def AgreeOutside (lo hi : ℕ) (m m' : Memory) : Prop :=
  ∀ x, x < lo ∨ hi ≤ x → m' x = m x

namespace AgreeOutside

variable {lo hi lo' hi' : ℕ} {m m' m'' : Memory}

lemma refl (lo hi : ℕ) (m : Memory) : AgreeOutside lo hi m m := fun _ _ => rfl

lemma mono (h : AgreeOutside lo hi m m') (hlo : lo' ≤ lo) (hhi : hi ≤ hi') :
    AgreeOutside lo' hi' m m' :=
  fun x hx => h x (by omega)

lemma trans (h : AgreeOutside lo hi m m') (h' : AgreeOutside lo hi m' m'') :
    AgreeOutside lo hi m m'' :=
  fun x hx => (h' x hx).trans (h x hx)

lemma storeWord {a v : ℕ} (h : AgreeOutside lo hi m m') (hlo : lo ≤ a) (hhi : a + 4 ≤ hi) :
    AgreeOutside lo hi m (Library.storeWord m' a v) :=
  fun x hx => (storeWord_apply_of_disjoint (by omega)).trans (h x hx)

lemma moveBytes {dst src n : ℕ} (h : AgreeOutside lo hi m m') (hlo : lo ≤ dst)
    (hhi : dst + n ≤ hi) : AgreeOutside lo hi m (Library.moveBytes m' dst src n) :=
  fun x hx => (moveBytes_apply_of_disjoint (by omega)).trans (h x hx)

end AgreeOutside

end SystemsLabs.Library
