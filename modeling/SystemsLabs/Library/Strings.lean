import SystemsLabs.Library.ByteMemory

/-!
# Strings in memory

A string in memory ends with a zero byte. The functions of `string.h` walk to that byte; a walk
is given a number of steps, and its result is `none` when they do not suffice. A string can be
cut in place: a zero over one of its bytes leaves the strings on both sides of that byte.
-/

namespace SystemsLabs.Library

/-- The string `s` and its terminator stand at address `p`. -/
def StringAt (m : Memory) (p : ℕ) : List Byte → Prop
  | [] => m p = 0
  | c :: s => m p = c ∧ c ≠ 0 ∧ StringAt m (p + 1) s

/-- Copies a string and its terminator to `p`. -/
def strcpy (m : Memory) (p : ℕ) : List Byte → Memory
  | [] => Function.update m p 0
  | c :: s => strcpy (Function.update m p c) (p + 1) s

def strlen (m : Memory) : ℕ → ℕ → Option ℕ
  | 0, _ => none
  | fuel + 1, p => if m p = 0 then some 0 else (strlen m fuel (p + 1)).map (· + 1)

/-- The first occurrence of `c` in the string at `p`, or a null pointer. -/
def strchr (m : Memory) (c : Byte) : ℕ → ℕ → Option (Option ℕ)
  | 0, _ => none
  | fuel + 1, p =>
    if m p = c then some (some p) else if m p = 0 then some none else strchr m c fuel (p + 1)

/-- The string at `p`. -/
def readString (m : Memory) : ℕ → ℕ → Option (List Byte)
  | 0, _ => none
  | fuel + 1, p => if m p = 0 then some [] else (readString m fuel (p + 1)).map (m p :: ·)

section StringAt

variable {m m' : Memory} {p q fuel : ℕ} {c d : Byte} {s t : List Byte}

lemma StringAt.congr (h : StringAt m p s) (hm : ∀ x, p ≤ x → x ≤ p + s.length → m' x = m x) :
    StringAt m' p s := by
  induction s generalizing p with
  | nil => exact (hm p le_rfl le_rfl).trans h
  | cons c s ih =>
    obtain ⟨hp, hc, hs⟩ := h
    simp only [List.length_cons] at hm
    refine ⟨(hm p le_rfl (by omega)).trans hp, hc, ih hs ?_⟩
    intro x h1 h2
    exact hm x (by omega) (by omega)

lemma StringAt.right (h : StringAt m p (s ++ t)) : StringAt m (p + s.length) t := by
  induction s generalizing p with
  | nil => exact h
  | cons c s ih =>
    have hs := ih h.2.2
    rw [List.length_cons, Nat.add_comm s.length, ← Nat.add_assoc]
    exact hs

lemma StringAt.head_eq (h : StringAt m p s) : m p = s.headD 0 := by
  cases s with
  | nil => exact h
  | cons c s => exact h.1

/-- The end of a string is replaced, while its other bytes stay. -/
lemma StringAt.splice {t' : List Byte} (h : StringAt m p (s ++ t))
    (hm : ∀ x, p ≤ x → x < p + s.length → m' x = m x) (ht : StringAt m' (p + s.length) t') :
    StringAt m' p (s ++ t') := by
  induction s generalizing p with
  | nil => exact ht
  | cons b s ih =>
    obtain ⟨hp, hb, hs⟩ := h
    rw [List.length_cons, Nat.add_comm s.length, ← Nat.add_assoc] at hm ht
    refine ⟨(hm p le_rfl (by omega)).trans hp, hb, ih hs ?_ ht⟩
    intro x h1 h2
    exact hm x (by omega) (by omega)

lemma StringAt.behind_set (h : StringAt m p (s ++ c :: t)) (d : Byte) :
    StringAt (Function.update m (p + s.length) d) (p + s.length + 1) t := by
  have ht : StringAt m (p + s.length + 1) t := h.right.2.2
  exact ht.congr fun x h1 _ => Function.update_of_ne (by omega) _ _

/-- A byte other than zero over a byte of a string. -/
lemma StringAt.set (h : StringAt m p (s ++ c :: t)) (hd : d ≠ 0) :
    StringAt (Function.update m (p + s.length) d) p (s ++ d :: t) :=
  h.splice (fun _ _ hx => Function.update_of_ne (Nat.ne_of_lt hx) _ _)
    ⟨Function.update_self _ _ _, hd, h.behind_set d⟩

/-- A zero over a byte of a string leaves what stands in front of it. -/
lemma StringAt.cut (h : StringAt m p (s ++ c :: t)) :
    StringAt (Function.update m (p + s.length) 0) p s := by
  have hnil : StringAt (Function.update m (p + s.length) 0) (p + s.length) [] :=
    Function.update_self _ _ _
  have hfront := h.splice (fun _ _ hx => Function.update_of_ne (Nat.ne_of_lt hx) _ _) hnil
  rwa [List.append_nil] at hfront

lemma StringAt.strlen (h : StringAt m p s) (hfuel : s.length < fuel) :
    Library.strlen m fuel p = some s.length := by
  induction s generalizing p fuel with
  | nil =>
    cases fuel with
    | zero => simp at hfuel
    | succ fuel => exact if_pos h
  | cons c s ih =>
    cases fuel with
    | zero => simp at hfuel
    | succ fuel =>
      obtain ⟨hp, hc, hs⟩ := h
      rw [Library.strlen, if_neg (hp ▸ hc), ih hs (Nat.lt_of_succ_lt_succ hfuel)]
      rfl

lemma StringAt.readString (h : StringAt m p s) (hfuel : s.length < fuel) :
    Library.readString m fuel p = some s := by
  induction s generalizing p fuel with
  | nil =>
    cases fuel with
    | zero => simp at hfuel
    | succ fuel => exact if_pos h
  | cons c s ih =>
    cases fuel with
    | zero => simp at hfuel
    | succ fuel =>
      obtain ⟨hp, hc, hs⟩ := h
      rw [Library.readString, if_neg (hp ▸ hc), ih hs (Nat.lt_of_succ_lt_succ hfuel), hp]
      rfl

lemma StringAt.strchr_some (h : StringAt m p (s ++ c :: t)) (hc : c ∉ s) (hfuel : s.length < fuel) :
    strchr m c fuel p = some (some (p + s.length)) := by
  induction s generalizing p fuel with
  | nil =>
    cases fuel with
    | zero => simp at hfuel
    | succ fuel => exact if_pos h.1
  | cons b s ih =>
    cases fuel with
    | zero => simp at hfuel
    | succ fuel =>
      obtain ⟨hp, hb, hs⟩ := h
      rw [List.mem_cons, not_or] at hc
      rw [strchr, hp, if_neg (Ne.symm hc.1), if_neg hb, ih hs hc.2 (Nat.lt_of_succ_lt_succ hfuel),
        List.length_cons, Nat.add_comm s.length, Nat.add_assoc]

lemma StringAt.strchr_none (h : StringAt m p s) (hc : c ∉ s) (h0 : c ≠ 0) (hfuel : s.length < fuel) :
    strchr m c fuel p = some none := by
  induction s generalizing p fuel with
  | nil =>
    cases fuel with
    | zero => simp at hfuel
    | succ fuel =>
      have hp : m p = 0 := h
      rw [strchr, hp, if_neg h0.symm, if_pos rfl]
  | cons b s ih =>
    cases fuel with
    | zero => simp at hfuel
    | succ fuel =>
      obtain ⟨hp, hb, hs⟩ := h
      rw [List.mem_cons, not_or] at hc
      rw [strchr, hp, if_neg (Ne.symm hc.1), if_neg hb, ih hs hc.2 (Nat.lt_of_succ_lt_succ hfuel)]

end StringAt

lemma strcpy_apply_of_lt {m : Memory} {p x : ℕ} {s : List Byte} (hx : x < p) :
    strcpy m p s x = m x := by
  induction s generalizing m p with
  | nil => exact Function.update_of_ne (by omega) _ _
  | cons c s ih =>
    rw [strcpy, ih (by omega)]
    exact Function.update_of_ne (by omega) _ _

lemma stringAt_strcpy (m : Memory) (p : ℕ) {s : List Byte} (hs : ∀ c ∈ s, c ≠ 0) :
    StringAt (strcpy m p s) p s := by
  induction s generalizing m p with
  | nil => simp [strcpy, StringAt]
  | cons c s ih =>
    refine ⟨?_, hs c (by simp), ih _ _ fun d hd => hs d (List.mem_cons_of_mem c hd)⟩
    rw [strcpy, strcpy_apply_of_lt (by omega)]
    simp

end SystemsLabs.Library
