import Mathlib.Tactic

/-!
# Words between delimiters

A text is read one symbol at a time. Between words blanks are skipped; a word that starts with a
quotation mark ends at the next mark, any other one at the next blank. A word that does not end
is no word of the text.
-/

namespace SystemsLabs.Library

/-- The reader is between two words, or inside one that ends at `delim`. -/
inductive Reader (α : Type*)
  | gap
  | word (delim : α) (text : List α)

variable {α : Type*} [DecidableEq α] (blank mark : α)

/-- The words that a reader finds in the rest of a text. -/
def Reader.words : Reader α → List α → List (List α)
  | _, [] => []
  | .gap, c :: s =>
    if c = blank then words .gap s
    else if c = mark then words (.word mark []) s
    else words (.word blank [c]) s
  | .word d w, c :: s => if c = d then w :: words .gap s else words (.word d (w ++ [c])) s

/-- The words of a text. -/
def words (s : List α) : List (List α) := Reader.words blank mark .gap s

variable {blank mark} {c d : α} {s t w : List α} {k : ℕ}

@[simp] lemma words_nil : words blank mark [] = [] := rfl

/-- A word ends at the first occurrence of its delimiter. -/
lemma Reader.words_append (hd : d ∉ t) :
    Reader.words blank mark (.word d w) (t ++ d :: s) = (w ++ t) :: Library.words blank mark s := by
  induction t generalizing w with
  | nil => simp [Reader.words, Library.words]
  | cons c t ih =>
    have hc : c ≠ d := fun heq => hd (by simp [heq])
    rw [List.cons_append, Reader.words, if_neg hc, ih fun hmem => hd (List.mem_cons_of_mem c hmem)]
    simp

lemma Reader.words_of_notMem (hd : d ∉ t) : Reader.words blank mark (.word d w) t = [] := by
  induction t generalizing w with
  | nil => rfl
  | cons c t ih =>
    have hc : c ≠ d := fun heq => hd (by simp [heq])
    rw [Reader.words, if_neg hc, ih fun hmem => hd (List.mem_cons_of_mem c hmem)]

lemma words_blank : words blank mark (blank :: s) = words blank mark s := by
  simp [words, Reader.words]

lemma words_replicate : words blank mark (List.replicate k blank ++ s) = words blank mark s := by
  induction k with
  | zero => rfl
  | succ k ih => rw [List.replicate_succ, List.cons_append, words_blank, ih]

lemma words_dropWhile : words blank mark (s.dropWhile (· = blank)) = words blank mark s := by
  induction s with
  | nil => rfl
  | cons c s ih =>
    by_cases hc : c = blank
    · rw [List.dropWhile_cons_of_pos (by simpa using hc), ih, hc, words_blank]
    · rw [List.dropWhile_cons_of_neg (by simpa using hc)]

lemma words_mark (h : mark ≠ blank) :
    words blank mark (mark :: s) = Reader.words blank mark (.word mark []) s := by
  rw [words, Reader.words, if_neg h, if_pos rfl]

/-- A text that starts with neither a blank nor a mark starts with a word that ends at a blank. -/
lemma words_bare (hb : s.head? ≠ some blank) (hm : s.head? ≠ some mark) :
    words blank mark s = Reader.words blank mark (.word blank []) s := by
  cases s with
  | nil => rfl
  | cons c s =>
    have hc : c ≠ blank := by simpa using hb
    have hc' : c ≠ mark := by simpa using hm
    simp [words, Reader.words, hc, hc']

/-- Quotation undoes the reading of a text without the mark. -/
lemma words_quoted (h : mark ≠ blank) (ht : mark ∉ t) :
    words blank mark (mark :: (t ++ mark :: s)) = t :: words blank mark s := by
  rw [words_mark h, Reader.words_append ht, List.nil_append]

/-- A text without blanks that does not start with the mark is one word, if a blank follows. -/
lemma words_unquoted (ht : t ≠ []) (hb : blank ∉ t) (hm : t.head? ≠ some mark) :
    words blank mark (t ++ blank :: s) = t :: words blank mark s := by
  obtain ⟨c, t, rfl⟩ := List.exists_cons_of_ne_nil ht
  have hc : c ≠ blank := fun heq => hb (by simp [heq])
  rw [words_bare (by simpa using hc) (by simpa using hm), Reader.words_append hb, List.nil_append]

end SystemsLabs.Library
