import SystemsLabs.Library.Strings
import SystemsLabs.Library.Words

/-!
# Parsing a command line

`parseline` copies a line into its own buffer, cuts it there and stores the starts of the pieces
into `argv`. It stores what a reader of the line finds, but it does not know how long `argv` is.
-/

namespace SystemsLabs.Tsh
open Library

/-- `MAXLINE` -/
abbrev maxLine : ℕ := 1024

/-- `MAXARGS` -/
abbrev maxArgs : ℕ := 128

def space : Byte := 32

def quote : Byte := 39

def newline : Byte := 10

def ampersand : Byte := 38

/-! ### `parseline` -/

/-- The loop that ignores spaces. -/
def skipSpaces (m : Memory) : ℕ → ℕ → Option ℕ
  | 0, _ => none
  | fuel + 1, buf =>
    if m buf ≠ 0 ∧ m buf = space then skipSpaces m fuel (buf + 1) else some buf

/-- The start of the next argument, and the delimiter behind it if there is one. -/
def nextArg (m : Memory) (buf : ℕ) : Option (ℕ × Option ℕ) := do
  let buf ← skipSpaces m maxLine buf
  if m buf = quote then
    let delim ← strchr m quote maxLine (buf + 1)
    some (buf + 1, delim)
  else
    let delim ← strchr m space maxLine buf
    some (buf, delim)

/-- The loop that builds the argument list. A store into `argv` is a value, which may be `NULL`,
with its index. -/
def parseLoop : ℕ → Memory → ℕ → Option ℕ → ℕ → List (Option ℕ × ℕ) →
    Option (Memory × ℕ × List (Option ℕ × ℕ))
  | 0, _, _, _, _, _ => none
  | _ + 1, m, _, none, argc, stores => some (m, argc, stores)
  | fuel + 1, m, buf, some delim, argc, stores => do
    let m := Function.update m delim 0
    let (next, delim) ← nextArg m (delim + 1)
    parseLoop fuel m next delim (argc + 1) (stores ++ [(some buf, argc)])

/-- The value stored last at an index of `argv`. -/
def entry (stores : List (Option ℕ × ℕ)) (i : ℕ) : Option (Option ℕ) :=
  (stores.reverse.find? (fun q => q.2 = i)).map Prod.fst

/-- The memory, the stores into `argv` and the return value. -/
structure Parsed where
  mem : Memory
  stores : List (Option ℕ × ℕ)
  bg : ℕ

/-- Parses the string `cmdline` in the buffer at `array`. -/
def parseline (m : Memory) (array : ℕ) (cmdline : List Byte) : Option Parsed := do
  let m := strcpy m array cmdline
  let n ← strlen m maxLine array
  let m := Function.update m (array + n - 1) space
  let (buf, delim) ← nextArg m array
  let (m, argc, stores) ← parseLoop maxLine m buf delim 0 []
  let stores := stores ++ [(none, argc)]
  if argc = 0 then some ⟨m, stores, 1⟩
  else
    let p ← (entry stores (argc - 1)).join
    if m p = ampersand then some ⟨m, stores ++ [(none, argc - 1)], 1⟩ else some ⟨m, stores, 0⟩

/-! ### The stores -/

section Stores

variable {ps : List (Option ℕ)} {stores : List (Option ℕ × ℕ)} {p : Option ℕ} {i k : ℕ}

lemma entry_concat : entry (stores ++ [(p, k)]) i = if k = i then some p else entry stores i := by
  unfold entry
  rw [List.reverse_append, List.reverse_singleton, List.singleton_append, List.find?_cons]
  by_cases hk : k = i <;> simp [hk]

lemma entry_zipIdx : entry ps.zipIdx i = ps[i]? := by
  induction ps using List.reverseRecOn with
  | nil => rfl
  | append_singleton ps p ih =>
    rw [List.zipIdx_append, List.zipIdx_singleton, entry_concat, ih, Nat.zero_add,
      List.getElem?_append]
    by_cases hi : ps.length = i
    · simp [hi]
    · rw [if_neg hi]
      split
      · rfl
      · rw [List.getElem?_eq_none (by omega), List.getElem?_eq_none (by simp; omega)]

end Stores

/-! ### What the loops find -/

section Loops

variable {m : Memory} {q buf fuel lo hi argc : ℕ} {s : List Byte}

lemma skipSpaces_eq (h : StringAt m q s) (hfuel : s.length < fuel) : skipSpaces m fuel q =
    some (q + (s.takeWhile (· = space)).length) := by
  induction s generalizing q fuel with
  | nil =>
    cases fuel with
    | zero => simp at hfuel
    | succ fuel =>
      have hq : m q = 0 := h
      simp [skipSpaces, hq]
  | cons c s ih =>
    cases fuel with
    | zero => simp at hfuel
    | succ fuel =>
      obtain ⟨hq, hc, hs⟩ := h
      simp only [List.length_cons] at hfuel
      rw [skipSpaces, hq]
      by_cases hsp : c = space
      · rw [if_pos ⟨hc, hsp⟩, ih hs (by omega), List.takeWhile_cons_of_pos (by simpa using hsp),
          List.length_cons]
        congr 1
        omega
      · rw [if_neg (fun hand => hsp hand.2), List.takeWhile_cons_of_neg (by simpa using hsp)]
        rfl

/-- `strchr` splits a string at the delimiter that ends its first word. -/
lemma strchr_word {d : Byte} (h : StringAt m q s) (hd : d ≠ 0) (hlen : s.length < maxLine) :
    (strchr m d maxLine q = some none ∧ Reader.words space quote (.word d []) s = []) ∨
      ∃ w t, s = w ++ d :: t ∧ strchr m d maxLine q = some (some (q + w.length)) ∧
        Reader.words space quote (.word d []) s = w :: words space quote t := by
  by_cases hmem : d ∈ s
  · obtain ⟨w, t, rfl, hw⟩ := List.eq_append_cons_of_mem hmem
    simp only [List.length_append, List.length_cons] at hlen
    exact Or.inr ⟨w, t, rfl, h.strchr_some hw (by omega), Reader.words_append hw⟩
  · exact Or.inl ⟨h.strchr_none hmem hd hlen, Reader.words_of_notMem hmem⟩

/-- The next argument is the first word of the rest of the line. -/
lemma nextArg_spec (h : StringAt m q s) (hlen : s.length < maxLine) :
    (∃ buf, nextArg m q = some (buf, none) ∧ words space quote s = []) ∨
      ∃ l w d t, s = l ++ (w ++ d :: t) ∧ words space quote s = w :: words space quote t ∧
        nextArg m q = some (q + l.length, some (q + l.length + w.length)) := by
  obtain ⟨k, hk⟩ : ∃ k, k = s.takeWhile (· = space) := ⟨_, rfl⟩
  obtain ⟨r, hr⟩ : ∃ r, r = s.dropWhile (· = space) := ⟨_, rfl⟩
  have hs : s = k ++ r := by rw [hk, hr, List.takeWhile_append_dropWhile]
  have hword : words space quote s = words space quote r := by rw [hr, words_dropWhile]
  have hskip : skipSpaces m maxLine q = some (q + k.length) := by rw [hk, skipSpaces_eq h hlen]
  have hnot : r.head? ≠ some space := by
    intro hhead
    have := List.head?_dropWhile_not (fun c : Byte => decide (c = space)) s
    rw [← hr, hhead] at this
    simp at this
  rw [hs] at h hlen
  have hrAt := h.right
  rw [List.length_append] at hlen
  by_cases hq : r.head? = some quote
  · -- a quoted argument
    obtain ⟨r, rfl⟩ : ∃ t, r = quote :: t := by
      cases r with
      | nil => cases hq
      | cons c t => exact ⟨t, by rw [Option.some.inj hq]⟩
    have hread : m (q + k.length) = quote := hrAt.1
    rw [List.length_cons] at hlen
    rw [hword, words_mark (by decide)]
    have hnext : ∀ delim, strchr m quote maxLine (q + k.length + 1) = some delim →
        nextArg m q = some (q + k.length + 1, delim) := fun delim hdelim => by
      simp [nextArg, hskip, hread, hdelim]
    rcases strchr_word hrAt.2.2 (d := quote) (by decide) (by omega) with
      ⟨hnone, hwords⟩ | ⟨w, t, rfl, hsome, hwords⟩
    · exact Or.inl ⟨_, hnext _ hnone, hwords⟩
    · refine Or.inr ⟨k ++ [quote], w, quote, t, by simp [hs], hwords, ?_⟩
      rw [hnext _ hsome]
      simp [Nat.add_assoc]
  · -- a bare argument, or nothing
    have hread : m (q + k.length) ≠ quote := by
      rw [hrAt.head_eq]
      cases r with
      | nil => decide
      | cons c t => simpa using hq
    rw [hword, words_bare hnot hq]
    have hnext : ∀ delim, strchr m space maxLine (q + k.length) = some delim →
        nextArg m q = some (q + k.length, delim) := fun delim hdelim => by
      simp [nextArg, hskip, hread, hdelim]
    rcases strchr_word hrAt (d := space) (by decide) (by omega) with
      ⟨hnone, hwords⟩ | ⟨w, t, rfl, hsome, hwords⟩
    · exact Or.inl ⟨_, hnext _ hnone, hwords⟩
    · exact Or.inr ⟨k, w, space, t, hs, hwords, hnext _ hsome⟩

/-- A pointer between `lo` and `hi` to the string `w`. -/
def Points (m : Memory) (lo hi p : ℕ) (w : List Byte) : Prop :=
  StringAt m p w ∧ lo ≤ p ∧ p + w.length < hi

lemma Points.update {p x : ℕ} {w : List Byte} {c : Byte} (h : Points m lo hi p w) (hx : hi ≤ x) :
    Points (Function.update m x c) lo hi p w := by
  obtain ⟨hw, hlo, hhi⟩ := h
  exact ⟨hw.congr fun y _ hy => Function.update_of_ne (by omega) _ _, hlo, hhi⟩

lemma Points.mono {p : ℕ} {w : List Byte} {hi' : ℕ} (h : Points m lo hi p w) (hle : hi ≤ hi') :
    Points m lo hi' p w :=
  ⟨h.1, h.2.1, h.2.2.trans_le hle⟩

lemma points_inside {ps : List ℕ} {ws : List (List Byte)}
    (h : List.Forall₂ (Points m lo hi) ps ws) : ∀ p ∈ ps, lo ≤ p ∧ p < hi := by
  induction h with
  | nil => simp
  | cons hp _ ih =>
    obtain ⟨-, hlo, hhi⟩ := hp
    rintro p (_ | ⟨_, hmem⟩)
    · omega
    · exact ih p hmem

/-- The loop stores the words of the rest of the line behind those that it found before. -/
lemma parseLoop_spec {ps : List ℕ} {ws : List (List Byte)} (h : StringAt m q s)
    (hlen : s.length < maxLine) (hfuel : s.length < fuel) (hlo : lo ≤ q)
    (hps : List.Forall₂ (Points m lo q) ps ws) :
    ∃ m' ps', List.Forall₂ (Points m' lo (q + s.length)) ps' (ws ++ words space quote s) ∧
      (nextArg m q).bind (fun a => parseLoop fuel m a.1 a.2 ps.length (ps.map some).zipIdx) =
        some (m', ps'.length, (ps'.map some).zipIdx) := by
  induction fuel generalizing m q s ps ws with
  | zero => simp at hfuel
  | succ fuel ih =>
    rcases nextArg_spec h hlen with ⟨buf, hnext, hwords⟩ | ⟨l, w, d, t, rfl, hwords, hnext⟩
    · -- no more arguments
      refine ⟨m, ps, ?_, ?_⟩
      · rw [hwords, List.append_nil]
        exact hps.imp fun _ _ hp => hp.mono (Nat.le_add_right q s.length)
      · rw [hnext, Option.bind_some, parseLoop]
    · -- the delimiter is cut out
      have hw := h.right
      simp only [List.length_append, List.length_cons] at hlen hfuel
      have hcut := hw.cut
      have hbehind := hw.behind_set 0
      set delim := q + l.length + w.length with hdelim
      set m₁ := Function.update m delim 0
      have hps₁ : List.Forall₂ (Points m₁ lo (delim + 1)) (ps ++ [q + l.length]) (ws ++ [w]) := by
        apply List.rel_append
        · exact hps.imp fun _ _ hp => (hp.update (by omega)).mono (by omega)
        · exact List.Forall₂.cons ⟨hcut, by omega, by omega⟩ List.Forall₂.nil
      obtain ⟨m', ps', hps', hloop⟩ := ih hbehind (by omega) (by omega) (by omega) hps₁
      refine ⟨m', ps', ?_, ?_⟩
      · rw [hwords]
        have hend : delim + 1 + t.length = q + (l ++ (w ++ d :: t)).length := by
          simp only [List.length_append, List.length_cons]
          omega
        rw [← hend]
        simpa using hps'
      · have hstores : ((ps ++ [q + l.length]).map some).zipIdx =
            (ps.map some).zipIdx ++ [(some (q + l.length), ps.length)] := by
          simp [List.zipIdx_append]
        rw [hnext, Option.bind_some, parseLoop, ← hloop, hstores, List.length_append]
        rfl

end Loops

/-! ### The result -/

/-- The line with a space over its last byte. -/
def blankLast (line : List Byte) : List Byte :=
  if line = [] then [] else line.dropLast ++ [space]

/-- The arguments on a line. -/
def arguments (line : List Byte) : List (List Byte) := words space quote (blankLast line)

/-- The last argument asks for a background job. -/
def isBackground (args : List (List Byte)) : Bool := (args.getLast?.bind List.head?) = some ampersand

section Result

variable {m : Memory} {array : ℕ} {line : List Byte}

lemma length_blankLast (line : List Byte) : (blankLast line).length = line.length := by
  unfold blankLast
  split
  · simp_all
  · simp only [List.length_append, List.length_dropLast, List.length_singleton]
    have := List.length_pos_iff.mpr ‹_›
    omega

/-- The copy of the line, after its last byte was overwritten. -/
lemma stringAt_blankLast (m : Memory) (harray : 0 < array) (hline : ∀ c ∈ line, c ≠ 0) :
    StringAt (Function.update (strcpy m array line) (array + line.length - 1) space) array
      (blankLast line) := by
  have h := stringAt_strcpy m array hline
  rcases List.eq_nil_or_concat line with rfl | ⟨l, c, rfl⟩
  · -- the store goes in front of the buffer
    exact h.congr fun x h1 _ => Function.update_of_ne (by simp only [List.length_nil]; omega) _ _
  · rw [List.concat_eq_append] at h ⊢
    have hset := h.set (d := space) (by decide)
    have hend : array + (l ++ [c]).length - 1 = array + l.length := by simp [← Nat.add_assoc]
    rw [hend]
    simpa [blankLast] using hset

/-- The loop leaves pointers to the arguments. -/
lemma parseLoop_arguments (m : Memory) (harray : 0 < array) (hline : ∀ c ∈ line, c ≠ 0)
    (hlen : line.length < maxLine) :
    strlen (strcpy m array line) maxLine array = some line.length ∧
      ∃ m' ps buf delim, List.Forall₂ (Points m' array (array + maxLine)) ps (arguments line) ∧
        nextArg (Function.update (strcpy m array line) (array + line.length - 1) space) array =
          some (buf, delim) ∧
        parseLoop maxLine (Function.update (strcpy m array line) (array + line.length - 1) space)
          buf delim 0 [] = some (m', ps.length, (ps.map some).zipIdx) := by
  have hstr := stringAt_blankLast m harray hline
  have hblank := length_blankLast line
  obtain ⟨m', ps, hps, hloop⟩ := parseLoop_spec hstr (by omega)
    (show (blankLast line).length < maxLine by omega) (le_refl array) List.Forall₂.nil
  obtain ⟨⟨buf, delim⟩, hnext, hrun⟩ := Option.bind_eq_some_iff.mp hloop
  simp only [List.length_nil, List.map_nil, List.zipIdx_nil] at hrun
  exact ⟨(stringAt_strcpy m array hline).strlen hlen, m', ps, buf, delim,
    hps.imp fun _ _ hp => hp.mono (by omega), hnext, hrun⟩

lemma zipIdx_null (ps : List ℕ) :
    (ps.map some).zipIdx ++ [(none, ps.length)] = (ps.map some ++ [none]).zipIdx := by
  simp [List.zipIdx_append]

/-- `parseline` stores pointers to the arguments and `NULL` behind them. A last argument that
asks for a background job is overwritten by `NULL`. -/
theorem parseline_eq (m : Memory) (harray : 0 < array) (hline : ∀ c ∈ line, c ≠ 0)
    (hlen : line.length < maxLine) :
    ∃ m' ps, List.Forall₂ (Points m' array (array + maxLine)) ps (arguments line) ∧
      parseline m array line = some ⟨m', (ps.map some ++ [none]).zipIdx ++
        (if isBackground (arguments line) then [(none, ps.length - 1)] else []),
        if arguments line = [] ∨ isBackground (arguments line) then 1 else 0⟩ := by
  obtain ⟨hcopy, m', ps, buf, delim, hpoints, hnext, hrun⟩ :=
    parseLoop_arguments m harray hline hlen
  refine ⟨m', ps, hpoints, ?_⟩
  simp only [parseline, hcopy, Option.bind_eq_bind, Option.bind_some, hnext, hrun, zipIdx_null]
  rcases List.eq_nil_or_concat ps with rfl | ⟨qs, p, rfl⟩
  · -- a blank line
    rw [List.forall₂_nil_left_iff] at hpoints
    simp [hpoints, isBackground]
  · rw [List.concat_eq_append] at hpoints ⊢
    have hrev := List.forall₂_reverse_iff.mpr hpoints
    rw [List.reverse_concat] at hrev
    obtain ⟨w, vs, hw, -, hvs⟩ := List.forall₂_cons_left_iff.mp hrev
    have hargs : arguments line = vs.reverse ++ [w] := by
      rw [← List.reverse_reverse (arguments line), hvs, List.reverse_cons]
    have hentry : (entry ((qs ++ [p]).map some ++ [none]).zipIdx ((qs ++ [p]).length - 1)).join =
        some p := by
      rw [entry_zipIdx]
      simp
    rw [if_neg (by simp), hentry, Option.bind_some, hw.1.head_eq, hargs]
    have hbg : isBackground (vs.reverse ++ [w]) = true ↔ w.headD 0 = ampersand := by
      cases w with
      | nil => simp [isBackground, ampersand]
      | cons c w => simp [isBackground]
    by_cases hamp : w.headD 0 = ampersand
    · rw [if_pos hamp, if_pos (hbg.mpr hamp), if_pos (Or.inr (hbg.mpr hamp))]
    · rw [if_neg hamp, if_neg (hamp ∘ hbg.mp), if_neg (by simpa using hamp ∘ hbg.mp),
        List.append_nil]

end Result

/-! ### Lines that a user writes -/

/-- An argument as a user writes it. Quotes may be left out around an argument that has no space
and does not start with a quote. -/
structure Written where
  text : List Byte
  isQuoted : Bool
  clean : 0 ∉ text ∧ newline ∉ text
  fits : if isQuoted then quote ∉ text else text ≠ [] ∧ space ∉ text ∧ text.head? ≠ some quote

def Written.render (a : Written) : List Byte :=
  if a.isQuoted then quote :: (a.text ++ [quote]) else a.text

/-- The arguments, each behind a number of spaces. -/
def renderAll (as : List (ℕ × Written)) : List Byte :=
  as.flatMap fun a => List.replicate a.1 space ++ a.2.render

/-- A command line of arguments. -/
def commandLine (as : List (ℕ × Written)) : List Byte := renderAll as ++ [newline]

/-- There is a space in front of every argument but the first. -/
def Apart (as : List (ℕ × Written)) : Prop := ∀ a ∈ as.tail, 1 ≤ a.1

def texts (as : List (ℕ × Written)) : List (List Byte) := as.map fun a => a.2.text

section Written

variable {as : List (ℕ × Written)} {a : ℕ × Written} {s : List Byte}

lemma renderAll_cons : renderAll (a :: as) ++ s =
    List.replicate a.1 space ++ (a.2.render ++ (renderAll as ++ s)) := by
  simp [renderAll]

/-- What follows an argument starts with a space. -/
lemma renderAll_starts (h : ∀ a ∈ as, 1 ≤ a.1) :
    ∃ r, renderAll as ++ [space] = space :: r := by
  cases as with
  | nil => exact ⟨[], rfl⟩
  | cons a as =>
    obtain ⟨k, hk⟩ : ∃ k, a.1 = k + 1 := ⟨a.1 - 1, by have := h a (by simp); omega⟩
    rw [renderAll_cons, hk, List.replicate_succ]
    exact ⟨_, rfl⟩

/-- A reader of the line finds the texts of the arguments. -/
lemma words_renderAll (h : Apart as) : words space quote (renderAll as ++ [space]) = texts as := by
  induction as with
  | nil => rfl
  | cons a as ih =>
    have hrest : ∀ b ∈ as, 1 ≤ b.1 := h
    have htail := ih fun b hb => hrest b (List.mem_of_mem_tail hb)
    rw [renderAll_cons, words_replicate]
    have hfits := a.2.fits
    unfold Written.render
    by_cases hq : a.2.isQuoted = true
    · rw [if_pos hq] at hfits ⊢
      simp only [List.cons_append, List.append_assoc, List.nil_append]
      rw [words_quoted (by decide) hfits, htail]
      rfl
    · rw [if_neg hq] at hfits ⊢
      obtain ⟨hne, hspace, hhead⟩ := hfits
      obtain ⟨r, hr⟩ := renderAll_starts hrest
      rw [hr, words_blank] at htail
      rw [hr, words_unquoted hne hspace hhead, htail]
      rfl

lemma arguments_commandLine (h : Apart as) : arguments (commandLine as) = texts as := by
  have hblank : blankLast (commandLine as) = renderAll as ++ [space] := by
    simp [blankLast, commandLine]
  rw [arguments, hblank, words_renderAll h]

lemma commandLine_ne_zero (as : List (ℕ × Written)) : ∀ c ∈ commandLine as, c ≠ 0 := by
  rintro c hc rfl
  simp only [commandLine, renderAll, List.mem_append, List.mem_flatMap, List.mem_singleton] at hc
  rcases hc with ⟨a, -, hmem | hmem⟩ | hnl
  · cases (List.eq_of_mem_replicate hmem)
  · have hclean := a.2.clean.1
    unfold Written.render at hmem
    split at hmem
    · exact hclean (by simpa [quote] using hmem)
    · exact hclean hmem
  · cases hnl

end Written

/-! ### The bounds of `argv` and of the buffer -/

/-- Every store is inside `argv` and every pointer that is stored points into the buffer. -/
def Parsed.Inside (array : ℕ) (r : Parsed) : Prop :=
  ∀ q ∈ r.stores, q.2 < maxArgs ∧ ∀ p, q.1 = some p → array ≤ p ∧ p < array + maxLine

section Bounds

variable {m : Memory} {array : ℕ} {line : List Byte}

lemma null_mem_stores (ps : List ℕ) : (none, ps.length) ∈ (ps.map some ++ [none]).zipIdx := by
  simp [List.zipIdx_append]

/-- The stores for few enough arguments, with or without a store over the last of them. -/
lemma stores_inside {ps : List ℕ} {args : List (List Byte)} (c : Bool)
    (hps : List.Forall₂ (Points m array (array + maxLine)) ps args) (hcount : args.length < maxArgs) :
    ∀ q ∈ (ps.map some ++ [none]).zipIdx ++ (if c then [(none, ps.length - 1)] else []),
      q.2 < maxArgs ∧ ∀ p, q.1 = some p → array ≤ p ∧ p < array + maxLine := by
  rw [← hps.length_eq] at hcount
  intro q hq
  rcases List.mem_append.mp hq with hq | hq
  · obtain ⟨v, i⟩ := q
    have hv := List.mk_mem_zipIdx_iff_getElem?.mp hq
    obtain ⟨hi, -⟩ := List.getElem?_eq_some_iff.mp hv
    simp only [List.length_append, List.length_map, List.length_singleton] at hi
    refine ⟨show i < maxArgs by omega, fun p hp => points_inside hps p ?_⟩
    obtain rfl : v = some p := hp
    simpa using List.mem_of_getElem? hv
  · split at hq
    · obtain rfl := List.mem_singleton.mp hq
      exact ⟨show ps.length - 1 < maxArgs by omega, by simp⟩
    · simp at hq

/-- The stores of `parseline` stay inside its arrays exactly for lines of fewer than `MAXARGS`
arguments. -/
theorem parseline_inside_iff (m : Memory) (harray : 0 < array) (hline : ∀ c ∈ line, c ≠ 0)
    (hlen : line.length < maxLine) :
    (∃ r, parseline m array line = some r ∧ r.Inside array) ↔
      (arguments line).length < maxArgs := by
  obtain ⟨m', ps, hps, heq⟩ := parseline_eq m harray hline hlen
  rw [heq]
  simp only [Option.some.injEq, exists_eq_left', Parsed.Inside]
  constructor
  · intro h
    rw [← hps.length_eq]
    exact (h _ (List.mem_append_left _ (null_mem_stores ps))).1
  · exact stores_inside _ hps

theorem parseline_inside_short : ∃ r, parseline (fun _ => 0) 4096 [108, 115, 32, 45, 108, 10] =
    some r ∧ r.Inside 4096 :=
  (parseline_inside_iff _ (by decide) (by decide) (by decide)).mpr (by decide)

lemma length_commandLine (n k : ℕ) (a : Written) :
    (commandLine (List.replicate n (k, a))).length = n * (k + a.render.length) + 1 := by
  simp [commandLine, renderAll, List.length_flatMap]

/-- A line of 128 arguments of one letter each. -/
theorem parseline_overruns : ∃ r, parseline (fun _ => 0) 4096
    (commandLine (List.replicate 128 (1, ⟨[97], false, by decide, by decide⟩))) = some r ∧
      (none, 128) ∈ r.stores ∧ ¬r.Inside 4096 := by
  obtain ⟨a, ha⟩ : ∃ a : Written, a = ⟨[97], false, by decide, by decide⟩ := ⟨_, rfl⟩
  have hlen : (commandLine (List.replicate 128 (1, a))).length < maxLine := by
    rw [length_commandLine, ha]
    decide
  obtain ⟨m', ps, hps, heq⟩ := parseline_eq (fun _ => 0) (show 0 < 4096 by decide)
    (commandLine_ne_zero _) hlen
  have hapart : Apart (List.replicate 128 (1, a)) := by
    intro b hb
    rw [List.eq_of_mem_replicate (List.mem_of_mem_tail hb)]
  have hcount : ps.length = 128 := by
    rw [hps.length_eq, arguments_commandLine hapart, texts, List.length_map, List.length_replicate]
  have hnull : (none, 128) ∈ (ps.map some ++ [none]).zipIdx := hcount ▸ null_mem_stores ps
  rw [← ha]
  refine ⟨_, heq, List.mem_append_left _ hnull, fun h => ?_⟩
  exact absurd (h _ (List.mem_append_left _ hnull)).1 (by decide)

end Bounds

/-! ### The round trip -/

/-- `argv` holds the arguments and then `NULL`, and no store was outside it. -/
def Parsed.Fills (r : Parsed) (args : List (List Byte)) : Prop :=
  (∀ i (hi : i < args.length), ∃ p, entry r.stores i = some (some p) ∧ StringAt r.mem p args[i]) ∧
    entry r.stores args.length = some none ∧ ∀ q ∈ r.stores, q.2 < maxArgs

section Fills

variable {m : Memory} {array lo hi i : ℕ} {ps : List ℕ} {args : List (List Byte)} {line w : List Byte}

lemma entry_of_points (hps : List.Forall₂ (Points m lo hi) ps args) (hi : i < args.length) :
    ∃ p, entry (ps.map some ++ [none]).zipIdx i = some (some p) ∧ StringAt m p args[i] := by
  have hlt : i < ps.length := hps.length_eq.symm ▸ hi
  refine ⟨ps[i], ?_, (hps.get hlt hi).1⟩
  rw [entry_zipIdx, List.getElem?_append_left (by simpa using hlt)]
  simp [hlt]

/-- A line that asks for no background job. -/
lemma parseline_foreground (m : Memory) (harray : 0 < array) (hline : ∀ c ∈ line, c ≠ 0)
    (hlen : line.length < maxLine) (hne : arguments line ≠ [])
    (hbg : isBackground (arguments line) = false) (hcount : (arguments line).length < maxArgs) :
    ∃ r, parseline m array line = some r ∧ r.bg = 0 ∧ r.Fills (arguments line) := by
  obtain ⟨m', ps, hps, heq⟩ := parseline_eq m harray hline hlen
  have hinside := stores_inside (isBackground (arguments line)) hps hcount
  have hnil : ¬(arguments line = [] ∨ isBackground (arguments line) = true) := by
    simp [hbg, hne]
  rw [if_neg hnil] at heq
  rw [hbg] at heq hinside
  refine ⟨_, heq, rfl, fun i hi => ?_, ?_, fun q hq => (hinside q hq).1⟩
  · simpa using entry_of_points hps hi
  · simp [entry_zipIdx, hps.length_eq]

/-- A line whose last argument asks for a background job. -/
lemma parseline_background (m : Memory) (harray : 0 < array) (hline : ∀ c ∈ line, c ≠ 0)
    (hlen : line.length < maxLine) (hargs : arguments line = args ++ [w])
    (hw : w.head? = some ampersand) (hcount : args.length + 1 < maxArgs) :
    ∃ r, parseline m array line = some r ∧ r.bg = 1 ∧ r.Fills args := by
  obtain ⟨m', ps, hps, heq⟩ := parseline_eq m harray hline hlen
  have hbg : isBackground (arguments line) = true := by simp [hargs, isBackground, hw]
  have hinside := stores_inside (isBackground (arguments line)) hps (by simpa [hargs] using hcount)
  rw [if_pos (Or.inr hbg)] at heq
  rw [if_pos hbg] at heq hinside
  rw [hargs] at hps
  have hlast : ps.length - 1 = args.length := by simp [hps.length_eq]
  refine ⟨_, heq, rfl, fun i hi => ?_, ?_, fun q hq => (hinside q hq).1⟩
  · obtain ⟨p, hp, hstr⟩ := entry_of_points hps (show i < (args ++ [w]).length by simp; omega)
    rw [List.getElem_append_left hi] at hstr
    refine ⟨p, ?_, hstr⟩
    rw [entry_concat, if_neg (by omega)]
    exact hp
  · rw [entry_concat, if_pos hlast]

end Fills

/-- Parsing undoes quoting: `parseline` finds the arguments of a line that a user wrote, in the
foreground, and one more argument that starts with an ampersand puts them in the background. -/
theorem parseline_commandLine (m : Memory) {array : ℕ} (harray : 0 < array)
    {as : List (ℕ × Written)} (hne : as ≠ []) (hcount : as.length ≤ maxArgs - 2) (hapart : Apart as)
    (hlen : (commandLine as).length < maxLine)
    (hlast : ∀ a ∈ as.getLast?, a.2.text.head? ≠ some ampersand) :
    (∃ r, parseline m array (commandLine as) = some r ∧ r.bg = 0 ∧ r.Fills (texts as)) ∧
      ∀ a : ℕ × Written, 1 ≤ a.1 → a.2.isQuoted = false → a.2.text.head? = some ampersand →
        (commandLine (as ++ [a])).length < maxLine →
        ∃ r, parseline m array (commandLine (as ++ [a])) = some r ∧ r.bg = 1 ∧
          r.Fills (texts as) := by
  have hfew : (texts as).length + 1 < maxArgs := by
    simp only [texts, List.length_map, maxArgs] at hcount ⊢
    omega
  constructor
  · have hargs := arguments_commandLine hapart
    rw [← hargs]
    apply parseline_foreground m harray (commandLine_ne_zero as) hlen
    · rw [hargs]
      simpa [texts] using hne
    · rw [hargs, isBackground, texts, List.getLast?_map]
      cases h : as.getLast? with
      | none => rfl
      | some a => simpa using hlast a h
    · rw [hargs]
      exact Nat.lt_of_succ_lt hfew
  · intro a ha _ hamp hlen'
    have hapart' : Apart (as ++ [a]) := by
      intro b hb
      rw [List.tail_append_of_ne_nil hne] at hb
      rcases List.mem_append.mp hb with hb | hb
      · exact hapart b hb
      · exact List.mem_singleton.mp hb ▸ ha
    have hargs : arguments (commandLine (as ++ [a])) = texts as ++ [a.2.text] := by
      rw [arguments_commandLine hapart']
      simp [texts]
    exact parseline_background m harray (commandLine_ne_zero _) hlen' hargs hamp hfew

theorem parseline_unquotes : ∃ r, parseline (fun _ => 0) 4096 (commandLine
    [(1, ⟨[108, 115], false, by decide, by decide⟩), (2, ⟨[97, 32, 98], true, by decide, by decide⟩)]) =
      some r ∧ r.bg = 0 ∧ r.Fills [[108, 115], [97, 32, 98]] :=
  (parseline_commandLine _ (by decide) (by simp) (by decide) (by simp [Apart]) (by decide)
    (by simp [ampersand])).1

end SystemsLabs.Tsh
