import MipsAsm.Layout
import MipsAsm.Proofs.Assembly.Labels
import MipsAsm.Proofs.Assembly.Listing
import MipsAsm.Proofs.Encoding.Spelling

/-!
# How a line in its new layout is read

The layout of a line is made word by word, where words are divided by all blank characters of
Unicode, and a line is read token by token, where tokens are divided by those of ASCII and by some
punctuation.  Here is what the one does to the other.

`Layout.squeeze` is followed character by character: a blank disappears, and any other character
stays, with one space after it if blanks and then more text followed it (`Layout.gap`).

The difficulty is that the two divisions of a line do not agree.  A comma divides tokens and is an
ordinary character of a word, and the space of Unicode that does not break divides words and is an
ordinary character of a token.  So the tokens of a line in its new layout are not simply those of
the line: a token with such a space in it becomes two.  What can be said is conditional, and the
conditions are met by all that can be assembled.

Labels add to this.  Before the first colon, the assembler takes off margins and the layout takes
off all blanks, and the two come to the same for a label name.

* `Layout.squeeze_cons`, `Layout.squeeze_cons_blank` — these two equations.
* `Layout.words_squeeze` — a text keeps its tokens if it has no blank in one of them.
* `Layout.find?_squeeze` — a text keeps the first character that divides no tokens.
* `Layout.read_line` — a line with a proper label, or with none, keeps its label, and its body is
  squeezed and put between spaces.
-/

set_option autoImplicit false

namespace MipsAsm

open Text (isBlank)

variable {c : Char} {cs : List Char}

/-! ## Characters

Three classes of characters occur: the blanks of Unicode, which divide words, the separators, which
divide tokens, and the margins, which are taken off a label.  Margins are blanks, and what a label
name may consist of is neither. -/

/-- The visible characters of ASCII are no blanks. -/
theorem Text.isBlank_of_visible (h : '!' ≤ c) (h' : c ≤ '~') : isBlank c = false := by
  have hlow : 33 ≤ c.toNat := UInt32.le_iff_toNat_le.mp h
  have hhigh : c.toNat ≤ 126 := UInt32.le_iff_toNat_le.mp h'
  simp only [isBlank, blankRanges, List.any_cons, List.any_nil, Bool.or_false,
    Bool.or_eq_false_iff, Bool.and_eq_false_iff, decide_eq_false_iff_not]
  omega

theorem Text.isBlank_of_between {lo hi : Char} (h : lo ≤ c ∧ c ≤ hi) (hlo : '!' ≤ lo)
    (hhi : hi ≤ '~') : isBlank c = false :=
  isBlank_of_visible (Char.le_trans hlo h.1) (Char.le_trans h.2 hhi)

/-- A margin is a blank. -/
theorem Line.isBlank_of_isMargin (h : isMargin c = true) : isBlank c = true := by
  simp only [isMargin, Bool.or_eq_true, beq_iff_eq] at h
  rcases h with (rfl | rfl) | rfl <;> decide

namespace Label

/-- The characters of a label name are no blanks, and no marks of a label or a directive. -/
theorem of_isContinue (h : isContinue c = true) :
    isBlank c = false ∧ Line.isMargin c = false ∧ c ≠ ':' ∧ c ≠ '.' := by
  have hblank : isBlank c = false := by
    simp only [isContinue, isStart, Bool.or_eq_true, Bool.and_eq_true, decide_eq_true_eq,
      beq_iff_eq] at h
    rcases h with ((h | h) | rfl) | h
    · exact Text.isBlank_of_between h (by decide) (by decide)
    · exact Text.isBlank_of_between h (by decide) (by decide)
    · decide
    · exact Text.isBlank_of_between h (by decide) (by decide)
  refine ⟨hblank, Bool.eq_false_iff.mpr fun hmargin ↦ ?_, ?_, ?_⟩
  · rw [Line.isBlank_of_isMargin hmargin] at hblank
    cases hblank
  · rintro rfl
    exact absurd h (by decide)
  · rintro rfl
    exact absurd h (by decide)

end Label

namespace Layout

/-! ## Squeezing character by character

Words joined by spaces are not easy to follow through a text.  The two equations for a blank and for
any other character are, and everything else about `Layout.squeeze` is by induction with them. -/

/-- The space that is left after a character if `cs` follows it. -/
def gap (cs : List Char) : List Char :=
  if cs.head?.any isBlank = true ∧ ¬cs.all isBlank = true then [' '] else []

theorem exists_gap_eq (cs : List Char) : ∃ n, gap cs = List.replicate n ' ' := by
  rw [gap]
  split
  · exact ⟨1, rfl⟩
  · exact ⟨0, rfl⟩

@[simp]
theorem squeeze_nil : squeeze [] = [] := by rw [squeeze, Text.words_nil]; rfl

/-- A blank disappears. -/
theorem squeeze_cons_blank (hc : isBlank c = true) (cs : List Char) :
    squeeze (c :: cs) = squeeze cs := by
  rw [squeeze, Text.words_cons_separator hc, squeeze]

theorem words_eq_nil_iff : Text.words isBlank cs = [] ↔ cs.all isBlank = true := by
  induction cs with
  | nil => simp
  | cons c cs ih =>
    cases hc : isBlank c with
    | true => simp [Text.words_cons_separator hc, ih, hc]
    | false => simp [Text.words_cons_of_not hc, hc]

theorem toList_intercalate_ofList_cons (c : Char) (w : List Char) (ws : List String) :
    (" ".intercalate (String.ofList (c :: w) :: ws)).toList =
      c :: (" ".intercalate (String.ofList w :: ws)).toList := by
  cases ws <;> simp

/-- Any other character stays. -/
theorem squeeze_cons (hc : isBlank c = false) (cs : List Char) :
    squeeze (c :: cs) = c :: (gap cs ++ squeeze cs) := by
  rw [squeeze, Text.words_cons_of_not hc, toList_intercalate_ofList_cons, List.cons.injEq]
  refine ⟨rfl, ?_⟩
  by_cases hhead : cs.head?.any isBlank = true
  · -- a blank follows, so that the character ends a word
    obtain ⟨d, ds, rfl⟩ : ∃ d ds, cs = d :: ds := by
      cases cs with
      | nil => cases hhead
      | cons d ds => exact ⟨d, ds, rfl⟩
    have hd : isBlank d = true := hhead
    rw [List.takeWhile_cons_of_neg (by simp [hd]), List.dropWhile_cons_of_neg (by simp [hd]), gap,
      squeeze]
    cases hwords : Text.words isBlank (d :: ds) with
    | nil =>
      rw [if_neg fun h ↦ h.2 (words_eq_nil_iff.mp hwords)]
      rfl
    | cons w ws =>
      have hsome : ¬(d :: ds).all isBlank = true := by
        rw [← words_eq_nil_iff, hwords]
        exact List.cons_ne_nil w ws
      rw [if_pos ⟨hhead, hsome⟩, Text.toList_intercalate_cons_cons, String.toList_ofList]
      rfl
  · -- no blank follows, so that the character belongs to the next word
    rw [gap, if_neg fun h ↦ hhead h.1, List.nil_append, squeeze]
    cases cs with
    | nil => simp
    | cons d ds =>
      have hd : isBlank d = false := by simpa using hhead
      rw [Text.words_cons_of_not hd, List.takeWhile_cons_of_pos (by simp [hd]),
        List.dropWhile_cons_of_pos (by simp [hd])]

/-- What is squeezed does not start with a blank. -/
theorem isBlank_of_mem_head?_squeeze (hc : c ∈ (squeeze cs).head?) : isBlank c = false := by
  induction cs with
  | nil => simp at hc
  | cons d cs ih =>
    cases hd : isBlank d with
    | true => exact ih (squeeze_cons_blank hd cs ▸ hc)
    | false =>
      rw [squeeze_cons hd, List.head?_cons, Option.mem_def, Option.some.injEq] at hc
      exact hc ▸ hd

/-- What is squeezed has the characters of the text, and spaces. -/
theorem mem_squeeze {d : Char} (hd : d ∈ squeeze cs) : d = ' ' ∨ d ∈ cs := by
  rcases Text.mem_intercalate hd with hspace | ⟨w, hw, hmem⟩
  · exact .inl (List.mem_singleton.mp hspace)
  · exact .inr ((Text.mem_words hw).2 d hmem).2

/-- Blanks in front of a text disappear. -/
theorem squeeze_blanks_append {blanks : List Char} (h : ∀ c ∈ blanks, isBlank c = true)
    (cs : List Char) : squeeze (blanks ++ cs) = squeeze cs := by
  rw [squeeze, Text.words_separators_append h, squeeze]

/-- A run of other characters stays. -/
theorem squeeze_run_append {run : List Char} (hne : run ≠ []) (h : ∀ c ∈ run, isBlank c = false)
    (cs : List Char) : squeeze (run ++ cs) = run ++ (gap cs ++ squeeze cs) := by
  induction run with
  | nil => exact absurd rfl hne
  | cons c run ih =>
    rw [List.cons_append, squeeze_cons (h c List.mem_cons_self), List.cons_append]
    cases run with
    | nil => rfl
    | cons d run =>
      have hd : isBlank d = false := h d (List.mem_cons_of_mem _ List.mem_cons_self)
      have hgap : gap (d :: run ++ cs) = [] := by simp [gap, hd]
      rw [hgap, List.nil_append, ih (List.cons_ne_nil _ _) fun e he ↦
        h e (List.mem_cons_of_mem _ he)]

/-! ## Squeezing in parts

A line is divided at its comment and at its label, and each part has to be known squeezed by itself.
That is possible at a character that is no blank: the part before it is squeezed together with the
character, and the part after it has at most one space in front. -/

theorem squeeze_eq_nil_iff : squeeze cs = [] ↔ cs.all isBlank = true := by
  induction cs with
  | nil => simp
  | cons c cs ih =>
    cases hc : isBlank c with
    | true => simp [squeeze_cons_blank hc, ih, hc]
    | false => simp [squeeze_cons hc, hc]

theorem gap_eq_nil (h : squeeze cs = []) : gap cs = [] :=
  if_neg fun hgap ↦ hgap.2 (squeeze_eq_nil_iff.mp h)

/-- What is squeezed does not end with a blank. -/
theorem isBlank_of_mem_getLast?_squeeze (hc : c ∈ (squeeze cs).getLast?) : isBlank c = false := by
  induction cs with
  | nil => simp at hc
  | cons d cs ih =>
    cases hd : isBlank d with
    | true => exact ih (squeeze_cons_blank hd cs ▸ hc)
    | false =>
      rw [squeeze_cons hd] at hc
      by_cases hs : squeeze cs = []
      · rw [gap_eq_nil hs, hs] at hc
        exact Option.some.inj hc ▸ hd
      · rw [← List.cons_append, List.getLast?_append_of_ne_nil _ hs] at hc
        exact ih hc

/-- What is squeezed stays as it is. -/
theorem squeeze_squeeze (cs : List Char) : squeeze (squeeze cs) = squeeze cs := by
  have hwords : Text.words isBlank (squeeze cs) = Text.words isBlank cs := by
    rw [squeeze, Text.words_intercalate (by decide), Text.flatMap_words fun _ _ h ↦ h]
  rw [squeeze, hwords, squeeze]

theorem gap_append_cons (hc : isBlank c = false) (cs ds : List Char) :
    gap (cs ++ c :: ds) = gap (cs ++ [c]) := by
  cases cs <;> simp [gap, hc]

/-- A text is squeezed up to a character that is no blank, and after it. -/
theorem squeeze_append_cons (hc : isBlank c = false) (cs ds : List Char) :
    squeeze (cs ++ c :: ds) = squeeze (cs ++ [c]) ++ (gap ds ++ squeeze ds) := by
  induction cs with
  | nil =>
    rw [List.nil_append, List.nil_append, squeeze_cons hc, squeeze_cons hc, squeeze_nil]
    rfl
  | cons d cs ih =>
    rw [List.cons_append, List.cons_append]
    cases hd : isBlank d with
    | true => rw [squeeze_cons_blank hd, squeeze_cons_blank hd, ih]
    | false =>
      rw [squeeze_cons hd, squeeze_cons hd, gap_append_cons hc, ih, List.cons_append,
        List.append_assoc]

/-- Before a character that is no blank, blanks at the end of a text become a space or nothing. -/
theorem exists_squeeze_concat (hc : isBlank c = false) (cs : List Char) :
    ∃ n, squeeze (cs ++ [c]) = squeeze cs ++ List.replicate n ' ' ++ [c] := by
  induction cs with
  | nil => exact ⟨0, by rw [List.nil_append, squeeze_cons hc, squeeze_nil]; rfl⟩
  | cons d cs ih =>
    cases hd : isBlank d with
    | true =>
      rw [List.cons_append, squeeze_cons_blank hd, squeeze_cons_blank hd]
      exact ih
    | false =>
      rw [List.cons_append, squeeze_cons hd, squeeze_cons hd]
      obtain ⟨n, hn⟩ := ih
      by_cases hs : squeeze cs = []
      · -- only blanks stand between the two characters
        obtain ⟨m, hm⟩ := exists_gap_eq (cs ++ [c])
        refine ⟨m + n, ?_⟩
        rw [hn, hs, hm, gap_eq_nil hs, List.replicate_add]
        simp only [List.nil_append, List.append_nil, List.cons_append, List.append_assoc]
      · refine ⟨n, ?_⟩
        have hgap : gap (cs ++ [c]) = gap cs := by
          rw [squeeze_eq_nil_iff] at hs
          cases cs with
          | nil => exact absurd rfl hs
          | cons e cs => simp_all [gap]
        rw [hgap, hn]
        simp

/-! ## What squeezing does to tokens

Blanks and separators overlap, but neither contains the other: a comma divides tokens and no words,
and a space of another width divides words and no tokens.  Only the latter can do harm, when it
stands within a token. -/

open Line (isSeparator)

/-- A text between spaces. -/
def Padded (cs ds : List Char) : Prop :=
  ∃ m n, ds = List.replicate m ' ' ++ cs ++ List.replicate n ' '

theorem isSeparator_of_mem_replicate {n : Nat} (h : c ∈ List.replicate n ' ') :
    isSeparator c = true := by
  rw [List.eq_of_mem_replicate h]
  rfl

theorem Padded.words {ds : List Char} (h : Padded cs ds) :
    Text.words isSeparator ds = Text.words isSeparator cs := by
  obtain ⟨m, n, rfl⟩ := h
  have hright : Text.words isSeparator (List.replicate n ' ') = [] := by
    rw [← List.append_nil (List.replicate n ' '), Text.words_separators_append fun c hc ↦
      isSeparator_of_mem_replicate hc, Text.words_nil]
  rw [Text.words_append fun c hc ↦ isSeparator_of_mem_replicate (List.mem_of_mem_head? hc), hright,
    List.append_nil, Text.words_separators_append fun c hc ↦ isSeparator_of_mem_replicate hc]

theorem find?_replicate_space (n : Nat) :
    (List.replicate n ' ').find? (!isSeparator ·) = none := by
  rw [List.find?_eq_none]
  intro c hc
  simp [isSeparator_of_mem_replicate hc]

theorem Padded.find? {ds : List Char} (h : Padded cs ds) :
    ds.find? (!isSeparator ·) = cs.find? (!isSeparator ·) := by
  obtain ⟨m, n, rfl⟩ := h
  rw [List.find?_append, List.find?_append, find?_replicate_space, find?_replicate_space,
    Option.none_or, Option.or_none]

/-- **A text keeps its tokens** if its blanks are in none of them. -/
theorem words_squeeze (h : ∀ w ∈ Text.words isSeparator cs, ∀ c ∈ w.toList, isBlank c = false) :
    Text.words isSeparator (squeeze cs) = Text.words isSeparator cs := by
  have hblank : ∀ c ∈ cs, isBlank c = true → isSeparator c = true := by
    intro c hc hb
    by_contra hs
    obtain ⟨w, hw, hmem⟩ := Text.exists_mem_words hc (Bool.eq_false_iff.mpr hs)
    rw [h w hw c hmem] at hb
    cases hb
  rw [squeeze, Text.words_intercalate rfl, Text.flatMap_words hblank]

/-- **A text keeps the first character that divides no tokens**, if it is no blank. -/
theorem find?_squeeze {x : Char} (hx : isBlank x = false)
    (h : cs.find? (!isSeparator ·) = some x) : (squeeze cs).find? (!isSeparator ·) = some x := by
  induction cs with
  | nil => cases h
  | cons c cs ih =>
    cases hs : isSeparator c with
    | false =>
      rw [List.find?_cons_of_pos (by simp [hs])] at h
      obtain rfl := Option.some.inj h
      rw [squeeze_cons hx, List.find?_cons_of_pos (by simp [hs])]
    | true =>
      rw [List.find?_cons_of_neg (by simp [hs])] at h
      cases hc : isBlank c with
      | true => rw [squeeze_cons_blank hc, ih h]
      | false =>
        obtain ⟨n, hgap⟩ := exists_gap_eq cs
        rw [squeeze_cons hc, List.find?_cons_of_neg (by simp [hs]), List.find?_append, hgap,
          find?_replicate_space, Option.none_or, ih h]

/-! ## The code of a line

A layout puts the code of a line together from the words and leaves the comment behind it.  Read
again, the line has that code, and perhaps the space in front of the comment. -/

theorem code_append {xs : List Char} (h : '#' ∉ xs) (ys : List Char) :
    Line.code (xs ++ ys) = xs ++ Line.code ys := by
  refine List.takeWhile_append_of_pos fun c hc ↦ ?_
  rw [bne_iff_ne]
  rintro rfl
  exact h hc

theorem code_append_cons {xs : List Char} (h : '#' ∉ xs) (ys : List Char) :
    Line.code (xs ++ '#' :: ys) = xs := by
  rw [code_append h]
  exact List.append_nil xs

/-- The code of a line in its new form, which may have no words. -/
def codeOf (indent : Nat) (words : List Char) : List Char :=
  if words = [] then [] else code indent words

/-- Code without a label is indented, or starts its line. -/
theorem codeOf_of_not_mem (indent : Nat) {words : List Char} (h : ':' ∉ words) :
    ∃ n, codeOf indent words = List.replicate n ' ' ++ words := by
  rw [codeOf]
  split
  · rename_i hnil
    exact ⟨0, hnil.symm⟩
  · rw [code]
    split
    · exact ⟨0, rfl⟩
    · rw [Text.cut_of_not_mem h]
      exact ⟨indent, rfl⟩

theorem trimLeft_append_squeeze (n : Nat) (cs : List Char) :
    Text.trimLeft (· == ' ') (List.replicate n ' ' ++ squeeze cs) = squeeze cs := by
  rw [Text.trimLeft, List.dropWhile_append_of_pos fun c hc ↦ by
    simp [List.eq_of_mem_replicate hc]]
  cases hs : squeeze cs with
  | nil => rfl
  | cons c rest =>
    refine List.dropWhile_cons_of_neg fun hspace ↦ ?_
    have hmem : c ∈ (squeeze cs).head? := by
      rw [hs]
      rfl
    have hblank := isBlank_of_mem_head?_squeeze hmem
    rw [eq_of_beq hspace] at hblank
    exact absurd hblank (by decide)

/-- A body after a label: a space stands before it. -/
def spaced (body : List Char) : List Char := if body = [] then [] else ' ' :: body

theorem codeOf_directive (indent : Nat) {words : List Char} (h : words.head? = some '.') :
    codeOf indent words = words := by
  rw [codeOf, code, if_pos h]
  split
  · rename_i hnil
    exact hnil.symm
  · rfl

/-- Code with a label keeps it, with one space before the body. -/
theorem codeOf_label (indent : Nat) {label : List Char} (hcolon : ':' ∉ label)
    (hdot : label.head? ≠ some '.') (n : Nat) (cs : List Char) :
    codeOf indent (label ++ ':' :: (List.replicate n ' ' ++ squeeze cs)) =
      label ++ ':' :: spaced (squeeze cs) := by
  have hhead : (label ++ ':' :: (List.replicate n ' ' ++ squeeze cs)).head? ≠ some '.' := by
    cases label with
    | nil => simp
    | cons c label => exact hdot
  rw [codeOf, if_neg (by simp), code, if_neg hhead, Text.cut_append_cons hcolon]
  simp only [trimLeft_append_squeeze, spaced]
  cases squeeze cs <;> rfl

/-- Code with a colon keeps what stands around it, but for spaces in front of the body. -/
theorem codeOf_append_cons (indent : Nat) {label : List Char} (hcolon : ':' ∉ label) (n : Nat)
    (cs : List Char) :
    ∃ m, codeOf indent (label ++ ':' :: (List.replicate n ' ' ++ squeeze cs)) =
      label ++ ':' :: (List.replicate m ' ' ++ squeeze cs) := by
  by_cases hdot : label.head? = some '.'
  · refine ⟨n, codeOf_directive indent ?_⟩
    rw [List.head?_append, hdot]
    rfl
  · rw [codeOf_label indent hcolon hdot, spaced]
    cases squeeze cs with
    | nil => exact ⟨0, rfl⟩
    | cons c rest => exact ⟨1, rfl⟩

/-- Code is put after spaces, or what stands before and after the first colon is put around it. -/
theorem code_cases (indent : Nat) (words : List Char) :
    (∃ n, code indent words = List.replicate n ' ' ++ words) ∨
      ∃ label rest, words = label ++ ':' :: rest ∧
        code indent words = label ++ ':' :: spaced (Text.trimLeft (· == ' ') rest) := by
  rw [code]
  split
  · exact .inl ⟨0, rfl⟩
  · by_cases hcolon : ':' ∈ words
    · obtain ⟨label, rest, rfl, hlabel⟩ := List.eq_append_cons_of_mem hcolon
      refine .inr ⟨label, rest, rfl, ?_⟩
      simp only [Text.cut_append_cons hlabel, spaced]
      cases Text.trimLeft (· == ' ') rest <;> rfl
    · rw [Text.cut_of_not_mem hcolon]
      exact .inl ⟨indent, rfl⟩

theorem mem_spaced {body : List Char} {d : Char} (h : d ∈ spaced body) : d = ' ' ∨ d ∈ body := by
  rw [spaced] at h
  split at h
  · cases h
  · exact List.mem_cons.mp h

/-- Code in its new form has the characters of its words, spaces, and the mark of a label. -/
theorem mem_code {indent : Nat} {words : List Char} {d : Char} (h : d ∈ code indent words) :
    d = ' ' ∨ d = ':' ∨ d ∈ words := by
  obtain ⟨n, hcode⟩ | ⟨label, rest, rfl, hcode⟩ := code_cases indent words
  · rw [hcode] at h
    rcases List.mem_append.mp h with h | h
    · exact .inl (List.eq_of_mem_replicate h)
    · exact .inr (.inr h)
  · rw [hcode, List.mem_append, List.mem_cons] at h
    rcases h with h | h | h
    · exact .inr (.inr (List.mem_append_left _ h))
    · exact .inr (.inl h)
    · rcases mem_spaced h with h | h
      · exact .inl h
      · have hrest : d ∈ rest := (List.dropWhile_sublist _).subset h
        exact .inr (.inr (List.mem_append_right _ (List.mem_cons_of_mem _ hrest)))

theorem mem_codeOf {indent : Nat} {d : Char} (h : d ∈ codeOf indent (squeeze cs)) :
    d = ' ' ∨ d = ':' ∨ d ∈ cs := by
  rw [codeOf] at h
  split at h
  · cases h
  · rcases mem_code h with h | h | h
    · exact .inl h
    · exact .inr (.inl h)
    · exact (mem_squeeze h).imp_right .inr

theorem hash_not_mem_codeOf (indent : Nat) (h : '#' ∉ cs) : '#' ∉ codeOf indent (squeeze cs) := by
  intro hmem
  rcases mem_codeOf hmem with hmem | hmem | hmem
  · exact absurd hmem (by decide)
  · exact absurd hmem (by decide)
  · exact h hmem

theorem hash_not_mem_codeOf_append (indent : Nat) (h : '#' ∉ cs) :
    '#' ∉ codeOf indent (squeeze cs) ++ (if squeeze cs = [] then [] else [' ']) := by
  rw [List.mem_append, not_or]
  refine ⟨hash_not_mem_codeOf indent h, ?_⟩
  split <;> decide

theorem line_of_not_mem (indent : Nat) (h : '#' ∉ cs) :
    line indent cs = codeOf indent (squeeze cs) := by
  simp only [line, Text.cut_of_not_mem h, codeOf]
  cases squeeze cs with
  | nil => rfl
  | cons c words => exact List.append_nil _

/-- A comment stays behind the code, with one space between them. -/
theorem line_append_cons (indent : Nat) {before : List Char} (h : '#' ∉ before)
    (rest : List Char) :
    line indent (before ++ '#' :: rest) =
      codeOf indent (squeeze before) ++ (if squeeze before = [] then [] else [' ']) ++
        '#' :: Text.trimRight Line.isMargin rest := by
  simp only [line, Text.cut_append_cons h, codeOf]
  cases squeeze before with
  | nil => rfl
  | cons c words => simp [comment]

/-- The code of a line in its new form is made from the code of the line. -/
theorem code_line (indent : Nat) (cs : List Char) :
    ∃ n, Line.code (line indent cs) =
      codeOf indent (squeeze (Line.code cs)) ++ List.replicate n ' ' := by
  by_cases hhash : '#' ∈ cs
  · obtain ⟨before, rest, rfl, hbefore⟩ := List.eq_append_cons_of_mem hhash
    rw [line_append_cons indent hbefore, code_append_cons hbefore, List.append_assoc,
      code_append (hash_not_mem_codeOf indent hbefore)]
    split
    · exact ⟨0, rfl⟩
    · exact ⟨1, rfl⟩
  · rw [line_of_not_mem indent hhash, Line.code_of_not_mem hhash,
      Line.code_of_not_mem (hash_not_mem_codeOf indent hhash)]
    exact ⟨0, (List.append_nil _).symm⟩

/-- A line in its new form has the characters of the line, spaces, and the marks of a label and of a
comment. -/
theorem mem_line {indent : Nat} {d : Char} (h : d ∈ line indent cs) :
    d = ' ' ∨ d = ':' ∨ d = '#' ∨ d ∈ cs := by
  by_cases hhash : '#' ∈ cs
  · obtain ⟨before, rest, rfl, hbefore⟩ := List.eq_append_cons_of_mem hhash
    obtain ⟨right, hrest, -⟩ := Text.exists_eq_trimRight_append Line.isMargin rest
    rw [line_append_cons indent hbefore, List.mem_append, List.mem_append, List.mem_cons] at h
    rcases h with (h | h) | h | h
    · rcases mem_codeOf h with h | h | h
      · exact .inl h
      · exact .inr (.inl h)
      · exact .inr (.inr (.inr (List.mem_append_left _ h)))
    · split at h
      · cases h
      · exact .inl (List.mem_singleton.mp h)
    · exact .inr (.inr (.inl h))
    · have hmem : d ∈ rest := hrest ▸ List.mem_append_left right h
      exact .inr (.inr (.inr (List.mem_append_right _ (List.mem_cons_of_mem _ hmem))))
  · rw [line_of_not_mem indent hhash] at h
    rcases mem_codeOf h with h | h | h
    · exact .inl h
    · exact .inr (.inl h)
    · exact .inr (.inr (.inr h))

/-- A line in its new form has no line feed if the line has none. -/
theorem lineFeed_not_mem_line (indent : Nat) (h : '\n' ∉ cs) : '\n' ∉ line indent cs := by
  intro hmem
  rcases mem_line hmem with hd | hd | hd | hd
  · exact absurd hd (by decide)
  · exact absurd hd (by decide)
  · exact absurd hd (by decide)
  · exact h hd

/-! ## The label and the body of a line

A line with a colon has a label, whatever stands before the colon, and the layout squeezes it.  For
a label name with margins around it that comes to the same as taking off the margins.  Anything else
is no label name in the line and may become one in its layout, so `Layout.read_line` excludes it. -/

theorem colon_not_mem_squeeze (h : ':' ∉ cs) : ':' ∉ squeeze cs := by
  intro hmem
  rcases mem_squeeze hmem with hspace | hmem
  · exact absurd hspace (by decide)
  · exact h hmem

/-- A line without a label has none in its new form, and its body is squeezed. -/
theorem read_line_of_not_mem (indent : Nat) (h : ':' ∉ Line.code cs) :
    (Line.read (line indent cs)).label? = none ∧
      Padded (squeeze (Line.code cs)) (Line.read (line indent cs)).body := by
  have hwords := colon_not_mem_squeeze h
  obtain ⟨n, hcode⟩ := code_line indent cs
  obtain ⟨m, hwide⟩ := codeOf_of_not_mem indent hwords
  rw [hwide] at hcode
  have hcolon : ':' ∉ Line.code (line indent cs) := by
    rw [hcode]
    simp [hwords]
  rw [Line.read_of_not_mem hcolon]
  exact ⟨rfl, m, n, hcode⟩

/-- The words around a colon. -/
theorem exists_squeeze_colon {before : List Char} (h : ':' ∉ before) (rest : List Char) :
    ∃ k l, squeeze (before ++ [':']) = squeeze before ++ List.replicate k ' ' ++ [':'] ∧
      squeeze (before ++ ':' :: rest) =
        squeeze before ++ List.replicate k ' ' ++ ':' :: (List.replicate l ' ' ++ squeeze rest) ∧
      ':' ∉ squeeze before ++ List.replicate k ' ' := by
  obtain ⟨k, hk⟩ := exists_squeeze_concat (c := ':') (by decide) before
  obtain ⟨l, hl⟩ := exists_gap_eq rest
  refine ⟨k, l, hk, ?_, ?_⟩
  · rw [squeeze_append_cons (by decide), hk, hl, List.append_assoc, List.singleton_append]
  · intro hmem
    rcases List.mem_append.mp hmem with hmem | hmem
    · exact colon_not_mem_squeeze h hmem
    · exact absurd (List.eq_of_mem_replicate hmem) (by decide)

theorem isMargin_of_isBlank (h : isBlank c = false) : Line.isMargin c = false :=
  Bool.eq_false_iff.mpr fun hmargin ↦ by
    rw [Line.isBlank_of_isMargin hmargin] at h
    cases h

/-- A line with a label has it squeezed in its new form, and so is its body. -/
theorem read_line_of_splits (indent : Nat) {before rest : List Char}
    (h : Line.Splits cs before rest) :
    Line.HasLabel (line indent cs) (String.ofList (squeeze before)) ∧
      Padded (squeeze rest) (Line.read (line indent cs)).body := by
  obtain ⟨k, l, -, hsqueeze, hcolon⟩ := exists_squeeze_colon h.2 rest
  rw [← h.1, ← Line.code] at hsqueeze
  obtain ⟨n, hcode⟩ := code_line indent cs
  obtain ⟨m, hwide⟩ := codeOf_append_cons indent hcolon l rest
  rw [hsqueeze, hwide, List.append_assoc _ (_ :: _), List.cons_append] at hcode
  have hsplits : Line.Splits (line indent cs) (squeeze before ++ List.replicate k ' ')
      (List.replicate m ' ' ++ squeeze rest ++ List.replicate n ' ') := ⟨hcode, hcolon⟩
  refine ⟨⟨_, _, hsplits, ?_⟩, ?_⟩
  · rw [Text.trim_append (fun c hc ↦ isMargin_of_isBlank (isBlank_of_mem_head?_squeeze hc))
      fun c hc ↦ isMargin_of_isBlank (isBlank_of_mem_getLast?_squeeze hc)]
    intro c hc
    rw [List.eq_of_mem_replicate hc]
    rfl
  · rw [Line.read_of_splits hsplits]
    exact ⟨m, n, rfl⟩

/-- A label name with margins around it is what is left of them. -/
theorem squeeze_of_isValid {before : List Char}
    (h : Label.isValid (String.ofList (Text.trim Line.isMargin before)) = true) :
    squeeze before = Text.trim Line.isMargin before := by
  obtain ⟨hne, hname⟩ := Label.of_isValid h
  obtain ⟨left, right, hbefore, hleft, hright⟩ := Text.exists_eq_append_trim Line.isMargin before
  rw [String.toList_ofList] at hne hname
  have hnothing : squeeze right = [] := by
    rw [squeeze_eq_nil_iff, List.all_eq_true]
    exact fun c hc ↦ Line.isBlank_of_isMargin (hright c hc)
  generalize Text.trim Line.isMargin before = name at *
  rw [hbefore, List.append_assoc,
    squeeze_blanks_append fun c hc ↦ Line.isBlank_of_isMargin (hleft c hc),
    squeeze_run_append hne fun c hc ↦ (Label.of_isContinue (hname c hc)).1, hnothing,
    gap_eq_nil hnothing]
  simp

/-- What a line with a proper label, or with none, is read as in its new form. -/
theorem read_line (indent : Nat)
    (hlabel : ∀ name, (Line.read cs).label? = some name → Label.isValid name.text = true) :
    (Line.read (line indent cs)).label?.map Text.Token.text =
        (Line.read cs).label?.map Text.Token.text ∧
      Padded (squeeze (Line.read cs).body) (Line.read (line indent cs)).body := by
  by_cases hcolon : ':' ∈ Line.code cs
  · obtain ⟨before, rest, heq, hbefore⟩ := List.eq_append_cons_of_mem hcolon
    have hsplits : Line.Splits cs before rest := ⟨heq, hbefore⟩
    have hvalid := hlabel _ (Line.label?_of_splits hsplits)
    obtain ⟨hsame, hbody⟩ := read_line_of_splits indent hsplits
    rw [Line.hasLabel_iff.mp hsame, squeeze_of_isValid hvalid, Line.label?_of_splits hsplits,
      Line.read_of_splits hsplits]
    exact ⟨rfl, hbody⟩
  · obtain ⟨hnone, hbody⟩ := read_line_of_not_mem indent hcolon
    rw [hnone, Line.read_of_not_mem hcolon]
    exact ⟨rfl, hbody⟩

end Layout
end MipsAsm
