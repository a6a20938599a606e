import Mathlib.Data.List.TakeWhile
import MipsAsm.Text.Basic

/-!
# Lines and words of a text

What the assembler writes between its two passes is text, and the second pass takes it apart again.
This file shows that taking apart undoes putting together, for lines and for words:

* `splitLines_flatMap_lineFeed` — lines that are each ended by a line feed are the lines of the text
  they make up, followed by one empty line.
* `words_append_separator` — the words of a text with a separator in it are the words before the
  separator and the words after it.  Everything about `words` follows from this equation and
  `words_run`.
* `words_intercalate` — words with one space between each two are the words of the text they make
  up.
* `flatMap_words` — a text may be divided into words in two rounds.
* `mem_words` — a word is not empty, has no separator, and has only characters of the text.
* `le_of_find?`, `le_start_of_mem_tokens` — offsets are counted from the start of the text.
-/

set_option autoImplicit false

namespace MipsAsm
namespace Text

/-! ## Lines

Lines are what is between line feeds, so a text has one line more than it has line feeds.  That is
why a text whose last line ends in one has an empty line at its end. -/

/-- The lines of a text are what the library makes of it when it divides it at line feeds. -/
theorem splitLines_eq_splitOn (cs : List Char) : splitLines cs = cs.splitOn '\n' := by
  induction cs with
  | nil => rfl
  | cons c cs ih =>
    rw [splitLines_cons, List.splitOn_cons_eq_if_modifyHead, ih]
    simp only [beq_iff_eq]

/-- A line feed divides a text into two whose lines are its lines. -/
theorem splitLines_append_lineFeed (cs ds : List Char) :
    splitLines (cs ++ '\n' :: ds) = splitLines cs ++ splitLines ds := by
  rw [splitLines_eq_splitOn, splitLines_eq_splitOn, splitLines_eq_splitOn,
    List.splitOn_append_cons_self]

/-- A text without line feeds is one line. -/
theorem splitLines_of_not_mem {cs : List Char} (h : '\n' ∉ cs) : splitLines cs = [cs] := by
  rw [splitLines_eq_splitOn, List.splitOn_eq_singleton h]

/-- No line has a line feed in it. -/
theorem not_mem_of_mem_splitLines {cs l : List Char} (h : l ∈ splitLines cs) : '\n' ∉ l := by
  induction cs generalizing l with
  | nil =>
    rw [splitLines_nil, List.mem_singleton] at h
    rw [h]
    exact List.not_mem_nil
  | cons c cs ih =>
    rw [splitLines_cons] at h
    split at h
    · rcases List.mem_cons.mp h with rfl | h
      · exact List.not_mem_nil
      · exact ih h
    · rename_i hc
      cases hs : splitLines cs with
      | nil => simp [hs] at h
      | cons first rest =>
        rw [hs, List.modifyHead_cons] at h
        rcases List.mem_cons.mp h with rfl | h
        · have hfirst := ih (hs ▸ List.mem_cons_self)
          simp only [List.mem_cons, not_or]
          exact ⟨Ne.symm hc, hfirst⟩
        · exact ih (hs ▸ List.mem_cons_of_mem _ h)

/-- Lines that are each ended by a line feed are the lines of the text they make up, but for the
empty line after the last line feed. -/
theorem splitLines_flatMap_lineFeed {lines : List (List Char)} (h : ∀ l ∈ lines, '\n' ∉ l) :
    splitLines (lines.flatMap (· ++ ['\n'])) = lines ++ [[]] := by
  induction lines with
  | nil => rfl
  | cons l lines ih =>
    rw [List.flatMap_cons, List.append_assoc, List.singleton_append, splitLines_append_lineFeed,
      splitLines_of_not_mem (h l List.mem_cons_self),
      ih fun l' hl' ↦ h l' (List.mem_cons_of_mem _ hl')]
    rfl

/-- A text is never without lines. -/
theorem splitLines_ne_nil (cs : List Char) : splitLines cs ≠ [] := by
  rw [splitLines_eq_splitOn]
  exact List.splitOn_ne_nil _ _

/-- Lines are the lines of the text they make up. -/
theorem splitLines_joinLines {lines : List (List Char)} (hne : lines ≠ [])
    (h : ∀ l ∈ lines, '\n' ∉ l) : splitLines (joinLines lines) = lines := by
  rw [splitLines_eq_splitOn, joinLines]
  exact List.splitOn_intercalate _ h hne

/-! ## Dividing and trimming

A text is divided at the first occurrence of a character, for comments and labels, and characters of
a class are taken off its ends.  What was taken off is needed too, as positions are counted from the
start of the line. -/

/-- A text without the character that it is to be divided at stays whole. -/
theorem cut_of_not_mem {sep : Char} {cs : List Char} (h : sep ∉ cs) : cut sep cs = (cs, none) := by
  have hdrop : cs.dropWhile (· != sep) = [] := by
    rw [List.dropWhile_eq_nil_iff]
    intro c hc
    rw [bne_iff_ne]
    rintro rfl
    exact h hc
  rw [cut, hdrop]

/-- A text is divided at the first place where the character stands. -/
theorem cut_append_cons {sep : Char} {before : List Char} (h : sep ∉ before) (rest : List Char) :
    cut sep (before ++ sep :: rest) = (before, some rest) := by
  have hbefore : ∀ c ∈ before, (c != sep) = true := by
    intro c hc
    rw [bne_iff_ne]
    rintro rfl
    exact h hc
  rw [cut, List.dropWhile_append_of_pos hbefore, List.takeWhile_append_of_pos hbefore]
  simp

theorem eq_append_trim (p : Char → Bool) (cs : List Char) :
    cs = cs.takeWhile p ++ trim p cs ++ ((trimLeft p cs).reverse.takeWhile p).reverse := by
  rw [trim, trimRight, List.append_assoc, ← List.reverse_append, List.takeWhile_append_dropWhile,
    List.reverse_reverse, trimLeft, List.takeWhile_append_dropWhile]

/-- What is trimmed from a text stands around what is left. -/
theorem exists_eq_append_trim (p : Char → Bool) (cs : List Char) :
    ∃ left right, cs = left ++ trim p cs ++ right ∧ (∀ c ∈ left, p c = true) ∧
      ∀ c ∈ right, p c = true := by
  refine ⟨cs.takeWhile p, _, eq_append_trim p cs, ?_, ?_⟩
  · exact fun c hc ↦ List.mem_takeWhile_imp hc
  · exact fun c hc ↦ List.mem_takeWhile_imp (List.mem_reverse.mp hc)

/-- A character that is not to be trimmed is left. -/
theorem mem_trim {p : Char → Bool} {cs : List Char} {c : Char} (hc : c ∈ cs) (hp : p c = false) :
    c ∈ trim p cs := by
  obtain ⟨left, right, hcs, hleft, hright⟩ := exists_eq_append_trim p cs
  have hother : ∀ side : List Char, (∀ d ∈ side, p d = true) → c ∉ side := by
    intro side hside hmem
    rw [hside c hmem] at hp
    cases hp
  rw [hcs] at hc
  rcases List.mem_append.mp hc with hc | hc
  · exact (List.mem_append.mp hc).resolve_left (hother left hleft)
  · exact absurd hc (hother right hright)

/-- What is trimmed from the end of a text stands after what is left. -/
theorem exists_eq_trimRight_append (p : Char → Bool) (cs : List Char) :
    ∃ right, cs = trimRight p cs ++ right ∧ (∀ c ∈ right, p c = true) ∧
      ∀ c ∈ (trimRight p cs).getLast?, p c = false := by
  refine ⟨(cs.reverse.takeWhile p).reverse, ?_, ?_, ?_⟩
  · rw [trimRight, ← List.reverse_append, List.takeWhile_append_dropWhile, List.reverse_reverse]
  · exact fun c hc ↦ List.mem_takeWhile_imp (List.mem_reverse.mp hc)
  · intro c hc
    rw [trimRight, List.getLast?_reverse] at hc
    have hhead := List.head?_dropWhile_not p cs.reverse
    rwa [Option.mem_def.mp hc] at hhead

/-- A text that ends in none of the characters to be trimmed is what is left if they stand after
it. -/
theorem trimRight_append {p : Char → Bool} {cs right : List Char}
    (hlast : ∀ c ∈ cs.getLast?, p c = false) (hright : ∀ c ∈ right, p c = true) :
    trimRight p (cs ++ right) = cs := by
  have hend : ∀ d ∈ right.reverse, p d = true := fun d hd ↦ hright d (List.mem_reverse.mp hd)
  have hstop : cs.reverse.dropWhile p = cs.reverse := by
    rw [← List.head?_reverse] at hlast
    cases hreverse : cs.reverse with
    | nil => rfl
    | cons d ds =>
      rw [hreverse] at hlast
      exact List.dropWhile_cons_of_neg (by simp [hlast d rfl])
  rw [trimRight, List.reverse_append, List.dropWhile_append_of_pos hend, hstop,
    List.reverse_reverse]

theorem trimRight_trimRight (p : Char → Bool) (cs : List Char) :
    trimRight p (trimRight p cs) = trimRight p cs := by
  obtain ⟨-, -, -, hlast⟩ := exists_eq_trimRight_append p cs
  have hsame := trimRight_append hlast (List.forall_mem_nil _)
  rwa [List.append_nil] at hsame

/-- A text is what is left also if it starts with none of them and the start is trimmed too. -/
theorem trim_append {p : Char → Bool} {cs right : List Char} (hhead : ∀ c ∈ cs.head?, p c = false)
    (hlast : ∀ c ∈ cs.getLast?, p c = false) (hright : ∀ c ∈ right, p c = true) :
    trim p (cs ++ right) = cs := by
  cases cs with
  | nil =>
    have hnone : right.dropWhile p = [] := List.dropWhile_eq_nil_iff.mpr hright
    rw [trim, trimLeft, List.nil_append, hnone]
    rfl
  | cons c cs =>
    have hleft : (c :: cs ++ right).dropWhile p = c :: cs ++ right :=
      List.dropWhile_cons_of_neg (by simp [hhead c rfl])
    rw [trim, trimLeft, hleft, trimRight_append hlast hright]

theorem trim_separators_append {p : Char → Bool} {left : List Char} (h : ∀ c ∈ left, p c = true)
    (cs : List Char) : trim p (left ++ cs) = trim p cs := by
  rw [trim, trimLeft, List.dropWhile_append_of_pos h, trim, trimLeft]

/-! ## Words

Words are defined through tokens, which have positions.  Here the positions do not matter, and the
class of separators is any class `p`: it is used with separators of tokens and with blanks. -/

variable {p : Char → Bool}

/-- A text divided after the run that it starts with. -/
theorem cons_eq_run_append (p : Char → Bool) (c : Char) (rest : List Char) :
    c :: rest = (c :: rest.takeWhile (!p ·)) ++ rest.dropWhile (!p ·) := by
  rw [List.cons_append, List.takeWhile_append_dropWhile]

/-- What follows a run starts with a separator. -/
theorem separator_of_mem_head? {cs : List Char} {c : Char}
    (h : c ∈ (cs.dropWhile (!p ·)).head?) : p c = true := by
  have hhead := List.head?_dropWhile_not (!p ·) cs
  rw [Option.mem_def.mp h] at hhead
  simpa using hhead

/-- The texts of tokens do not depend on where their text starts. -/
theorem map_text_tokens (start : Nat) (cs : List Char) :
    (tokens p start cs).map Token.text = words p cs := by
  rw [words]
  generalize 0 = start'
  fun_induction tokens p start cs generalizing start' with
  | case1 => rw [tokens]
  | case2 start c rest hc ih => rw [tokens, if_pos hc, ih]
  | case3 start c rest hc run ih =>
    rw [tokens, if_neg hc, List.map_cons, List.map_cons, ih]

theorem text_mem_words {start : Nat} {cs : List Char} {t : Token} (h : t ∈ tokens p start cs) :
    t.text ∈ words p cs :=
  map_text_tokens (p := p) start cs ▸ List.mem_map_of_mem h

@[simp]
theorem words_nil : words p [] = [] := by rw [words, tokens, List.map_nil]

/-- A separator at the start of a text belongs to no word. -/
theorem words_cons_separator {c : Char} (hc : p c = true) (cs : List Char) :
    words p (c :: cs) = words p cs := by
  rw [words, tokens, if_pos hc, map_text_tokens]

/-- A text that starts with no separator starts with a word. -/
theorem words_cons_of_not {c : Char} (hc : p c = false) (cs : List Char) :
    words p (c :: cs) =
      String.ofList (c :: cs.takeWhile (!p ·)) :: words p (cs.dropWhile (!p ·)) := by
  rw [words, tokens, if_neg (by simp [hc]), List.map_cons, map_text_tokens]

/-- A run without separators that is not empty is a word, if a separator or nothing follows it. -/
theorem words_run {run rest : List Char} (hne : run ≠ []) (hrun : ∀ c ∈ run, p c = false)
    (hrest : ∀ c ∈ rest.head?, p c = true) :
    words p (run ++ rest) = String.ofList run :: words p rest := by
  obtain ⟨c, run, rfl⟩ := List.exists_cons_of_ne_nil hne
  have hall : ∀ d ∈ run, (!p d) = true := by
    intro d hd
    simp [hrun d (List.mem_cons_of_mem _ hd)]
  have hstop : rest.takeWhile (!p ·) = [] ∧ rest.dropWhile (!p ·) = rest := by
    cases rest with
    | nil => exact ⟨rfl, rfl⟩
    | cons d rest =>
      have hd : p d = true := hrest d rfl
      simp [hd]
  rw [List.cons_append, words_cons_of_not (hrun c List.mem_cons_self),
    List.takeWhile_append_of_pos hall, List.dropWhile_append_of_pos hall, hstop.1, hstop.2,
    List.append_nil]

/-- **Words split at a separator.** -/
theorem words_append_separator {c : Char} (hc : p c = true) (cs ds : List Char) :
    words p (cs ++ c :: ds) = words p cs ++ words p ds := by
  induction hn : cs.length using Nat.strongRecOn generalizing cs with
  | ind n ih =>
    cases cs with
    | nil => rw [List.nil_append, words_cons_separator hc, words_nil, List.nil_append]
    | cons d cs =>
      cases hd : p d with
      | true =>
        rw [List.cons_append, words_cons_separator hd, words_cons_separator hd]
        exact ih cs.length (by simp [← hn]) cs rfl
      | false =>
        -- the first word is the same in both texts, and the rest is shorter
        have hlen := length_dropWhile_le (!p ·) cs
        have hrun : ∀ e ∈ d :: cs.takeWhile (!p ·), p e = false := by
          intro e he
          rcases List.mem_cons.mp he with rfl | he
          · exact hd
          · simpa using List.mem_takeWhile_imp he
        have hrest : ∀ e ∈ (cs.dropWhile (!p ·) ++ c :: ds).head?, p e = true := by
          intro e he
          cases hdrop : cs.dropWhile (!p ·) with
          | nil =>
            rw [hdrop] at he
            exact Option.some.inj he ▸ hc
          | cons e' es =>
            have hhead : e ∈ (cs.dropWhile (!p ·)).head? := by rwa [hdrop] at he ⊢
            exact separator_of_mem_head? hhead
        rw [cons_eq_run_append p d cs, List.append_assoc,
          words_run (List.cons_ne_nil _ _) hrun hrest, ← cons_eq_run_append p d cs,
          words_cons_of_not hd, ih _ (by simp only [← hn, List.length_cons]; omega) _ rfl,
          List.cons_append]

/-- A word is not empty, has no separator, and has only characters of the text. -/
theorem mem_words {cs : List Char} {w : String} (h : w ∈ words p cs) :
    w ≠ "" ∧ ∀ c ∈ w.toList, p c = false ∧ c ∈ cs := by
  rw [words] at h
  generalize 0 = start at h
  fun_induction tokens p start cs with
  | case1 => simp at h
  | case2 start c rest hc ih =>
    obtain ⟨hne, hall⟩ := ih h
    exact ⟨hne, fun d hd ↦ ⟨(hall d hd).1, List.mem_cons_of_mem _ (hall d hd).2⟩⟩
  | case3 start c rest hc run ih =>
    rcases List.mem_cons.mp h with rfl | h
    · refine ⟨by simp [run], fun d hd ↦ ?_⟩
      rw [String.toList_ofList] at hd
      rcases List.mem_cons.mp hd with rfl | hd
      · exact ⟨by simpa using hc, List.mem_cons_self⟩
      · exact ⟨by simpa using List.mem_takeWhile_imp hd,
          List.mem_cons_of_mem _ ((List.takeWhile_sublist _).subset hd)⟩
    · obtain ⟨hne, hall⟩ := ih h
      exact ⟨hne, fun d hd ↦ ⟨(hall d hd).1,
        List.mem_cons_of_mem _ ((List.dropWhile_sublist _).subset (hall d hd).2)⟩⟩

/-- A text that is not empty and has no separator is one token. -/
theorem tokens_eq_singleton {w : String} (hne : w ≠ "") (hw : ∀ c ∈ w.toList, p c = false)
    (start : Nat) : tokens p start w.toList = [{ text := w, start }] := by
  have hlist : String.ofList w.toList = w := String.ofList_toList
  obtain ⟨c, rest, hcons⟩ := List.exists_cons_of_ne_nil (String.toList_eq_nil_iff.not.mpr hne)
  rw [hcons] at hw hlist
  rw [List.forall_mem_cons] at hw
  have hrest : ∀ d ∈ rest, (!p d) = true := fun d hd ↦ by simp [hw.2 d hd]
  rw [hcons, tokens, if_neg (by simp [hw.1])]
  simp only [List.takeWhile_eq_self_iff.mpr hrest, List.dropWhile_eq_nil_iff.mpr hrest, hlist]
  rw [tokens]

theorem words_eq_singleton {w : String} (hne : w ≠ "") (hw : ∀ c ∈ w.toList, p c = false) :
    words p w.toList = [w] := by
  rw [words, tokens_eq_singleton hne hw, List.map_singleton]

/-- A text without separators has at most one word. -/
theorem length_words_le_one {cs : List Char} (h : ∀ c ∈ cs, p c = false) :
    (words p cs).length ≤ 1 := by
  by_cases hne : cs = []
  · simp [hne]
  · have hone : words p (cs ++ []) = _ := words_run hne h (by simp)
    rw [List.append_nil, words_nil] at hone
    rw [hone, List.length_singleton]

/-- A character that is no separator is in a word. -/
theorem exists_mem_words {cs : List Char} {c : Char} (hc : c ∈ cs) (hp : p c = false) :
    ∃ w ∈ words p cs, c ∈ w.toList := by
  rw [words]
  generalize 0 = start
  fun_induction tokens p start cs with
  | case1 => cases hc
  | case2 start d rest hd ih =>
    rcases List.mem_cons.mp hc with rfl | hc
    · rw [hp] at hd
      cases hd
    · exact ih hc
  | case3 start d rest hd run ih =>
    rw [cons_eq_run_append p, List.mem_append] at hc
    rw [List.map_cons]
    rcases hc with hc | hc
    · exact ⟨_, List.mem_cons_self, by rwa [String.toList_ofList]⟩
    · obtain ⟨w, hw, hmem⟩ := ih hc
      exact ⟨w, List.mem_cons_of_mem _ hw, hmem⟩

/-- The first character of the first word is the first that is no separator. -/
theorem head?_words (cs : List Char) :
    (words p cs).head?.bind (·.toList.head?) = cs.find? (!p ·) := by
  induction cs with
  | nil => simp
  | cons c cs ih =>
    cases hc : p c with
    | true => rw [words_cons_separator hc, List.find?_cons_of_neg (by simp [hc]), ih]
    | false => simp [words_cons_of_not hc, hc]

/-- Separators in front of a text belong to no word. -/
theorem words_separators_append {seps : List Char} (h : ∀ c ∈ seps, p c = true) (cs : List Char) :
    words p (seps ++ cs) = words p cs := by
  induction seps with
  | nil => rfl
  | cons c seps ih =>
    rw [List.cons_append, words_cons_separator (h c List.mem_cons_self),
      ih fun d hd ↦ h d (List.mem_cons_of_mem _ hd)]

/-- The words of a text that goes on with a separator, or ends, are those of its two parts. -/
theorem words_append {cs ds : List Char} (h : ∀ c ∈ ds.head?, p c = true) :
    words p (cs ++ ds) = words p cs ++ words p ds := by
  cases ds with
  | nil => rw [List.append_nil, words_nil, List.append_nil]
  | cons d ds => rw [words_append_separator (h d rfl), words_cons_separator (h d rfl)]

/-- **Words of words.**  A text may be divided in two rounds, if what separates in the first round
separates in the second. -/
theorem flatMap_words {q : Char → Bool} {cs : List Char} (h : ∀ c ∈ cs, q c = true → p c = true) :
    ((words q cs).flatMap fun w ↦ words p w.toList) = words p cs := by
  rw [words]
  generalize 0 = start
  fun_induction tokens q start cs with
  | case1 => simp
  | case2 start c rest hc ih =>
    rw [words_cons_separator (h c List.mem_cons_self hc),
      ih fun d hd ↦ h d (List.mem_cons_of_mem _ hd)]
  | case3 start c rest hc run ih =>
    have hrest : ∀ d ∈ rest.dropWhile (!q ·), d ∈ c :: rest := fun d hd ↦
      List.mem_cons_of_mem _ ((List.dropWhile_sublist _).subset hd)
    have hstop : ∀ d ∈ (rest.dropWhile (!q ·)).head?, p d = true := by
      intro d hd
      exact h d (hrest d (List.mem_of_mem_head? hd)) (separator_of_mem_head? hd)
    rw [List.map_cons, List.flatMap_cons, ih fun d hd ↦ h d (hrest d hd), String.toList_ofList,
      cons_eq_run_append q, words_append hstop]

/-! ## Words joined by spaces

The listing between the passes is written in this way, and a layout as well. -/

theorem toList_intercalate_cons_cons (w w' : String) (ws : List String) :
    (" ".intercalate (w :: w' :: ws)).toList =
      w.toList ++ ' ' :: (" ".intercalate (w' :: ws)).toList := by
  rw [String.intercalate_cons_cons, String.toList_append, String.toList_append,
    List.append_assoc]
  rfl

/-- The characters of a joined text are those of its parts and of what stands between them. -/
theorem mem_intercalate {between : String} {ws : List String} {c : Char}
    (h : c ∈ (between.intercalate ws).toList) : c ∈ between.toList ∨ ∃ w ∈ ws, c ∈ w.toList := by
  induction ws with
  | nil => cases h
  | cons w ws ih =>
    cases ws with
    | nil =>
      rw [String.intercalate_singleton] at h
      exact .inr ⟨w, List.mem_cons_self, h⟩
    | cons w' ws =>
      rw [String.intercalate_cons_cons, String.toList_append, String.toList_append,
        List.mem_append, List.mem_append] at h
      rcases h with (h | h) | h
      · exact .inr ⟨w, List.mem_cons_self, h⟩
      · exact .inl h
      · rcases ih h with h | ⟨v, hv, hc⟩
        · exact .inl h
        · exact .inr ⟨v, List.mem_cons_of_mem _ hv, hc⟩

/-- **Words joined by spaces are read back.**  Each text is divided further if it has separators of
its own. -/
theorem words_intercalate (hspace : p ' ' = true) (ws : List String) :
    words p (" ".intercalate ws).toList = ws.flatMap fun w ↦ words p w.toList := by
  induction ws with
  | nil => rw [String.intercalate_nil]; exact words_nil
  | cons w ws ih =>
    cases ws with
    | nil => rw [String.intercalate_singleton, List.flatMap_singleton]
    | cons w' ws =>
      rw [toList_intercalate_cons_cons, words_append_separator hspace, ih,
        List.flatMap_cons (x := w)]

/-! ## Offsets

The offset of the text itself is handed through, and is a lower bound of all offsets found. -/

/-- What is found in a text starts where the text starts or later. -/
theorem le_of_find? {needle : List Char} {start position : Nat} {cs : List Char}
    (h : find? needle start cs = some position) : start ≤ position := by
  induction cs generalizing start with
  | nil =>
    rw [find?] at h
    split at h
    · exact Nat.le_of_eq (Option.some.inj h)
    · cases h
  | cons c cs ih =>
    rw [find?] at h
    split at h
    · exact Nat.le_of_eq (Option.some.inj h)
    · exact Nat.le_trans (Nat.le_add_right _ _) (ih h)

/-- Tokens of a text start where the text starts or later. -/
theorem le_start_of_mem_tokens {start : Nat} {cs : List Char} {t : Token}
    (h : t ∈ tokens p start cs) : start ≤ t.start := by
  fun_induction tokens p start cs with
  | case1 => cases h
  | case2 start c rest hc ih => exact Nat.le_trans (Nat.le_add_right _ _) (ih h)
  | case3 start c rest hc run ih =>
    rcases List.mem_cons.mp h with rfl | h
    · exact Nat.le_refl _
    · exact Nat.le_trans (Nat.le_add_right _ _) (ih h)

end Text
end MipsAsm
