import Mathlib.Data.List.Forall2
import MipsAsm.Proofs.Assembly.Scan
import MipsAsm.Proofs.Text.Runs

/-!
# The listing between the passes

The first pass hands its instructions to the second as text.  Nothing is lost on the way, because
all texts of an instruction are tokens: not empty, without separators and without line feeds.  The
one exception is the operand `0($sp)`, which `push` and `pop` make and which is read back as the two
operands `0` and `$sp`.

Between the passes there is a text and nothing else, so the second pass would not notice if a word
of the first had a space in it; it would find one operand more.  That this cannot happen is shown
from the source on.  Tokens are what is between separators, expansions are made of tokens and of a
few fixed texts, and the one fixed text with separators in it is named in all of the results.

* `Instruction.expand_spelling` — what an instruction made of tokens stands for is spelled in
  tokens, but for that operand.
* `Instruction.ofTokens?_text` — the line of such an instruction is read back as the instruction.
* `Image.listingLines_listing` — a listing has one line for each of its instructions.
-/

set_option autoImplicit false

namespace MipsAsm

/-! ## Tokens

A token of a line is cut out between separators, so it has none, and the lines of a source have no
line feeds.  Whether a text is a token is decidable, and is decided for the texts that expansions
bring along. -/

namespace Line

/-- The text is one token of one line: it is not empty and has no separator and no line feed. -/
def IsToken (w : String) : Prop :=
  w ≠ "" ∧ ∀ c ∈ w.toList, isSeparator c = false ∧ c ≠ '\n'

instance (w : String) : Decidable (IsToken w) :=
  decidable_of_iff (w ≠ "" ∧ w.toList.all (fun c ↦ !isSeparator c && c != '\n') = true)
    (by simp [IsToken])

theorem IsToken.words {w : String} (h : IsToken w) : Text.words isSeparator w.toList = [w] :=
  Text.words_eq_singleton h.1 fun c hc ↦ (h.2 c hc).1

theorem mem_of_mem_body {cs : List Char} {c : Char} (h : c ∈ (read cs).body) : c ∈ cs := by
  have hcode : ∀ d ∈ code cs, d ∈ cs := fun d hd ↦ (List.takeWhile_sublist _).subset hd
  rw [read, Text.cut] at h
  cases hdrop : (code cs).dropWhile (· != ':') with
  | nil =>
    rw [hdrop] at h
    exact hcode c h
  | cons colon rest =>
    rw [hdrop] at h
    have hsub : (colon :: rest).Sublist (code cs) := hdrop ▸ List.dropWhile_sublist _
    exact hcode c (hsub.subset (List.mem_cons_of_mem _ h))

/-- The tokens of a line without line feeds are tokens. -/
theorem isToken_of_mem_tokens {cs : List Char} (hcs : '\n' ∉ cs) {t : Text.Token}
    (ht : t ∈ (read cs).tokens) : IsToken t.text := by
  obtain ⟨hne, hall⟩ := Text.mem_words (Text.text_mem_words ht)
  refine ⟨hne, fun c hc ↦ ⟨(hall c hc).1, ?_⟩⟩
  rintro rfl
  exact hcs (mem_of_mem_body (hall '\n' hc).2)

theorem isToken_decimal (n : Nat) : IsToken (Text.decimal n) := by
  refine ⟨?_, fun c hc ↦ ?_⟩
  · rw [Text.decimal, Ne, String.ofList_eq_empty_iff]
    exact Nat.toDigits_ne_nil
  · rw [Text.decimal, String.toList_ofList] at hc
    have hdigit := Nat.isDigit_of_mem_toDigits (by decide) (by decide) hc
    refine ⟨isSeparator_eq_false (q := Char.isDigit) (by decide) hdigit, ?_⟩
    rintro rfl
    exact absurd hdigit (by decide)

end Line

/-! ## Spelling

Two conditions on an instruction.  The instructions of source lines are `Instruction.Tokenized`;
what they are expanded to is `Instruction.WellSpelled`, which allows the one operand that is no
token. -/

namespace Pseudo

/-- The operand for the top of the stack. -/
def stackTop : String := "0($sp)"

theorem words_stackTop : Text.words Line.isSeparator stackTop.toList = ["0", "$sp"] := by
  decide +kernel

theorem lineFeed_not_mem_stackTop : '\n' ∉ stackTop.toList := by decide

theorem not_isToken_stackTop : ¬Line.IsToken stackTop := by decide

/-- The texts that expansions bring in besides the operands given and numbers. -/
theorem isToken_fixed :
    ∀ w ∈ ["addiu", "sw", "lw", "div", "mfhi", "lui", "ori", "xor", "addu", "$sp", "$at", "$0",
      "-4", "4", "-1", "1"], Line.IsToken w := by
  decide

end Pseudo

namespace Instruction

/-- The texts of the instruction are tokens, except for operands that are the top of the stack. -/
def WellSpelled (i : Instruction) : Prop :=
  Line.IsToken i.mnemonic ∧ ∀ w ∈ i.args, Line.IsToken w ∨ w = Pseudo.stackTop

/-- The texts of the instruction are tokens. -/
def Tokenized (i : Instruction) : Prop := ∀ w ∈ i.mnemonic :: i.args, Line.IsToken w

theorem Tokenized.wellSpelled {i : Instruction} (h : i.Tokenized) : i.WellSpelled :=
  ⟨h _ List.mem_cons_self, fun w hw ↦ .inl (h w (List.mem_cons_of_mem _ hw))⟩

theorem Tokenized.empty_not_mem {i : Instruction} (h : i.Tokenized) : "" ∉ i.args :=
  fun hmem ↦ (h _ (List.mem_cons_of_mem _ hmem)).1 rfl

theorem tokenized_of_instruction? {cs : List Char} (hcs : '\n' ∉ cs) {i : Instruction}
    (hi : (Line.read cs).instruction? = some i) : i.Tokenized := by
  obtain ⟨htokens, -⟩ := Option.filter_eq_some_iff.mp hi
  intro w hw
  cases hl : (Line.read cs).tokens with
  | nil =>
    rw [hl] at htokens
    cases htokens
  | cons first rest =>
    rw [hl] at htokens
    obtain rfl := Option.some.inj htokens
    obtain ⟨t, ht, rfl⟩ : ∃ t ∈ first :: rest, t.text = w := List.mem_map.mp hw
    exact Line.isToken_of_mem_tokens hcs (hl ▸ ht)

theorem tokenized_loadConstant {rd literal : String} (hrd : Line.IsToken rd)
    (hliteral : Line.IsToken literal) (value : Int) :
    ∀ i ∈ Pseudo.loadConstant rd literal value, i.Tokenized := by
  have hfixed := Pseudo.isToken_fixed
  simp only [List.forall_mem_cons] at hfixed
  rw [Pseudo.loadConstant]
  split <;> simp [Tokenized, hfixed, hrd, hliteral, Line.isToken_decimal]

/-- What a pseudo-instruction stands for is spelled in tokens if its operands are.  Only `push` and
`pop` make the operand that is the top of the stack. -/
theorem expand_pseudo_spelling {p : Pseudo} {args : List String} {is : List Instruction}
    (hargs : ∀ w ∈ args, Line.IsToken w) (h : p.expand args = .ok is) :
    ∀ i ∈ is, i.Tokenized ∨ i.WellSpelled ∧ (p = .push ∨ p = .pop) := by
  have hfixed := Pseudo.isToken_fixed
  simp only [List.forall_mem_cons] at hfixed
  rw [Pseudo.expand.eq_def] at h
  split at h
  case h_1 rd literal =>
    split at h
    · cases h
    · rename_i value _
      obtain rfl := Except.ok.inj h
      simp only [List.forall_mem_cons] at hargs
      exact fun i hi ↦ .inl (tokenized_loadConstant hargs.1 hargs.2.1 value i hi)
  case h_2 | h_3 =>
    obtain rfl := Except.ok.inj h
    simp only [List.forall_mem_cons] at hargs
    simp [Tokenized, WellSpelled, hargs, hfixed, Pseudo.stackTop]
  case h_4 | h_5 =>
    obtain rfl := Except.ok.inj h
    simp only [List.forall_mem_cons] at hargs
    simp [Tokenized, hargs, hfixed]
  case h_6 => cases h

/-- **What an instruction made of tokens stands for** is spelled in tokens, but for the operand that
`push` and `pop` make. -/
theorem expand_spelling {i : Instruction} {is : List Instruction} (hi : i.Tokenized)
    (h : i.expand = .ok is) :
    ∀ j ∈ is, j.Tokenized ∨ j.WellSpelled ∧ (i.mnemonic = "push" ∨ i.mnemonic = "pop") := by
  rw [expand] at h
  split at h
  · cases h
  · split at h
    · obtain rfl := Except.ok.inj h
      intro j hj
      obtain rfl := List.mem_singleton.mp hj
      exact .inl hi
    · rename_i p hp
      have hname : p.name = i.mnemonic := eq_of_beq (List.find?_some hp :)
      intro j hj
      rcases expand_pseudo_spelling (fun w hw ↦ hi w (List.mem_cons_of_mem _ hw)) h j hj with
        hj | ⟨hj, rfl | rfl⟩
      · exact .inl hj
      · exact .inr ⟨hj, .inl hname.symm⟩
      · exact .inr ⟨hj, .inr hname.symm⟩

/-! ## Reading a line back

`Instruction.reread` is what the second pass sees of an instruction.  It is the instruction itself
but for the operand `0($sp)`, and it is again made of tokens, so reading back is done once and for
all. -/

/-- The line of an instruction without its line feed. -/
def text (i : Instruction) : String := " ".intercalate (i.mnemonic :: i.args)

/-- The instruction as its line is read back: the top of the stack is two operands. -/
def reread (i : Instruction) : Instruction :=
  { i with args := i.args.flatMap fun w ↦ if w = Pseudo.stackTop then ["0", "$sp"] else [w] }

/-- What is read back from a line is made of tokens. -/
theorem WellSpelled.tokenized_reread {i : Instruction} (h : i.WellSpelled) :
    i.reread.Tokenized := by
  have hzero : Line.IsToken "0" := by decide
  have hsp : Line.IsToken "$sp" := by decide
  intro w hw
  rcases List.mem_cons.mp hw with rfl | hw
  · exact h.1
  · obtain ⟨v, hv, hw⟩ := List.mem_flatMap.mp hw
    split at hw
    · rcases List.mem_pair.mp hw with rfl | rfl
      · exact hzero
      · exact hsp
    · rename_i htop
      rw [List.mem_singleton.mp hw]
      exact (h.2 v hv).resolve_right htop

/-- An instruction made of tokens is read back as it is. -/
theorem Tokenized.reread_eq {i : Instruction} (h : i.Tokenized) : i.reread = i := by
  have hargs : ∀ w ∈ i.args, (if w = Pseudo.stackTop then ["0", "$sp"] else [w]) = [w] := by
    intro w hw
    rw [if_neg]
    rintro rfl
    exact Pseudo.not_isToken_stackTop (h _ (List.mem_cons_of_mem _ hw))
  rw [reread, List.flatMap_congr hargs, List.flatMap_singleton']

theorem ofTokens?_eq_some_iff {ts : List Text.Token} {i : Instruction} :
    ofTokens? ts = some i ↔ ts.map Text.Token.text = i.mnemonic :: i.args := by
  cases ts with
  | nil => simp [ofTokens?]
  | cons t ts =>
    rw [ofTokens?, Option.some.injEq, List.map_cons, List.cons.injEq]
    constructor
    · rintro rfl
      exact ⟨rfl, rfl⟩
    · rintro ⟨hmnemonic, hargs⟩
      rw [hmnemonic, hargs]

/-- **The line of an instruction is read back as the instruction.** -/
theorem ofTokens?_text {i : Instruction} (h : i.WellSpelled) :
    ofTokens? (Text.tokens Line.isSeparator 0 i.text.toList) = some i.reread := by
  rw [ofTokens?_eq_some_iff, Text.map_text_tokens, text, Text.words_intercalate rfl,
    List.flatMap_cons, h.1.words, List.singleton_append, reread]
  congr 1
  refine List.flatMap_congr fun w hw ↦ ?_
  split
  · rename_i htop
    rw [htop, Pseudo.words_stackTop]
  · rename_i htop
    exact ((h.2 w hw).resolve_right htop).words

theorem lineFeed_not_mem_text {i : Instruction} (h : i.WellSpelled) : '\n' ∉ i.text.toList := by
  intro hmem
  rcases Text.mem_intercalate hmem with hspace | ⟨w, hw, hc⟩
  · exact absurd hspace (by decide)
  · rcases List.mem_cons.mp hw with rfl | hw
    · exact (h.1.2 _ hc).2 rfl
    · rcases h.2 w hw with htoken | rfl
      · exact (htoken.2 _ hc).2 rfl
      · exact Pseudo.lineFeed_not_mem_stackTop hc

theorem toList_listing (is : List Instruction) :
    (listing is).toList = (is.map fun i ↦ i.text.toList).flatMap (· ++ ['\n']) := by
  rw [listing, String.toList_join, List.flatMap_map, List.flatMap_map]
  refine List.flatMap_congr fun i _ ↦ ?_
  rw [line, String.toList_append]
  rfl

/-- The last line feed of a listing starts an empty line. -/
theorem splitLines_listing {is : List Instruction} (h : ∀ i ∈ is, i.WellSpelled) :
    Text.splitLines (listing is).toList = (is.map fun i ↦ i.text.toList) ++ [[]] := by
  rw [toList_listing]
  refine Text.splitLines_flatMap_lineFeed fun l hl ↦ ?_
  obtain ⟨i, hi, rfl⟩ := List.mem_map.mp hl
  exact lineFeed_not_mem_text (h i hi)

theorem exists_listing_eq_append_lineFeed {is : List Instruction} (hne : is ≠ []) :
    ∃ text, (listing is).toList = text ++ ['\n'] := by
  obtain ⟨init, last, rfl⟩ := (List.eq_nil_or_concat is).resolve_left hne
  rw [toList_listing, List.concat_eq_append, List.map_append, List.flatMap_append,
    List.map_singleton, List.flatMap_singleton, ← List.append_assoc]
  exact ⟨_, rfl⟩

end Instruction

namespace Image

/-- **A listing has one line for each of its instructions.** -/
theorem listingLines_listing {is : List Instruction} (h : ∀ i ∈ is, i.WellSpelled) :
    listingLines (Instruction.listing is) = is.map fun i ↦ i.text.toList := by
  have hsplit := Instruction.splitLines_listing h
  rw [listingLines]
  split
  · rename_i hempty
    rw [hempty, String.toList_empty, Text.splitLines_nil] at hsplit
    have hlength := congrArg List.length hsplit
    rw [List.length_append, List.length_singleton] at hlength
    exact (List.eq_nil_of_length_eq_zero (by omega)).symm
  · rw [hsplit, List.dropLast_concat]

/-- The lines of a text that ends with a line feed are those of the text without it. -/
theorem listingLines_of_toList {listing : String} {text : List Char}
    (h : listing.toList = text ++ ['\n']) : listingLines listing = Text.splitLines text := by
  have hne : listing ≠ "" := by
    rintro rfl
    cases text <;> cases h
  rw [listingLines, if_neg hne, h, Text.splitLines_append_lineFeed, Text.splitLines_nil,
    List.dropLast_concat]

end Image

/-! ## The instructions of a source -/

theorem Line.mem_expansion {l : Line} {j : Instruction} :
    j ∈ l.expansion ↔ ∃ i is, l.instruction? = some i ∧ i.expand = .ok is ∧ j ∈ is := by
  rw [expansion]
  cases l.instruction? with
  | none => simp
  | some i => cases hexpand : i.expand <;> simp [hexpand]

/-- The instructions of lines without line feeds are spelled in tokens, but for the operands that a
line with `push` or `pop` makes. -/
theorem spelling_of_mem_expandLines {lines : List (List Char)} (hlines : ∀ l ∈ lines, '\n' ∉ l)
    {number : Nat} {j : Instruction} (h : (number, j) ∈ expandLines lines) :
    j.Tokenized ∨ j.WellSpelled ∧ ∃ cs i, lines[number]? = some cs ∧
      (Line.read cs).instruction? = some i ∧ (i.mnemonic = "push" ∨ i.mnemonic = "pop") := by
  obtain ⟨cs, hcs, hj⟩ := mem_expandLines.mp h
  obtain ⟨i, is, hi, hexpand, hmem⟩ := Line.mem_expansion.mp hj
  have htokenized := Instruction.tokenized_of_instruction? (hlines cs (List.mem_of_getElem? hcs)) hi
  rcases Instruction.expand_spelling htokenized hexpand j hmem with hj | ⟨hj, hpseudo⟩
  · exact .inl hj
  · exact .inr ⟨hj, cs, i, hcs, hi, hpseudo⟩

theorem wellSpelled_of_mem_expandLines {lines : List (List Char)} (hlines : ∀ l ∈ lines, '\n' ∉ l)
    {e : Nat × Instruction} (h : e ∈ expandLines lines) : e.2.WellSpelled := by
  rcases spelling_of_mem_expandLines hlines h with he | ⟨he, -⟩
  · exact he.wellSpelled
  · exact he

/-- Only a line with `push` or `pop` makes the operand that is the top of the stack. -/
theorem push_or_pop_of_stackTop_mem {lines : List (List Char)} (hlines : ∀ l ∈ lines, '\n' ∉ l)
    {number : Nat} {j : Instruction} (h : (number, j) ∈ expandLines lines)
    (htop : Pseudo.stackTop ∈ j.args) :
    ∃ cs i, lines[number]? = some cs ∧ (Line.read cs).instruction? = some i ∧
      (i.mnemonic = "push" ∨ i.mnemonic = "pop") := by
  rcases spelling_of_mem_expandLines hlines h with hj | ⟨-, hline⟩
  · exact absurd (hj _ (List.mem_cons_of_mem _ htop)) Pseudo.not_isToken_stackTop
  · exact hline

end MipsAsm
