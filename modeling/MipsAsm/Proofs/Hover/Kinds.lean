import MipsAsm.Hover.Basic
import MipsAsm.Proofs.Assembly.Tables
import MipsAsm.Proofs.Encoding.Spelling
import MipsAsm.Proofs.Literal
import MipsAsm.Proofs.Text.Runs

/-!
# Kinds of operands

An operand is a register, an integer or a label, and its first character tells which: a dollar sign,
a digit or a sign, a letter or an underscore.  An editor looks for a description of an operand by
trying one kind after the other.  Since no text is of two kinds, and the names in the tables of an
assembly are label names, it may try them in any order.

The readers of registers, integers and labels were written without regard to one another, and that
no text is accepted by two of them is a matter of their first characters.  It matters because an
editor has only the text of an operand and tries one reader after the other.

The tables come in because a label is described from the table of labels, where in principle any
name could be.  In the tables of an assembly there are only label names, and a name that is no label
name would be described as a label in one order of the kinds and as something else in another.

* `OperandKind`, `OperandKind.Accepts` — the kinds, each as what its reader accepts.
* `OperandKind.exists_start` — the first character tells the kind.
* `OperandKind.Accepts.simple` — operands are written in simple characters, so that each is one
  token.
* `Label.isValid_iff` — what a label name is, without the reader.
* `Assembly.describeAs`, `Assembly.findSome?_describeAs` — the order does not matter.
* `operand_kinds_are_disjoint` — the result.
-/

set_option autoImplicit false

namespace MipsAsm

/-! ## Label names

The two classes of characters of a label name are ranges of letters and digits.  They are compared
with those of the library here, so that the result can be read without them. -/

namespace Label

theorem isStart_eq (c : Char) : isStart c = (c.isAlpha || c == '_') := by
  have hlower : (decide ('a' ≤ c) && decide (c ≤ 'z')) = c.isLower := rfl
  have hupper : (decide ('A' ≤ c) && decide (c ≤ 'Z')) = c.isUpper := (Bool.decide_and _ _).symm
  rw [isStart, hlower, hupper, Bool.or_comm c.isLower]
  rfl

theorem isContinue_eq (c : Char) : isContinue c = (c.isAlphanum || c == '_') := by
  have hdigit : (decide ('0' ≤ c) && decide (c ≤ '9')) = c.isDigit := rfl
  rw [isContinue, isStart_eq, hdigit, Bool.or_assoc, Bool.or_comm (c == '_'), ← Bool.or_assoc]
  rfl

/-- **What a label name is**: a letter or an underscore, and then any number of letters, digits and
underscores. -/
theorem isValid_iff {name : String} :
    isValid name = true ↔ ∃ c rest, name.toList = c :: rest ∧ (c.isAlpha = true ∨ c = '_') ∧
      ∀ d ∈ rest, d.isAlphanum = true ∨ d = '_' := by
  rw [isValid]
  cases name.toList with
  | nil => simp
  | cons c rest => simp [isStart_eq, isContinue_eq]

end Label

/-! ## Integers

A literal that has a value has a digit, and the digit stands in front or behind a sign.  That
settles its first character. -/

/-- A literal that has a value has a digit. -/
theorem Literal.exists_digit_of_parse {s : String} {lower upper v : Int}
    (h : parse s lower upper = .ok v) :
    ∃ c rest, (ofChars s.toList).digits = c :: rest ∧
      (digitValue? (ofChars s.toList).base c).isSome = true := by
  rw [parse, value, magnitude] at h
  cases hdigits : (ofChars s.toList).digits with
  | nil =>
    rw [if_pos hdigits] at h
    cases h
  | cons c rest =>
    refine ⟨c, rest, rfl, ?_⟩
    rw [if_neg (by simp [hdigits]), hdigits, readDigits] at h
    cases hvalue : digitValue? (ofChars s.toList).base c with
    | none =>
      rw [hvalue] at h
      cases h
    | some d => rfl

/-- A digit of base ten is one of the ten characters. -/
theorem Literal.of_digitValue?_ten {c : Char} (h : (digitValue? 10 c).isSome = true) :
    '0' ≤ c ∧ c ≤ '9' := by
  obtain ⟨d, hd⟩ := Option.isSome_iff_exists.mp h
  obtain ⟨hhex, hlt⟩ := Option.filter_eq_some_iff.mp hd
  have hlt : d < 10 := of_decide_eq_true hlt
  rw [Text.hexDigit?] at hhex
  split at hhex
  · assumption
  · -- letters stand for ten and more
    split at hhex
    · have hd := Option.some.inj hhex
      omega
    · split at hhex
      · have hd := Option.some.inj hhex
        omega
      · cases hhex

/-! ## Kinds

Each kind is what the reader of that kind accepts, and nothing is assumed about how the readers are
tried.  That no text is of two kinds follows from its first character. -/

/-- The kinds of operands. -/
inductive OperandKind where
  /-- The name of a register. -/
  | register
  /-- An integer literal. -/
  | integer
  /-- A label name. -/
  | label
deriving DecidableEq

namespace OperandKind

/-- The text is an operand of the kind.  An integer has to be one within some bounds. -/
def Accepts (k : OperandKind) (s : String) : Prop :=
  match k with
  | .register => ∃ r, Register.parse s = .ok r
  | .integer => ∃ lower upper v, Literal.parse s lower upper = .ok v
  | .label => Label.isValid s = true

/-- The kind of the operands that start with a character. -/
def ofStart? (c : Char) : Option OperandKind :=
  if Label.isStart c then some .label
  else if c = '$' then some .register
  else if ('0' ≤ c ∧ c ≤ '9') ∨ c = '+' ∨ c = '-' then some .integer
  else none

theorem ofStart?_digit {c : Char} (h : '0' ≤ c ∧ c ≤ '9') : ofStart? c = some .integer := by
  have hstart : Label.isStart c = false := by
    refine Bool.eq_false_iff.mpr fun hstart ↦ ?_
    simp only [Label.isStart, Bool.or_eq_true, Bool.and_eq_true, decide_eq_true_eq,
      beq_iff_eq] at hstart
    rcases hstart with (hletter | hletter) | rfl
    · exact absurd (Char.le_trans hletter.1 h.2) (by decide)
    · exact absurd (Char.le_trans hletter.1 h.2) (by decide)
    · exact absurd h.2 (by decide)
  have hdollar : c ≠ '$' := by
    rintro rfl
    exact absurd h.1 (by decide)
  rw [ofStart?, if_neg (by simp [hstart]), if_neg hdollar, if_pos (.inl h)]

variable {k k' : OperandKind} {s : String}

/-- **The first character tells the kind.** -/
theorem exists_start (h : k.Accepts s) : ∃ c rest, s.toList = c :: rest ∧ ofStart? c = some k := by
  cases k with
  | register =>
    obtain ⟨r, hr⟩ := h
    have hnames : ∀ entry ∈ Register.names, entry.1.toList.head? = some '$' := by decide
    obtain ⟨before, after, heq, -⟩ := List.lookup_eq_some_iff.mp (Register.parse_eq_ok hr)
    obtain ⟨rest, hrest⟩ := List.head?_eq_some_iff.mp (hnames (s, r) (by simp [heq]))
    exact ⟨'$', rest, hrest, rfl⟩
  | integer =>
    obtain ⟨lower, upper, v, hv⟩ := h
    obtain ⟨c, digits, hdigits, hc⟩ := Literal.exists_digit_of_parse hv
    obtain ⟨unsigned, hsign, hbase⟩ := Literal.makesUp_iff.mpr (rfl : Literal.ofChars s.toList = _)
    generalize (Literal.ofChars s.toList).negative = negative at hsign
    generalize (Literal.ofChars s.toList).base = base, (Literal.ofChars s.toList).digits = all at *
    generalize s.toList = cs at *
    cases hsign with
    | minus => exact ⟨'-', _, rfl, rfl⟩
    | plus => exact ⟨'+', _, rfl, rfl⟩
    | none =>
      cases hbase with
      | sixteen => exact ⟨'0', _, rfl, rfl⟩
      | ten => exact ⟨c, digits, hdigits, ofStart?_digit (Literal.of_digitValue?_ten hc)⟩
  | label =>
    have hvalid : Label.isValid s = true := h
    rw [Label.isValid] at hvalid
    split at hvalid
    · cases hvalid
    · rename_i c rest hs
      rw [Bool.and_eq_true] at hvalid
      exact ⟨c, rest, hs, if_pos hvalid.1⟩

/-- **No text is of two kinds.** -/
theorem Accepts.unique (h : k.Accepts s) (h' : k'.Accepts s) : k = k' := by
  obtain ⟨c, rest, hs, hk⟩ := exists_start h
  obtain ⟨c', rest', hs', hk'⟩ := exists_start h'
  obtain ⟨rfl, -⟩ := List.cons.inj (hs.symm.trans hs')
  exact Option.some.inj (hk.symm.trans hk')

/-- Operands are simple. -/
theorem Accepts.simple (h : k.Accepts s) : Text.Simple s := by
  cases k with
  | register =>
    obtain ⟨r, hr⟩ := h
    exact Register.simple_of_parse hr
  | integer =>
    obtain ⟨lower, upper, v, hv⟩ := h
    exact Literal.simple_of_parse hv
  | label => exact Label.simple_of_isValid h

end OperandKind

/-- A simple character divides neither tokens nor lines, and marks neither a label nor a comment. -/
theorem Text.of_isSimple {c : Char} (h : isSimple c = true) :
    Line.isSeparator c = false ∧ c ≠ '#' ∧ c ≠ ':' ∧ c ≠ '\n' := by
  refine ⟨Line.isSeparator_eq_false (q := isSimple) (by decide) h, ?_, ?_, ?_⟩
  all_goals
    rintro rfl
    cases h

/-! ## The order in which kinds are tried

A name may be shown because it is in one of the tables.  Those have label names only, so that even a
lookup in a table shows what kind of operand it is. -/

namespace Assembly

/-- What is shown about an operand if it is taken for one of the kind. -/
def describeAs (a : Assembly) (operand : String) (k : OperandKind) : Option String :=
  match k with
  | .register => (Register.ofName? operand).map (describeRegister operand)
  | .integer =>
    (Literal.parse operand (-9223372036854775808) 9223372036854775807).toOption.map describeInteger
  | .label => a.describeName operand

theorem describeOperand_eq (a : Assembly) (operand : String) :
    a.describeOperand operand =
      [OperandKind.register, .integer, .label].findSome? (a.describeAs operand) := by
  rw [describeOperand]
  simp only [List.findSome?_cons, List.findSome?_nil, describeAs]
  cases Register.ofName? operand with
  | some r => rfl
  | none =>
    cases Literal.parse operand (-9223372036854775808) 9223372036854775807 with
    | ok value => rfl
    | error e => cases a.describeName operand <;> rfl

variable {o : Options} {source : String} {a : Assembly} {operand text : String} {k : OperandKind}

/-- A name that something is shown about is in a table. -/
theorem exists_symbol_of_describeName (h : assemble o source = some a)
    (hshown : a.describeName operand = some text) :
    ∃ s : Symbol, s.name = operand ∧
      (s ∈ a.labels.entries.toList ∨ s ∈ a.relocations.entries.toList) := by
  rw [describeName] at hshown
  cases hfind : a.labels.find? operand with
  | some address =>
    rw [labels, SymbolTable.find?_eq (assemble_describes h).scan.wellFormed] at hfind
    obtain ⟨s, hs, -⟩ := Option.map_eq_some_iff.mp hfind
    exact ⟨s, by simpa using List.find?_some hs, .inl (List.mem_of_find?_eq_some hs)⟩
  | none =>
    simp only [hfind] at hshown
    split at hshown
    · cases hshown
    · rename_i hnonzero
      have hpos : 0 < a.relocationCount operand := Nat.pos_of_ne_zero hnonzero
      obtain ⟨s, hs, hname⟩ := Array.countP_pos_iff.mp hpos
      exact ⟨s, by simpa using hname, .inr (Array.mem_toList_iff.mpr hs)⟩

/-- **What is shown about an operand shows its kind.** -/
theorem accepts_of_describeAs (h : assemble o source = some a)
    (hshown : a.describeAs operand k = some text) : k.Accepts operand := by
  cases k with
  | register =>
    obtain ⟨r, hr, -⟩ := Option.map_eq_some_iff.mp hshown
    exact ⟨r, by rw [Register.parse, hr]⟩
  | integer =>
    cases hparse : Literal.parse operand (-9223372036854775808) 9223372036854775807 with
    | ok v => exact ⟨_, _, v, hparse⟩
    | error e =>
      rw [describeAs, hparse] at hshown
      cases hshown
  | label =>
    obtain ⟨s, rfl, hs⟩ := exists_symbol_of_describeName h hshown
    exact isValid_of_mem_tables h hs

/-- **The order in which the kinds of an operand are tried does not matter.** -/
theorem findSome?_describeAs (h : assemble o source = some a) {order : List OperandKind}
    (horder : order.Perm [.register, .integer, .label]) :
    order.findSome? (a.describeAs operand) = a.describeOperand operand := by
  rw [describeOperand_eq]
  refine findSome?_eq_of_perm (fun k k' v w hk hk' ↦ ?_) horder
  exact (accepts_of_describeAs h hk).unique (accepts_of_describeAs h hk')

end Assembly

/-! ## The result -/

/-- **Kinds of operands are disjoint.**  A text is of at most one kind, and a label name is what its
grammar says.  A text of any kind is not empty and has no separator, no mark of a comment or a label
and no line feed, so that it is one token.  In an assembly, what is shown about an operand does not
depend on the order in which the kinds are tried. -/
theorem operand_kinds_are_disjoint (s : String) :
    (∀ k k' : OperandKind, k.Accepts s → k'.Accepts s → k = k') ∧
    (Label.isValid s = true ↔ ∃ c rest, s.toList = c :: rest ∧
      (c.isAlpha = true ∨ c = '_') ∧ ∀ d ∈ rest, d.isAlphanum = true ∨ d = '_') ∧
    (∀ k : OperandKind, k.Accepts s → s ≠ "" ∧
      (∀ c ∈ s.toList, Line.isSeparator c = false ∧ c ≠ '#' ∧ c ≠ ':' ∧ c ≠ '\n') ∧
      Text.tokens Line.isSeparator 0 s.toList = [{ text := s, start := 0 }]) ∧
    ∀ (o : Options) (source : String) (a : Assembly), assemble o source = some a →
      ∀ order : List OperandKind, order.Perm [.register, .integer, .label] →
        order.findSome? (a.describeAs s) = a.describeOperand s := by
  refine ⟨fun k k' hk hk' ↦ hk.unique hk', Label.isValid_iff, fun k hk ↦ ?_,
    fun o source a ha order horder ↦ Assembly.findSome?_describeAs ha horder⟩
  have hne : s ≠ "" := by
    rintro rfl
    obtain ⟨c, rest, hs, -⟩ := OperandKind.exists_start hk
    cases hs
  have hchars := fun c hc ↦ Text.of_isSimple (hk.simple c hc)
  exact ⟨hne, hchars, Text.tokens_eq_singleton hne (fun c hc ↦ (hchars c hc).1) 0⟩

/-- A jump to a label that is nowhere defined: its name is one token, and it is found among the
relocations also if labels are tried first. -/
theorem operand_kinds_are_disjoint_of_jump :
    Text.tokens Line.isSeparator 0 "_x1".toList = [{ text := "_x1", start := 0 }] ∧
      ¬OperandKind.integer.Accepts "_x1" ∧
      ∃ a, assemble {} "j _x1" = some a ∧ a.relocationCount "_x1" = 1 ∧
        [OperandKind.label, .integer, .register].findSome? (a.describeAs "_x1") =
          a.describeOperand "_x1" := by
  obtain ⟨hunique, -, htoken, horder⟩ := operand_kinds_are_disjoint "_x1"
  have hlabel : OperandKind.label.Accepts "_x1" := by
    show Label.isValid "_x1" = true
    decide
  have heval : (assemble {} "j _x1").map (fun a ↦ a.relocationCount "_x1") = some 1 := by
    decide +kernel
  obtain ⟨a, ha, hcount⟩ := Option.map_eq_some_iff.mp heval
  refine ⟨(htoken .label hlabel).2.2, fun hinteger ↦ ?_, a, ha, hcount,
    horder {} _ a ha _ (by decide)⟩
  cases hunique .integer .label hinteger hlabel

end MipsAsm
