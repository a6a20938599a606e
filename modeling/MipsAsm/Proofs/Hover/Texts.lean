import MipsAsm.Hover.Basic
import MipsAsm.Proofs.Encoding.Spelling
import MipsAsm.Proofs.Text.Basic
import MipsAsm.Proofs.Text.Digits

/-!
# What a description says

A description is markdown for a reader, so what it says about words and addresses is said here by a
reader.  `Shown.words` goes through a text line by line and takes up every line that consists of an
address and a word, both marked as code; `Shown.label?` takes a text for the definition of a label.
Neither knows how the text was made.

The description of an instruction begins with what the instruction does, and that is prose which has
marked code in it, too.  No line of it is taken for a word, so the words that are read are the words
that were put in, as often and in the order in which they were.  A label is marked as code in a text
in which nothing else is, and no label name has a backtick.

* `Shown.number?_hexWordDigits`, `Shown.number?_hexUpper` — numbers are read back.
* `Assembly.describeInstruction_singleton`, `Assembly.describeLabel_eq` — the texts in full.
* `Shown.words_describeInstruction` — the description of an instruction shows its words.
* `Shown.label?_describeLabel` — the description of a label shows its name and its address.
-/

set_option autoImplicit false

namespace MipsAsm

/-! ## Readers

A line or a text is divided at its backticks.  What stands between them then has to be as expected,
digit by digit and blank by blank. -/

namespace Shown

/-- The number of 32 bits that is written in base sixteen, with at least one digit. -/
def number? (digits : List Char) : Option UInt32 :=
  match Literal.magnitude { negative := false, base := 16, digits } with
  | .ok n => if n < 4294967296 then some (UInt32.ofNat n) else none
  | .error _ => none

/-- The address and the word on a line that has these two and nothing else. -/
def word? : List Char → Option (UInt32 × UInt32)
  | '\x60' :: '0' :: 'x' :: cs =>
    match cs.splitOn '\x60' with
    | [address, [':', ' '], word, []] => do return (← number? address, ← number? word)
    | _ => none
  | _ => none

/-- The addresses and words that a text shows, from its first line to its last. -/
def words (text : String) : List (UInt32 × UInt32) := (Text.splitLines text.toList).filterMap word?

/-- The name and the address in a text that defines a label. -/
def label? (text : String) : Option (String × UInt32) :=
  match text.toList.splitOn '\x60' with
  | [before, name, after] =>
    if before = "Definition of label ".toList then do
      let digits ← after.dropPrefix? ".\n\n Address of 0x".toList
      return (String.ofList name, ← number? digits)
    else none
  | _ => none

end Shown

/-! ## Numbers

An address or a word has all of its eight digits where a word is shown, and the address of a label
has no leading zero and is in capitals.  Both are read by the one reader, and no digit is one of the
marks between which it stands. -/

namespace Shown

theorem number?_of_readDigits {digits : List Char} {w : UInt32} (hdigits : digits ≠ [])
    (h : Literal.readDigits 16 0 digits = .ok w.toNat) : number? digits = some w := by
  have hfits : w.toNat < 4294967296 := w.toNat_lt
  rw [number?, Literal.magnitude, if_neg hdigits, h]
  simp only [hfits, ↓reduceIte, UInt32.ofNat_toNat]

theorem number?_hexWordDigits (w : UInt32) : number? (Text.hexWordDigits w) = some w :=
  number?_of_readDigits (List.cons_ne_nil _ _) (Literal.readDigits_hexWordDigits w)

theorem readDigits_hexUpper_toNat (w : UInt32) :
    Literal.readDigits 16 0 (Text.hexUpper w.toNat).toList = .ok w.toNat :=
  Literal.readDigits_hexUpper (Nat.lt_of_lt_of_le w.toNat_lt (by decide))

theorem number?_hexUpper (w : UInt32) : number? (Text.hexUpper w.toNat).toList = some w := by
  refine number?_of_readDigits ?_ (readDigits_hexUpper_toNat w)
  rw [Text.hexUpper, String.toList_ofList]
  exact fun hnil ↦ Nat.toDigits_ne_nil (List.map_eq_nil_iff.mp hnil)

/-- No digit is a backtick or a line feed. -/
theorem not_mem_hexWordDigits (w : UInt32) :
    '\x60' ∉ Text.hexWordDigits w ∧ '\n' ∉ Text.hexWordDigits w := by
  constructor <;> exact fun hmem ↦ absurd (Text.hexWordDigits_mem hmem) (by decide)

end Shown

/-! ## The characters of a text

A text that is put together from literals is looked at as the list of its characters, which
`Text.Spells` collects piece by piece.  A literal is compared with its characters that way and is
never decoded. -/

/-- The characters that a text is made of. -/
def Text.Spells (s : String) (cs : List Char) : Prop := s.toList = cs

namespace Text.Spells

variable {s t : String} {cs ds : List Char}

theorem ofList (cs : List Char) : Spells (String.ofList cs) cs := String.toList_ofList

theorem append (hs : Spells s cs) (ht : Spells t ds) : Spells (s ++ t) (cs ++ ds) := by
  rw [Spells, String.toList_append, hs, ht]

theorem braced (hs : Spells s cs) : Spells (Text.braced s) (cs.map brace) := by
  rw [Spells, Text.braced, String.toList_ofList, hs]

/-- Two texts with the same characters are one. -/
theorem eq_of_eq (hs : Spells s cs) (ht : Spells t ds) (h : cs = ds) : s = t :=
  String.toList_inj.mp (hs.trans (h.trans ht.symm))

end Text.Spells

namespace Assembly

theorem describePlacement_eq (p : Placement) : describePlacement p =
    "\n\n`0x" ++ Text.hexWord p.address ++ "`: `" ++ Text.hexWord p.word ++ "`" := by
  have haddress : Text.Spells (codeSpan ("0x" ++ Text.hexWord p.address)) _ :=
    .append (.append (.ofList _) (.append (.ofList _) rfl)) (.ofList _)
  have hword : Text.Spells (codeSpan (Text.hexWord p.word)) _ :=
    .append (.append (.ofList _) rfl) (.ofList _)
  have hleft : Text.Spells (describePlacement p) _ :=
    .append (.append (.append (.ofList _) haddress) (.ofList _)) hword
  refine hleft.eq_of_eq
    (.append (.append (.append (.append (.ofList _) rfl) (.ofList _)) rfl) (.ofList _)) ?_
  simp only [List.append_assoc, List.cons_append, List.nil_append]

/-- The text of words follows the text without them. -/
theorem describeInstruction_eq_append (m : Mnemonic) (words : List Placement) :
    describeInstruction m words =
      describeInstruction m [] ++ String.join (words.map describePlacement) := by
  simp only [describeInstruction, List.map_nil, String.join_nil, String.append_empty]

theorem describeInstruction_singleton (m : Mnemonic) (p : Placement) :
    describeInstruction m [p] = describeInstruction m [] ++
      ("\n\n`0x" ++ Text.hexWord p.address ++ "`: `" ++ Text.hexWord p.word ++ "`") := by
  rw [describeInstruction_eq_append, List.map_singleton, String.join_cons, String.join_nil,
    String.append_empty, describePlacement_eq]

theorem describeLabel_eq (name : String) (address : UInt32) : describeLabel name address =
    "Definition of label `" ++ name ++ "`.\n\n Address of 0x" ++ Text.hexUpper address.toNat := by
  have hname : Text.Spells (codeSpan name) _ := .append (.append (.ofList _) rfl) (.ofList _)
  have hleft : Text.Spells (describeLabel name address) _ :=
    .append (.append (.append (.ofList _) hname) (.ofList _)) (.append (.ofList _) rfl)
  refine hleft.eq_of_eq (.append (.append (.append (.ofList _) rfl) (.ofList _)) rfl) ?_
  simp only [List.append_assoc, List.cons_append, List.nil_append]

end Assembly

/-! ## Prose

Nothing in front of the words of an instruction is taken for a word, because a line of a word begins
with marked code and no line of prose does. -/

namespace Shown

/-- Whether no line begins with marked code. -/
def isProse (cs : List Char) : Bool :=
  (Text.splitLines cs).all fun l ↦ l.head? != some '\x60'

theorem isProse_append_lineFeed (cs ds : List Char) :
    isProse (cs ++ '\n' :: ds) = (isProse cs && isProse ds) := by
  rw [isProse, Text.splitLines_append_lineFeed, List.all_append]
  rfl

theorem isProse_of_not_mem {cs : List Char} (hfeed : '\n' ∉ cs) (hhead : cs.head? ≠ some '\x60') :
    isProse cs = true := by
  simp [isProse, Text.splitLines_of_not_mem hfeed, hhead]

theorem word?_of_head? {cs : List Char} (h : cs.head? ≠ some '\x60') : word? cs = none := by
  rw [word?.eq_def]
  split
  · exact absurd rfl h
  · rfl

/-- Prose shows no word. -/
theorem filterMap_word?_of_isProse {cs : List Char} (h : isProse cs = true) :
    (Text.splitLines cs).filterMap word? = [] := by
  rw [List.filterMap_eq_nil_iff]
  intro l hl
  have hhead := List.all_eq_true.mp h l hl
  exact word?_of_head? (by simpa using hhead)

theorem isProse_of_spells {s : String} {cs : List Char} (hs : Text.Spells s cs)
    (hcs : isProse cs = true) : isProse s.toList = true := by
  rwa [hs]

theorem isProse_description (m : Mnemonic) : isProse m.description.toList = true := by
  delta Mnemonic.description
  cases m
  all_goals
    dsimp only
    apply isProse_of_spells
    · with_reducible
        repeat first | exact .ofList _ | apply Text.Spells.append | apply Text.Spells.braced
    · rfl

/-- A family has its title and its format on one line. -/
theorem isProse_title (f : Family) :
    isProse (f.title ++ " instruction, format " ++ codeSpan f.format).toList = true := by
  delta Family.title Family.format codeSpan
  cases f
  all_goals
    dsimp only
    apply isProse_of_spells
    · with_reducible repeat first | exact .ofList _ | apply Text.Spells.append
    · rfl

/-- The fields of a family are on one line. -/
theorem lineFeed_not_mem_fields (f : Family) :
    '\n' ∉ (", ".intercalate (f.layout.map Field.description)).toList := by
  have hfield : Field.all.all (fun f ↦ !f.description.toList.contains '\n') = true := by
    decide
  intro hmem
  rcases Text.mem_intercalate hmem with hmem | ⟨w, hw, hmem⟩
  · exact absurd hmem (by decide)
  · obtain ⟨field, hin, rfl⟩ := List.mem_map.mp hw
    have hnone := List.all_eq_true.mp hfield field (List.mem_of_mem_filter hin)
    simp [hmem] at hnone

/-- What an instruction does and how it is written and encoded is prose. -/
theorem isProse_describeInstruction_nil (m : Mnemonic) :
    isProse (Assembly.describeInstruction m []).toList = true := by
  have hfields : isProse ("Fields: ".toList ++
      (", ".intercalate (m.family.layout.map Field.description)).toList) = true := by
    refine isProse_of_not_mem ?_ (by simp)
    rw [List.mem_append, not_or]
    exact ⟨by decide, lineFeed_not_mem_fields m.family⟩
  have htext : (Assembly.describeInstruction m []).toList = m.description.toList ++ '\n' ::
      ([] ++ '\n' :: ((m.family.title ++ " instruction, format " ++
        codeSpan m.family.format).toList ++ '\n' :: ([] ++ '\n' :: ("Fields: ".toList ++
          (", ".intercalate (m.family.layout.map Field.description)).toList)))) := by
    simp [Assembly.describeInstruction, String.toList_append]
  rw [htext, isProse_append_lineFeed, isProse_append_lineFeed, isProse_append_lineFeed,
    isProse_append_lineFeed, isProse_description, isProse_title, hfields]
  rfl

end Shown

/-! ## Words

Each word is on a line of its own, after a blank line, so the lines of a description are those of
its prose and then, for each word, these two. -/

namespace Assembly

/-- The line that shows a word at its address. -/
def wordLine (p : Placement) : List Char :=
  '\x60' :: '0' :: 'x' :: (Text.hexWordDigits p.address ++ '\x60' :: ':' :: ' ' :: '\x60' ::
    (Text.hexWordDigits p.word ++ ['\x60']))

theorem toList_describePlacement (p : Placement) :
    (describePlacement p).toList = '\n' :: '\n' :: wordLine p := by
  simp [describePlacement, codeSpan, Text.hexWord, wordLine]

theorem lineFeed_not_mem_wordLine (p : Placement) : '\n' ∉ wordLine p := by
  simp [wordLine, (Shown.not_mem_hexWordDigits p.address).2, (Shown.not_mem_hexWordDigits p.word).2]

/-- The lines of a text with words after it: a blank one before each word. -/
theorem splitLines_append_words (cs : List Char) (words : List Placement) :
    Text.splitLines (cs ++ words.flatMap fun p ↦ (describePlacement p).toList) =
      Text.splitLines cs ++ words.flatMap fun p ↦ [[], wordLine p] := by
  induction words generalizing cs with
  | nil => simp
  | cons p words ih =>
    have hblank : Text.splitLines ([] : List Char) = [[]] := rfl
    rw [List.flatMap_cons, toList_describePlacement, List.cons_append, List.cons_append,
      Text.splitLines_append_lineFeed, ← List.nil_append ('\n' :: _),
      Text.splitLines_append_lineFeed, hblank, ih,
      Text.splitLines_of_not_mem (lineFeed_not_mem_wordLine p)]
    simp

end Assembly

namespace Shown

open Assembly (wordLine describeInstruction)

theorem word?_wordLine (p : Placement) : word? (wordLine p) = some (p.address, p.word) := by
  have hparts : (Text.hexWordDigits p.address ++ '\x60' :: ([':', ' '] ++ '\x60' ::
      (Text.hexWordDigits p.word ++ '\x60' :: []))).splitOn '\x60' =
      [Text.hexWordDigits p.address, [':', ' '], Text.hexWordDigits p.word, []] := by
    rw [List.splitOn_append_cons_self, List.splitOn_append_cons_self,
      List.splitOn_append_cons_self, List.splitOn_eq_singleton (not_mem_hexWordDigits p.address).1,
      List.splitOn_eq_singleton (not_mem_hexWordDigits p.word).1]
    rfl
  rw [wordLine, word?]
  rw [List.cons_append, List.cons_append, List.nil_append] at hparts
  rw [hparts]
  simp only [number?_hexWordDigits]
  rfl

/-- **The description of an instruction shows its words**, in their order, and no others. -/
theorem words_describeInstruction (m : Mnemonic) (ws : List Placement) :
    words (describeInstruction m ws) = ws.map fun p ↦ (p.address, p.word) := by
  have hblank : word? [] = none := rfl
  rw [words, Assembly.describeInstruction_eq_append, String.toList_append, String.toList_join,
    List.flatMap_map, Assembly.splitLines_append_words, List.filterMap_append,
    filterMap_word?_of_isProse (isProse_describeInstruction_nil m), List.nil_append]
  induction ws with
  | nil => rfl
  | cons p ws ih =>
    rw [List.flatMap_cons, List.filterMap_append, ih, List.filterMap_cons_none hblank,
      List.filterMap_cons_some (word?_wordLine p)]
    rfl

end Shown

/-! ## Labels -/

theorem Assembly.toList_describeLabel (name : String) (address : UInt32) :
    (describeLabel name address).toList = "Definition of label ".toList ++ '\x60' ::
      (name.toList ++ '\x60' :: (".\n\n Address of 0x".toList ++
        (Text.hexUpper address.toNat).toList)) := by
  have hmark : "`".toList = ['\x60'] := by decide
  have hbefore : ".\n\n Address of 0x".toList = ".\n\n ".toList ++ "Address of 0x".toList := by
    decide
  have hspelled : Text.Spells (describeLabel name address) _ :=
    .append (.append (.append rfl (.append (.append rfl rfl) rfl)) rfl) (.append rfl rfl)
  rw [hspelled, hmark, hbefore]
  simp only [List.append_assoc, List.cons_append, List.nil_append]

/-- **The description of a label shows its name and its address.** -/
theorem Shown.label?_describeLabel {name : String} (hname : Label.isValid name = true)
    (address : UInt32) : label? (Assembly.describeLabel name address) = some (name, address) := by
  have hmiddle : '\x60' ∉ name.toList := Label.not_mem_of_isValid hname (by decide)
  have hdigits : '\x60' ∉ (Text.hexUpper address.toNat).toList := fun hmem ↦
    absurd (Literal.isSimple_of_readDigits (readDigits_hexUpper_toNat address) _ hmem) (by decide)
  have hafter : '\x60' ∉ ".\n\n Address of 0x".toList ++ (Text.hexUpper address.toNat).toList := by
    rw [List.mem_append, not_or]
    exact ⟨by decide, hdigits⟩
  have hparts : (Assembly.describeLabel name address).toList.splitOn '\x60' =
      ["Definition of label ".toList, name.toList,
        ".\n\n Address of 0x".toList ++ (Text.hexUpper address.toNat).toList] := by
    rw [Assembly.toList_describeLabel, List.splitOn_append_cons_self,
      List.splitOn_append_cons_self, List.splitOn_eq_singleton hmiddle,
      List.splitOn_eq_singleton hafter, List.splitOn_eq_singleton (by decide)]
    rfl
  have hdrop : (".\n\n Address of 0x".toList ++ (Text.hexUpper address.toNat).toList).dropPrefix?
      ".\n\n Address of 0x".toList = some (Text.hexUpper address.toNat).toList :=
    List.dropPrefix?_append_of_beq _ (BEq.refl _)
  rw [label?, hparts]
  simp only [↓reduceIte, hdrop, Option.bind_eq_bind, Option.bind_some, number?_hexUpper,
    String.ofList_toList]
  rfl

end MipsAsm
