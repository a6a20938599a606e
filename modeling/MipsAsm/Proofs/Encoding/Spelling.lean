import MipsAsm.Proofs.Encoding.Decoding

/-!
# How instructions that have words are spelled

Mnemonics and operands are written in few characters: letters, digits, underscores, the mark of a
register and the signs of a number.  A text with any other character is no register, no number and
no label, so that an instruction with such a text has no word.

* `Text.isSimple`, `Text.Simple` — these characters, and the texts written in them.
* `Operand.simple_of_value` — an operand that has a value is written in them.
* `Instruction.simple_of_encode` — so are all texts of an instruction that has a word.
-/

set_option autoImplicit false

namespace MipsAsm

/-- The characters that mnemonics and operands are written in. -/
def Text.isSimple (c : Char) : Bool := Label.isContinue c || c == '$' || c == '+' || c == '-'

/-- The text is written in simple characters. -/
def Text.Simple (w : String) : Prop := ∀ c ∈ w.toList, isSimple c = true

open Text (isSimple Simple)

instance (w : String) : Decidable (Simple w) :=
  decidable_of_iff (w.toList.all isSimple = true) (by simp [Simple])

theorem Text.isSimple_of_isContinue {c : Char} (h : Label.isContinue c = true) :
    isSimple c = true := by
  simp [isSimple, h]

/-! ## Labels and registers -/

namespace Label

theorem of_isValid {name : String} (h : isValid name = true) :
    name.toList ≠ [] ∧ ∀ c ∈ name.toList, isContinue c = true := by
  rw [isValid] at h
  split at h
  · cases h
  · rename_i c rest hname
    rw [Bool.and_eq_true, List.all_eq_true] at h
    rw [hname]
    refine ⟨List.cons_ne_nil _ _, fun d hd ↦ ?_⟩
    rcases List.mem_cons.mp hd with rfl | hd
    · rw [isContinue, h.1]
      rfl
    · exact h.2 d hd

theorem simple_of_isValid {name : String} (h : isValid name = true) : Simple name :=
  fun c hc ↦ Text.isSimple_of_isContinue ((of_isValid h).2 c hc)

/-- A label name has no character that may not stand in one. -/
theorem not_mem_of_isValid {name : String} (h : isValid name = true) {c : Char}
    (hc : isContinue c = false) : c ∉ name.toList := by
  intro hmem
  rw [(of_isValid h).2 c hmem] at hc
  cases hc

end Label

theorem Register.simple_of_parse {name : String} {r : Register} (h : parse name = .ok r) :
    Simple name := by
  have hnames : ∀ entry ∈ names, Simple entry.1 := by decide
  obtain ⟨before, after, heq, -⟩ := List.lookup_eq_some_iff.mp (parse_eq_ok h)
  exact hnames (name, r) (by simp [heq])

/-! ## Literals

A literal that can be read is a sign, the mark of a base and digits.  Each character of it is looked
at by one of the readers, and each of them accepts simple characters only. -/

namespace Literal

theorem isSimple_of_hexDigit? {c : Char} {d : Nat} (h : Text.hexDigit? c = some d) :
    isSimple c = true := by
  apply Text.isSimple_of_isContinue
  simp only [Label.isContinue, Label.isStart, Bool.or_eq_true, Bool.and_eq_true,
    decide_eq_true_eq]
  rw [Text.hexDigit?] at h
  split at h
  · rename_i hc
    exact .inr hc
  · split at h
    · rename_i hc
      exact .inl (.inl (.inl ⟨hc.1, Char.le_trans hc.2 (by decide)⟩))
    · split at h
      · rename_i hc
        exact .inl (.inl (.inr ⟨hc.1, Char.le_trans hc.2 (by decide)⟩))
      · cases h

theorem isSimple_of_readDigits {base acc n : Nat} {cs : List Char}
    (h : readDigits base acc cs = .ok n) : ∀ c ∈ cs, isSimple c = true := by
  induction cs generalizing acc with
  | nil => simp
  | cons c cs ih =>
    rw [readDigits] at h
    split at h
    · cases h
    · rename_i d hd
      split at h
      · obtain ⟨hdigit, -⟩ := Option.filter_eq_some_iff.mp hd
        intro e he
        rcases List.mem_cons.mp he with rfl | he
        · exact isSimple_of_hexDigit? hdigit
        · exact ih h e he
      · cases h

/-- The sign of a literal is simple. -/
theorem mem_splitSign {cs : List Char} {c : Char} (h : c ∈ cs) :
    c ∈ (splitSign cs).2 ∨ isSimple c = true := by
  rw [splitSign.eq_def]
  split
  · rcases List.mem_cons.mp h with rfl | h
    · exact .inr (by decide)
    · exact .inl h
  · rcases List.mem_cons.mp h with rfl | h
    · exact .inr (by decide)
    · exact .inl h
  · exact .inl h

/-- The mark of the base of a literal is simple. -/
theorem mem_splitBase {cs : List Char} {c : Char} (h : c ∈ cs) :
    c ∈ (splitBase cs).2 ∨ isSimple c = true := by
  rw [splitBase.eq_def]
  split
  · rename_i mark d rest
    split
    · rename_i hmark
      rcases List.mem_cons.mp h with rfl | h
      · exact .inr (by decide)
      · rcases List.mem_cons.mp h with rfl | h
        · rcases hmark with rfl | rfl <;> exact .inr (by decide)
        · exact .inl h
    · exact .inl h
  · exact .inl h

theorem simple_of_parse {s : String} {lower upper v : Int} (h : parse s lower upper = .ok v) :
    Simple s := by
  have hdigits : ∀ c ∈ (ofChars s.toList).digits, isSimple c = true := by
    by_cases hempty : (ofChars s.toList).digits = []
    · simp [hempty]
    · rw [parse, value, magnitude, if_neg hempty] at h
      cases hread : readDigits (ofChars s.toList).base 0 (ofChars s.toList).digits with
      | error kind =>
        rw [hread] at h
        cases h
      | ok n => exact isSimple_of_readDigits hread
  intro c hc
  rcases mem_splitSign hc with hc | hc
  · rcases mem_splitBase hc with hc | hc
    · exact hdigits c hc
    · exact hc
  · exact hc

end Literal

/-! ## Operands and instructions

An operand has a value only as a register, a literal or a label name, and a mnemonic is one of a few
names.  None of these has a mark of a comment, a colon or a blank in it. -/

/-- An operand that has a value is simple. -/
theorem Operand.simple_of_value {mnemonic arg : String} {symbols : Option SymbolTable}
    {address v : UInt32} {o : Operand} (h : o.value mnemonic symbols address arg = .ok v) :
    Simple arg := by
  cases o with
  | register field =>
    rw [value] at h
    split at h
    · cases h
    · rename_i r hr
      exact Register.simple_of_parse hr
  | number field lower upper =>
    rw [value] at h
    split at h
    · cases h
    · rename_i n hn
      exact Literal.simple_of_parse hn
  | branchTarget =>
    rw [value] at h
    split at h
    · rename_i hvalid
      exact Label.simple_of_isValid hvalid
    · cases h
  | jumpTarget =>
    rw [value] at h
    split at h
    · rename_i hvalid
      exact Label.simple_of_isValid hvalid
    · cases h

namespace Instruction

/-- The texts of the instruction are simple. -/
def Simple (i : Instruction) : Prop := ∀ w ∈ i.mnemonic :: i.args, Text.Simple w

/-- **An instruction that has a word is simple.** -/
theorem simple_of_encode {limit : Int} {i : Instruction} {address word : UInt32} {tables : Tables}
    (h : (i.encode limit address tables).2 = .ok word) : i.Simple := by
  rw [encode] at h
  split at h
  · cases h
  · rename_i m hcheck
    obtain ⟨hm, -, hlength, -⟩ := check_eq_ok_iff.mp hcheck
    split at h
    · cases h
    · rename_i values hvalues
      obtain ⟨value, hvalue, -⟩ := exists_values hvalues
      intro w hw
      rcases List.mem_cons.mp hw with rfl | hw
      · rw [← Mnemonic.name_eq_of_ofName?_eq_some hm]
        cases m <;> decide
      · rw [← List.map_snd_zip (Nat.le_of_eq hlength)] at hw
        obtain ⟨oa, hoa, rfl⟩ := List.mem_map.mp hw
        exact Operand.simple_of_value (hvalue oa hoa)

end Instruction
end MipsAsm
