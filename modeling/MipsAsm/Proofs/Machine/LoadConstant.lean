import MipsAsm.Proofs.Assembly.Relisting
import MipsAsm.Proofs.Assembly.Room
import MipsAsm.Proofs.Literal
import MipsAsm.Proofs.Machine.Pseudo

/-!
# Loading a constant

A constant is loaded by `addiu` if it is below 65536 and in two halves otherwise.  The literal is
read twice on the way, when the pseudo-instruction is replaced and when `addiu` is encoded, and the
two halves are written in base ten in between.  Since `addiu` takes fewer numbers than it is left
with, there is a gap from 32768 to 65535 in which a literal is rejected, but none is loaded wrongly.

* `Pseudo.loadOperations` — the operations that load a constant.
* `Pseudo.operation?_of_loadConstant` — they are those of the instructions that load it.
* `Machine.performAll_load` — they leave the constant in the register.
* `Line.read_li`, `Line.read_li_of_mem` — how a line with `li` is read, also if a colon makes a part
  of it a label.
* `exists_loadable_of_li`, `hasErrors_li` — which constants are loaded.
* `decode_words_li` — the words that load them.
* `li_loads_its_literal_or_is_rejected` — the result.
-/

set_option autoImplicit false

namespace MipsAsm

open Register (zero temporary)

/-! ## Operations

Which operations load a constant depends on its value alone, and so does what they leave in the
registers.  This part has no texts in it. -/

/-- The constants that can be loaded: those that `addiu` takes, and those that are divided. -/
def Pseudo.Loadable (v : Int) : Prop := -32768 ≤ v ∧ v ≤ 32767 ∨ 65536 ≤ v ∧ v ≤ 4294967295

/-- The operations that load a constant. -/
def Pseudo.loadOperations (r : Register) (v : Int) : List Operation :=
  if v < 65536 then [.addiu r zero (UInt16.ofInt v)]
  else
    [.lui temporary (UInt16.ofInt (v.toNat / 65536 : Nat)),
      .ori r temporary (UInt16.ofInt (v.toNat % 65536 : Nat))]

/-- **The instructions that load a constant name these operations.** -/
theorem Pseudo.operation?_of_loadConstant {rd s : String} {r : Register}
    (hrd : Register.ofName? rd = some r) (hs : Line.IsToken s) {v : Int}
    (hdenotes : Literal.Denotes s v) (hv : Loadable v) :
    ((loadConstant rd s v).map fun i ↦ i.reread.operation?) = (loadOperations r v).map some := by
  have hmnemonics : Mnemonic.ofName? "addiu" = some .addiu ∧ Mnemonic.ofName? "lui" = some .lui ∧
      Mnemonic.ofName? "ori" = some .ori := by
    decide
  have hregisters : Register.ofName? "$0" = some zero ∧
      Register.ofName? "$at" = some temporary := by
    decide
  have htokenized :=
    Instruction.tokenized_loadConstant (Register.isToken_of_ofName? hrd) hs v
  rw [List.map_congr_left fun i hi ↦ congrArg _ (htokenized i hi).reread_eq]
  rcases hv with hsmall | hlarge
  · have hlt : v < 65536 := by omega
    have hparse : Literal.parse s (-32768) 32767 = .ok v :=
      (Literal.parse_eq_ok_iff (by decide) (by decide)).mpr ⟨hdenotes, hsmall⟩
    simp only [loadConstant, loadOperations, hlt, ↓reduceIte, List.map_cons, List.map_nil]
    simp only [Instruction.operation?, hmnemonics, Option.bind_eq_bind, Option.bind_some]
    simp only [Mnemonic.family, Family.operands, Operand.signedImmediate, Operand.meanings?,
      Operand.meaning?, hregisters, hrd, hparse, Except.toOption, Option.map_some,
      Option.bind_eq_bind, Option.bind_some, Option.pure_def]
    rfl
  · have hge : ¬v < 65536 := by omega
    have hupper : Literal.parse (Text.decimal (v.toNat / 65536)) 0 65535 = .ok _ :=
      Literal.parse_decimal (by omega)
    have hlower : Literal.parse (Text.decimal (v.toNat % 65536)) 0 65535 = .ok _ :=
      Literal.parse_decimal (by omega)
    simp only [loadConstant, loadOperations, hge, ↓reduceIte, List.map_cons, List.map_nil]
    simp only [Instruction.operation?, hmnemonics, Option.bind_eq_bind, Option.bind_some]
    simp only [Mnemonic.family, Family.operands, Operand.unsignedImmediate, Operand.meanings?,
      Operand.meaning?, hregisters, hrd, hupper, hlower, Except.toOption, Option.map_some,
      Option.bind_eq_bind, Option.bind_some, Option.pure_def]
    rfl

/-- The two halves of a number make it up. -/
theorem toNat_shiftLeft_or {high low : UInt32} (hhigh : high.toNat < 65536)
    (hlow : low.toNat < 65536) : (high <<< 16 ||| low).toNat = high.toNat * 65536 + low.toNat := by
  have hsixteen : (16 : UInt32).toNat % 32 = 16 := rfl
  have hfits : high.toNat <<< 16 % 2 ^ 32 = high.toNat <<< 16 := by
    rw [Nat.shiftLeft_eq]
    omega
  have hlow' : low.toNat < 2 ^ 16 := hlow
  rw [UInt32.toNat_or, UInt32.toNat_shiftLeft, hsixteen, hfits,
    ← Nat.shiftLeft_add_eq_or_of_lt hlow', Nat.shiftLeft_eq]

theorem shiftLeft_or_eq_ofInt {v : Int} (hlower : 65536 ≤ v) (hupper : v ≤ 4294967295) :
    (UInt16.ofInt (v.toNat / 65536 : Nat)).toUInt32 <<< 16 |||
      (UInt16.ofInt (v.toNat % 65536 : Nat)).toUInt32 = UInt32.ofInt v := by
  have hhigh := toNat_ofInt_low (v.toNat / 65536 : Nat)
  have hlow := toNat_ofInt_low (v.toNat % 65536 : Nat)
  have hv := toNat_ofInt v
  rw [← UInt16.toNat_toUInt32] at hhigh hlow
  apply UInt32.toNat_inj.mp
  rw [toNat_shiftLeft_or (by omega) (by omega)]
  omega

namespace Machine

open Operation (perform)

/-- **The operations that load a constant leave it in the register.**  Before that, they change the
temporary register or nothing. -/
theorem performAll_load (p : Processor) (m : Machine) {r : Register} {v : Int}
    (hv : Pseudo.Loadable v) :
    ∃ m', (m' = m ∨ ∃ u, m' = m.write temporary u) ∧
      m.performAll p (Pseudo.loadOperations r v) = m'.write r (UInt32.ofInt v) := by
  rcases hv with hsmall | hlarge
  · refine ⟨m, .inl rfl, ?_⟩
    have hlt : v < 65536 := by omega
    rw [Pseudo.loadOperations, if_pos hlt, performAll_cons, perform, m.read_zero, UInt32.zero_add,
      Operation.signExtend_ofInt hsmall.1 hsmall.2]
    rfl
  · have htemporary : temporary ≠ zero := by decide
    have hge : ¬v < 65536 := by omega
    refine ⟨_, .inr ⟨(UInt16.ofInt (v.toNat / 65536 : Nat)).toUInt32 <<< 16, rfl⟩, ?_⟩
    rw [Pseudo.loadOperations, if_neg hge, performAll_cons, performAll_cons, perform, perform,
      read_write_self _ _ htemporary, shiftLeft_or_eq_ofInt hlarge.1 hlarge.2]
    rfl

end Machine

/-! ## The line

The operand of `li` is any token, so it may have a colon in it, and then the line is no `li` at all:
what stands before the colon is a label.  That case has to be shown to end in an error.  A token
with a hash sign is left out, as a comment starts there. -/

/-- Only the two names of the register that is always zero are names of it. -/
theorem Register.ne_zero_of_ofName? {name : String} {r : Register} (h : ofName? name = some r)
    (hname : name ≠ "$0" ∧ name ≠ "$zero") : r ≠ zero := by
  have hnames : ∀ entry ∈ names, entry.2 = zero → entry.1 = "$0" ∨ entry.1 = "$zero" := by
    decide
  obtain ⟨before, after, heq, -⟩ := List.lookup_eq_some_iff.mp h
  intro hzero
  exact absurd (hnames (name, r) (by simp [heq]) hzero) (not_or_intro hname.1 hname.2)

namespace Line

variable {rd s : String} {r : Register}

theorem toList_li (rd s : String) :
    ("li " ++ rd ++ ", " ++ s).toList =
      "li".toList ++ ' ' :: (rd.toList ++ ',' :: ' ' :: s.toList) := by
  simp [String.toList_append]

/-- The characters that the name of a register does not have, and the one that it has. -/
theorem of_ofName? (h : Register.ofName? rd = some r) :
    '#' ∉ rd.toList ∧ ':' ∉ rd.toList ∧ '$' ∈ rd.toList := by
  have hnames : ∀ entry ∈ Register.names,
      '#' ∉ entry.1.toList ∧ ':' ∉ entry.1.toList ∧ '$' ∈ entry.1.toList := by
    decide
  obtain ⟨before, after, heq, -⟩ := List.lookup_eq_some_iff.mp h
  exact hnames (rd, r) (by simp [heq])

theorem code_li (hrd : Register.ofName? rd = some r) (hhash : '#' ∉ s.toList) :
    code ("li " ++ rd ++ ", " ++ s).toList = ("li " ++ rd ++ ", " ++ s).toList := by
  have hname := of_ofName? hrd
  refine code_of_not_mem ?_
  rw [toList_li]
  simp [hname.1, hhash]

/-- A line without a colon is the instruction. -/
theorem read_li (hrd : Register.ofName? rd = some r) (hhash : '#' ∉ s.toList)
    (hcolon : ':' ∉ s.toList) :
    read ("li " ++ rd ++ ", " ++ s).toList =
      { labelText := none, body := ("li " ++ rd ++ ", " ++ s).toList, bodyStart := 0 } := by
  have hname := of_ofName? hrd
  have hcode := code_li hrd hhash
  rw [read_of_not_mem, unlabelled, hcode]
  rw [hcode, toList_li]
  simp [hname.2.1, hcolon]

theorem instruction?_li (hrd : Register.ofName? rd = some r) (hs : IsToken s)
    (hhash : '#' ∉ s.toList) (hcolon : ':' ∉ s.toList) :
    (read ("li " ++ rd ++ ", " ++ s).toList).instruction? = some ⟨"li", [rd, s]⟩ := by
  have hli : IsToken "li" := by decide
  have htokens : Instruction.ofTokens?
      (Text.tokens isSeparator 0 ("li " ++ rd ++ ", " ++ s).toList) = some ⟨"li", [rd, s]⟩ := by
    rw [Instruction.ofTokens?_eq_some_iff, Text.map_text_tokens, toList_li,
      Text.words_append_separator rfl, Text.words_append_separator rfl,
      Text.words_cons_separator rfl, hli.words, (Register.isToken_of_ofName? hrd).words, hs.words]
    rfl
  have hdirective : Scan.isDirective "li" = false := by decide
  rw [instruction?, read_li hrd hhash hcolon, tokens, htokens, Option.filter_some]
  simp [hdirective]

/-- A colon makes what stands before it a label, which is no label name, and leaves at most one
token. -/
theorem read_li_of_mem (hrd : Register.ofName? rd = some r) (hs : IsToken s)
    (hhash : '#' ∉ s.toList) (hcolon : ':' ∈ s.toList) :
    (∃ name, (read ("li " ++ rd ++ ", " ++ s).toList).label? = some name ∧
      Label.isValid name.text = false) ∧
    ∀ i, (read ("li " ++ rd ++ ", " ++ s).toList).instruction? = some i → i.args = [] := by
  have hname := of_ofName? hrd
  obtain ⟨before, rest, hsplit, hbefore⟩ := List.eq_append_cons_of_mem hcolon
  have hsplits : Splits ("li " ++ rd ++ ", " ++ s).toList
      ("li".toList ++ ' ' :: (rd.toList ++ ',' :: ' ' :: before)) rest := by
    refine ⟨?_, ?_⟩
    · have hcode : List.takeWhile _ _ = _ := code_li hrd hhash
      rw [hcode, toList_li, hsplit]
      simp
    · simp [hname.2.1, hbefore]
  refine ⟨⟨_, label?_of_splits hsplits, ?_⟩, ?_⟩
  · refine Bool.eq_false_iff.mpr fun hvalid ↦ ?_
    -- the mark of the register is left when margins are trimmed, and no label name has it
    have hmark := Text.mem_trim (p := isMargin)
      (show '$' ∈ "li".toList ++ ' ' :: (rd.toList ++ ',' :: ' ' :: before) by simp [hname.2.2])
      (by decide)
    have hsimple := (Label.of_isValid hvalid).2
    rw [String.toList_ofList] at hsimple
    exact absurd (hsimple '$' hmark) (by decide)
  · intro i hi
    have hrest : ∀ c ∈ rest, isSeparator c = false :=
      fun c hc ↦ (hs.2 c (by simp [hsplit, hc])).1
    obtain ⟨htokens, -⟩ := Option.filter_eq_some_iff.mp hi
    rw [read_of_splits hsplits, tokens, Instruction.ofTokens?_eq_some_iff,
      Text.map_text_tokens] at htokens
    have hlength := Text.length_words_le_one hrest
    rw [htokens, List.length_cons] at hlength
    exact List.eq_nil_of_length_eq_zero (by omega)

theorem splitLines_li (hrd : Register.ofName? rd = some r) (hs : IsToken s) :
    Text.splitLines ("li " ++ rd ++ ", " ++ s).toList = [("li " ++ rd ++ ", " ++ s).toList] := by
  have hname : '\n' ∉ rd.toList :=
    fun hmem ↦ ((Register.isToken_of_ofName? hrd).2 _ hmem).2 rfl
  have hliteral : '\n' ∉ s.toList := fun hmem ↦ (hs.2 _ hmem).2 rfl
  apply Text.splitLines_of_not_mem
  rw [toList_li]
  simp [hname, hliteral]

end Line

/-! ## The instructions

The literal is passed on to `addiu` as it was written, and read again with narrower bounds.  This is
where the gap is: `li` accepts the numbers from 32768 to 65535 and `addiu` does not. -/

namespace Instruction

variable {rd s : String} {r : Register}

/-- What `li` stands for, which needs a literal. -/
theorem expand_li_eq_ok_iff (hrd : Register.ofName? rd = some r) (hs : Line.IsToken s)
    {is : List Instruction} :
    expand ⟨"li", [rd, s]⟩ = .ok is ↔
      ∃ v, Literal.Denotes s v ∧ -2147483648 ≤ v ∧ v ≤ 4294967295 ∧
        is = Pseudo.loadConstant rd s v := by
  have hargs : "" ∉ [rd, s] := by
    simp [(Register.isToken_of_ofName? hrd).1.symm, hs.1.symm]
  have hexpand : expand ⟨"li", [rd, s]⟩ = Pseudo.li.expand [rd, s] := expand_of_pseudo .li hargs
  have hparse : ∀ v, Literal.parse s (-2147483648) 4294967295 = .ok v ↔ _ :=
    fun v ↦ Literal.parse_eq_ok_iff (by decide) (by decide)
  rw [hexpand, Pseudo.expand]
  constructor
  · intro h
    split at h
    · cases h
    · rename_i v hv
      obtain ⟨hdenotes, hlower, hupper⟩ := (hparse v).mp hv
      exact ⟨v, hdenotes, hlower, hupper, (Except.ok.inj h).symm⟩
  · rintro ⟨v, hdenotes, hlower, hupper, rfl⟩
    rw [(hparse v).mpr ⟨hdenotes, hlower, hupper⟩]

/-- An instruction without operands stands for itself or for nothing. -/
theorem eq_of_expand_of_args {i : Instruction} {is : List Instruction} (hargs : i.args = [])
    (h : i.expand = .ok is) : is = [i] := by
  rw [expand] at h
  split at h
  · cases h
  · split at h
    · exact (Except.ok.inj h).symm
    · rename_i p _
      rw [hargs] at h
      cases p <;> cases h

theorem not_isJump_of_mem_loadConstant {i : Instruction} {v : Int}
    (h : i ∈ Pseudo.loadConstant rd s v) : ¬i.IsJump := by
  have hnames : i.mnemonic = "addiu" ∨ i.mnemonic = "lui" ∨ i.mnemonic = "ori" := by
    rw [Pseudo.loadConstant] at h
    split at h
    · obtain rfl := List.mem_singleton.mp h
      exact .inl rfl
    · rcases List.mem_cons.mp h with rfl | h
      · exact .inr (.inl rfl)
      · obtain rfl := List.mem_singleton.mp h
        exact .inr (.inr rfl)
  rw [IsJump]
  rcases hnames with hname | hname | hname <;> rw [hname] <;> decide

/-- **The range of `addiu` is smaller than what is left to it.** -/
theorem denotes_of_encode_addiu {limit : Int} {address w : UInt32} {tables tables' : Tables}
    (h : encode limit ⟨"addiu", [rd, "$0", s]⟩ address tables = (tables', .ok w)) :
    ∃ v, Literal.Denotes s v ∧ -32768 ≤ v ∧ v ≤ 32767 := by
  obtain ⟨m, xs, hcheck, hmeanings, -⟩ := encode_eq_ok h
  obtain ⟨hm, -⟩ := check_eq_ok_iff.mp hcheck
  obtain rfl : m = .addiu := (Option.some.inj (show Mnemonic.ofName? "addiu" = some _ from hm)).symm
  cases hparse : Literal.parse s (-32768) 32767 with
  | ok v => exact ⟨v, (Literal.parse_eq_ok_iff (by decide) (by decide)).mp hparse⟩
  | error e =>
    simp [Mnemonic.family, Family.operands, Operand.signedImmediate, Operand.meanings?,
      Operand.meaning?, hparse, Except.toOption] at hmeanings

end Instruction

/-! ## The assembly

A source with this one line is followed through the assembler.  In one direction, no errors means
that the literal was read both times; in the other, a literal in the range is read both times and
nothing else can be wrong with the line. -/

theorem expandLines_singleton (cs : List Char) :
    expandLines [cs] = (Line.read cs).expansion.map fun i ↦ (0, i) := by
  simp [expandLines]

section

variable {o : Options} {rd s : String} {r : Register} {a : Assembly}

/-- A line with `li` is assembled, also if its operand is no literal. -/
theorem exists_assemble_li (hroom : 5 ≤ o.tableLimit) (hrd : Register.ofName? rd = some r)
    (hs : Line.IsToken s) (hhash : '#' ∉ s.toList) :
    ∃ a, assemble o ("li " ++ rd ++ ", " ++ s) = some a := by
  have hlines := Line.splitLines_li hrd hs
  have hfeed : ∀ l ∈ Text.splitLines ("li " ++ rd ++ ", " ++ s).toList, '\n' ∉ l :=
    fun l hl ↦ Text.not_mem_of_mem_splitLines hl
  refine exists_assemble_of_unlabelled hroom ?_ ?_
  · -- no label is defined, since what stands before a colon is no label name
    rw [hlines]
    intro cs hcs
    obtain rfl := List.mem_singleton.mp hcs
    by_cases hcolon : ':' ∈ s.toList
    · obtain ⟨⟨name, hlabel, hname⟩, -⟩ := Line.read_li_of_mem hrd hs hhash hcolon
      intro name' hlabel'
      obtain rfl := Option.some.inj (hlabel.symm.trans hlabel')
      exact hname
    · intro name hlabel
      rw [Line.read_li hrd hhash hcolon] at hlabel
      cases hlabel
  · -- no instruction is a jump with an operand
    rw [hlines] at hfeed ⊢
    rintro ⟨number, j⟩ hj
    obtain ⟨cs, hcs, hexpansion⟩ := mem_expandLines.mp hj
    obtain rfl := List.mem_singleton.mp (List.mem_of_getElem? hcs)
    obtain ⟨i, is, hi, his, hmem⟩ := Line.mem_expansion.mp hexpansion
    by_cases hcolon : ':' ∈ s.toList
    · have hargs := (Line.read_li_of_mem hrd hs hhash hcolon).2 i hi
      rw [Instruction.eq_of_expand_of_args hargs his] at hmem
      obtain rfl := List.mem_singleton.mp hmem
      have htokenized := Instruction.tokenized_of_instruction? (hfeed _ List.mem_cons_self) hi
      rw [htokenized.reread_eq]
      exact fun _ ↦ hargs
    · rw [Line.instruction?_li hrd hs hhash hcolon] at hi
      obtain rfl := Option.some.inj hi
      obtain ⟨v, -, -, -, rfl⟩ := (Instruction.expand_li_eq_ok_iff hrd hs).mp his
      have htokenized :=
        Instruction.tokenized_loadConstant (Register.isToken_of_ofName? hrd) hs v j hmem
      rw [htokenized.reread_eq]
      exact fun hjump ↦ absurd hjump (Instruction.not_isJump_of_mem_loadConstant hmem)

/-- A literal has no colon in it. -/
theorem Literal.Denotes.colon_not_mem {v : Int} (h : Literal.Denotes s v)
    (hv : Pseudo.Loadable v) : ':' ∉ s.toList := by
  have hparse : Literal.parse s (-32768) 4294967295 = .ok v :=
    (Literal.parse_eq_ok_iff (by decide) (by decide)).mpr ⟨h, by rcases hv with hv | hv <;> omega⟩
  intro hmem
  exact absurd (Literal.simple_of_parse hparse ':' hmem) (by decide)

/-- A colon makes an error of the line. -/
theorem colon_not_mem_of_li (hrd : Register.ofName? rd = some r) (hs : Line.IsToken s)
    (hhash : '#' ∉ s.toList) (h : assemble o ("li " ++ rd ++ ", " ++ s) = some a)
    (herrors : a.hasErrors = false) : ':' ∉ s.toList := by
  intro hmem
  obtain ⟨⟨name, hlabel, hname⟩, -⟩ := Line.read_li_of_mem hrd hs hhash hmem
  obtain ⟨labels, -, -, -, -, hpass, -⟩ := assemble_cases h
  rw [Line.splitLines_li hrd hs, Scan.ofLines, List.foldlM_cons] at hpass
  obtain ⟨t, ht, hrest⟩ := Option.bind_eq_some_iff.mp hpass
  obtain rfl : t = a.scan := Option.some.inj hrest
  rw [a.hasErrors_eq, Scan.hasErrors_of_readLine o ht hlabel hname] at herrors
  cases herrors

/-- **Only these constants are loaded.**  The literal has to be one for `li`, and if it is left to
`addiu`, one for `addiu` too. -/
theorem exists_loadable_of_li (hrd : Register.ofName? rd = some r) (hs : Line.IsToken s)
    (hhash : '#' ∉ s.toList) (h : assemble o ("li " ++ rd ++ ", " ++ s) = some a)
    (herrors : a.hasErrors = false) : ∃ v, Literal.Denotes s v ∧ Pseudo.Loadable v := by
  have hinstruction :=
    Line.instruction?_li hrd hs hhash (colon_not_mem_of_li hrd hs hhash h herrors)
  have hdescribes := assemble_describes h
  rw [Line.splitLines_li hrd hs] at hdescribes
  obtain ⟨is, hexpand⟩ := hdescribes.exists_expand herrors List.getElem?_cons_zero hinstruction
  obtain ⟨v, hdenotes, -, hupper, rfl⟩ := (Instruction.expand_li_eq_ok_iff hrd hs).mp hexpand
  by_cases hlt : v < 65536
  · have hload : Pseudo.loadConstant rd s v = [⟨"addiu", [rd, "$0", s]⟩] := if_pos hlt
    have htokenized : Instruction.Tokenized ⟨"addiu", [rd, "$0", s]⟩ :=
      Instruction.tokenized_loadConstant (Register.isToken_of_ofName? hrd) hs v _
        (hload ▸ List.mem_singleton_self _)
    have hentries : a.entries[0]? = some (0, ⟨"addiu", [rd, "$0", s]⟩) := by
      rw [hdescribes.entries_eq, hdescribes.lines_eq herrors, List.take_length,
        expandLines_singleton, Line.expansion_of_expand hinstruction hexpand, hload]
      rfl
    obtain ⟨word, hword⟩ := hdescribes.exists_outcome herrors hentries
    rw [htokenized.reread_eq] at hword
    obtain ⟨u, hu, hrange⟩ := Instruction.denotes_of_encode_addiu (Prod.ext rfl hword)
    exact ⟨u, hu, .inl hrange⟩
  · exact ⟨v, hdenotes, .inr ⟨by omega, hupper⟩⟩

/-- There is nothing to say of a line that loads one of these constants. -/
theorem Line.quiet_li (hrd : Register.ofName? rd = some r) (hs : IsToken s)
    (hhash : '#' ∉ s.toList) {v : Int} (hdenotes : Literal.Denotes s v)
    (hv : Pseudo.Loadable v) :
    (read ("li " ++ rd ++ ", " ++ s).toList).Quiet ∧
      (read ("li " ++ rd ++ ", " ++ s).toList).expansion = Pseudo.loadConstant rd s v := by
  have hcolon := hdenotes.colon_not_mem hv
  have hrange : -2147483648 ≤ v ∧ v ≤ 4294967295 := by
    rcases hv with hv | hv <;> omega
  have hinstruction := instruction?_li hrd hs hhash hcolon
  have hexpand := (Instruction.expand_li_eq_ok_iff hrd hs).mpr
    ⟨v, hdenotes, hrange.1, hrange.2, rfl⟩
  refine ⟨⟨?_, remarks_of_expand hinstruction hexpand⟩, expansion_of_expand hinstruction hexpand⟩
  rw [read_li hrd hhash hcolon]
  rfl

/-- **All these constants are loaded.** -/
theorem hasErrors_li (hrd : Register.ofName? rd = some r) (hs : Line.IsToken s)
    (hhash : '#' ∉ s.toList) (h : assemble o ("li " ++ rd ++ ", " ++ s) = some a) {v : Int}
    (hdenotes : Literal.Denotes s v) (hv : Pseudo.Loadable v) : a.hasErrors = false := by
  obtain ⟨hquiet, hexpansion⟩ := Line.quiet_li hrd hs hhash hdenotes hv
  have hlines := Line.splitLines_li hrd hs
  have hdescribes := assemble_describes h
  rw [hlines] at hdescribes
  refine hdescribes.hasErrors_eq_false ?_ ?_
  · obtain ⟨labels, -, -, -, -, hpass, -⟩ := assemble_cases h
    obtain ⟨scan, hscan, -, hdiagnostics⟩ :=
      Scan.ofLines_of_quiet (o := o) (List.forall_mem_singleton.mpr hquiet) labels
    rw [hlines, hscan] at hpass
    rw [← Option.some.inj hpass, Scan.hasErrors, hdiagnostics, Array.any_empty]
  · rintro ⟨number, i⟩ he position
    rw [hdescribes.entries_eq] at he
    obtain ⟨cs, hcs, hi⟩ := mem_expandLines.mp he
    obtain rfl := List.mem_singleton.mp (List.mem_of_mem_take (List.mem_of_getElem? hcs))
    rw [hexpansion] at hi
    have hsome := List.mem_map_of_mem (f := fun i ↦ i.reread.operation?) hi
    rw [Pseudo.operation?_of_loadConstant hrd hs hdenotes hv] at hsome
    obtain ⟨op, -, hop⟩ := List.mem_map.mp hsome
    obtain ⟨p, hp, -⟩ := Image.placement?_of_operation? o a.labels hop.symm number position
    exact ⟨p, hp⟩

/-- The words are those of the operations that load the constant. -/
theorem decode_words_li (hrd : Register.ofName? rd = some r) (hs : Line.IsToken s)
    (hhash : '#' ∉ s.toList) (h : assemble o ("li " ++ rd ++ ", " ++ s) = some a)
    (herrors : a.hasErrors = false) {v : Int} (hdenotes : Literal.Denotes s v)
    (hv : Pseudo.Loadable v) :
    a.words.toList.map Operation.decode = (Pseudo.loadOperations r v).map some := by
  obtain ⟨-, hexpansion⟩ := Line.quiet_li hrd hs hhash hdenotes hv
  have hdescribes := assemble_describes h
  rw [Line.splitLines_li hrd hs] at hdescribes
  rw [Assembly.words, Array.toList_map, List.map_map, hdescribes.image.placements,
    hdescribes.read_eq herrors, List.take_length, hdescribes.entries_eq,
    hdescribes.lines_eq herrors, List.take_length, expandLines_singleton, hexpansion]
  exact Image.decode_placements o a.labels
    (Pseudo.operation?_of_loadConstant hrd hs hdenotes hv) 0 0

end

/-! ## The result

For a register other than the one that is always zero, since nothing is loaded there. -/

/-- **`li` loads its literal or is rejected.**  Take a line with `li`, a register other than the one
that is always zero, and a token, which is a text that no separator, line feed or comment divides.
Where there is room for the empty tables, it is assembled.  There are no errors if the token is a
literal for a number from -32768 to 32767 or from 65536 to 4294967295, and only then.  Executing the
one or two words leaves that number in the register, modulo two to the 32nd, and changes nothing
else but `$at`.  Numbers from 32768 to 65535, which fit a register as well, are rejected. -/
theorem li_loads_its_literal_or_is_rejected (o : Options) (hroom : 5 ≤ o.tableLimit)
    (rd s : String) (r : Register) (hrd : Register.ofName? rd = some r)
    (hzero : rd ≠ "$0" ∧ rd ≠ "$zero") (hs : Line.IsToken s) (hhash : '#' ∉ s.toList) :
    ∃ a, assemble o ("li " ++ rd ++ ", " ++ s) = some a ∧
      (a.hasErrors = false ↔ ∃ v, Literal.Denotes s v ∧
        (-32768 ≤ v ∧ v ≤ 32767 ∨ 65536 ≤ v ∧ v ≤ 4294967295)) ∧
      (a.hasErrors = false → ∀ v, Literal.Denotes s v →
        (a.words.size = 1 ∨ a.words.size = 2) ∧
        ∀ (p : Processor) (m : Machine), ∃ m', m.run p a.words.toList = some m' ∧
          ((m'.read r).toNat : Int) = v % 2 ^ 32 ∧
          (∀ q, q ≠ r → q ≠ temporary → m'.read q = m.read q) ∧
          m'.hi = m.hi ∧ m'.lo = m.lo ∧ m'.memory = m.memory) := by
  obtain ⟨a, ha⟩ := exists_assemble_li hroom hrd hs hhash
  refine ⟨a, ha, ⟨exists_loadable_of_li hrd hs hhash ha, ?_⟩, ?_⟩
  · rintro ⟨v, hdenotes, hv⟩
    exact hasErrors_li hrd hs hhash ha hdenotes hv
  · intro herrors v hdenotes
    obtain ⟨u, hu, hv⟩ := exists_loadable_of_li hrd hs hhash ha herrors
    obtain rfl := hdenotes.unique hu
    have hwords := decode_words_li hrd hs hhash ha herrors hdenotes hv
    refine ⟨?_, fun p m ↦ ?_⟩
    · have hlength := congrArg List.length hwords
      rw [List.length_map, List.length_map, Array.length_toList] at hlength
      rw [hlength, Pseudo.loadOperations]
      split
      · exact .inl rfl
      · exact .inr rfl
    · refine ⟨_, Machine.run_eq hwords p m, ?_⟩
      obtain ⟨m', hm', hload⟩ := m.performAll_load p (r := r) hv
      rw [hload]
      refine ⟨?_, ?_, ?_⟩
      · rw [Machine.read_write_self _ _ (Register.ne_zero_of_ofName? hrd hzero)]
        exact toNat_ofInt v
      · intro q hq hqt
        rw [Machine.read_write_of_ne _ _ hq]
        rcases hm' with rfl | ⟨u, rfl⟩
        · rfl
        · exact Machine.read_write_of_ne _ _ hqt
      · rcases hm' with rfl | ⟨u, rfl⟩ <;>
          simp only [Machine.hi_write, Machine.lo_write, Machine.memory_write, and_self]

/-- The temporary register itself is loaded in halves, the least constant keeps its sign, and the
first constant that `addiu` does not take is rejected.  Each register holds its number before. -/
theorem li_loads_its_literal_or_is_rejected_around_the_gap :
    let p : Processor := { order := .little, divideByZero := fun _ ↦ (0, 0) }
    let m : Machine :=
      { registers := { read := fun q ↦ UInt32.ofNat q.val, read_zero := by decide }
        hi := 0, lo := 0, memory := fun _ ↦ 0 }
    (∃ a m', assemble {} ("li " ++ "$at" ++ ", " ++ "0xFFFF8000") = some a ∧
      m.run p a.words.toList = some m' ∧ ((m'.read temporary).toNat : Int) = 4294934528 ∧
      m'.read ⟨8, by decide⟩ = 8) ∧
    (∃ a m', assemble {} ("li " ++ "$t0" ++ ", " ++ "-0x8000") = some a ∧
      m.run p a.words.toList = some m' ∧ ((m'.read ⟨8, by decide⟩).toNat : Int) = 4294934528) ∧
    ∃ a, assemble {} ("li " ++ "$t0" ++ ", " ++ "32768") = some a ∧ a.hasErrors = true := by
  intro p m
  have hdenotes : ∀ (s : String) (v : Int), Literal.parse s (-32768) 4294967295 = .ok v →
      Literal.Denotes s v :=
    fun s v h ↦ ((Literal.parse_eq_ok_iff (by decide) (by decide)).mp h).1
  refine ⟨?_, ?_, ?_⟩
  · have hv := hdenotes "0xFFFF8000" 4294934528 (by decide)
    obtain ⟨a, ha, haccepted, hloads⟩ := li_loads_its_literal_or_is_rejected {} (by decide) "$at"
      "0xFFFF8000" temporary (by decide) (by decide) (by decide) (by decide)
    obtain ⟨-, hrun⟩ := hloads (haccepted.mpr ⟨_, hv, by decide⟩) _ hv
    obtain ⟨m', hm', hread, hothers, -⟩ := hrun p m
    exact ⟨a, m', ha, hm', hread, hothers _ (by decide) (by decide)⟩
  · have hv := hdenotes "-0x8000" (-32768) (by decide)
    obtain ⟨a, ha, haccepted, hloads⟩ := li_loads_its_literal_or_is_rejected {} (by decide) "$t0"
      "-0x8000" _ rfl (by decide) (by decide) (by decide)
    obtain ⟨-, hrun⟩ := hloads (haccepted.mpr ⟨_, hv, by decide⟩) _ hv
    obtain ⟨m', hm', hread, -⟩ := hrun p m
    exact ⟨a, m', ha, hm', hread⟩
  · have hv := hdenotes "32768" 32768 (by decide)
    obtain ⟨a, ha, haccepted, -⟩ := li_loads_its_literal_or_is_rejected {} (by decide) "$t0"
      "32768" _ rfl (by decide) (by decide) (by decide)
    refine ⟨a, ha, Bool.of_not_eq_false fun herrors ↦ ?_⟩
    obtain ⟨v, hdenoted, hloadable⟩ := haccepted.mp herrors
    rw [hdenoted.unique hv] at hloadable
    exact absurd hloadable (by decide)

end MipsAsm
