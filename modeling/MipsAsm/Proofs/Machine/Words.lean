import MipsAsm.Proofs.Assembly.Words
import MipsAsm.Proofs.Encoding.Decoding
import MipsAsm.Proofs.Machine.Basic

/-!
# What the words of instructions do

The encoder puts what operands stand for into fields, and the machine reads bits.  Here the two are
brought together: an instruction whose operands are registers and numbers has a word, wherever it
stands, and the machine reads the operation from it that the instruction names.

The machine is described without the encoder, so what is shown here is a fact about both: that they
agree on the format of words.  It covers the mnemonics that pseudo-instructions use, which is nine
of them, and each with all operands that it can have, as far as they are no labels.

To go from an instruction to its word, its operands have to be read, its form has to be right, and
it must need no table.  That is what an operation stands for (`Instruction.operation?`), and it can
be computed from the texts of the instruction.

* `Operation.toNat_extract`, `Operation.registerAt_of_extract` — the bits that the machine reads
  are the fields that the encoder fills.
* `Mnemonic.operation?`, `Instruction.operation?` — the operation that an instruction names.
* `Operation.decode_of_reads` — the machine reads the operation of an instruction from its word.
* `Instruction.encode_of_operation?` — an instruction that names an operation has a word.
* `Assembly.decode_wordsOf` — the words from a source line are those of the operations that the
  instructions of the line name.
-/

set_option autoImplicit false

namespace MipsAsm

/-! ## Bits and fields

The machine counts bits from the lowest, and the encoder has fields with a shift and a width.  A
field is compared with the bits it stands for once, and then for the two formats that the operations
have. -/

theorem toNat_ofInt_low (v : Int) : ((UInt16.ofInt v).toNat : Int) = v % 2 ^ 16 := by
  rw [UInt16.ofInt, UInt16.toNat_ofNat']
  omega

namespace Operation

/-- A field holds the number in its bits. -/
theorem toNat_extract (f : Field) (w : UInt32) :
    (f.extract w).toNat = bits w f.shift f.width := by
  refine Nat.eq_of_testBit_eq fun i ↦ ?_
  rw [bits, ← UInt32.toNat_toBitVec, BitVec.testBit_toNat, BitVec.testBit_toNat,
    Field.getLsbD_extract, BitVec.getLsbD_extractLsb']

theorem registerAt_of_extract {f : Field} (hf : f.width = 5) {w : UInt32} {r : Register}
    (h : f.extract w = r.toWord) : registerAt w f.shift = r := by
  have hbits := toNat_extract f w
  rw [h, r.toNat_toWord, hf] at hbits
  exact Fin.ext hbits.symm

/-- What the machine reads from a word of the register format. -/
theorem bits_of_rType {w code : UInt32} {rs rt rd : Register}
    (h : RType.ofWord w =
      { opcode := 0, rs := rs.toWord, rt := rt.toWord, rd := rd.toWord, shamt := 0
        funct := code }) :
    bits w 26 6 = 0 ∧ registerAt w 21 = rs ∧ registerAt w 16 = rt ∧ registerAt w 11 = rd ∧
      bits w 0 11 = code.toNat := by
  rw [RType.ofWord, RType.mk.injEq] at h
  obtain ⟨hopcode, hrs, hrt, hrd, hshamt, hfunct⟩ := h
  refine ⟨?_, registerAt_of_extract (f := Field.rs) rfl hrs,
    registerAt_of_extract (f := Field.rt) rfl hrt,
    registerAt_of_extract (f := Field.rd) rfl hrd, ?_⟩
  · exact (toNat_extract Field.opcode w).symm.trans (congrArg UInt32.toNat hopcode)
  · have hshamt' : bits w 6 5 = 0 :=
      (toNat_extract Field.shamt w).symm.trans (congrArg UInt32.toNat hshamt)
    have hfunct' : bits w 0 6 = code.toNat :=
      (toNat_extract Field.funct w).symm.trans (congrArg UInt32.toNat hfunct)
    simp only [bits, BitVec.extractLsb'_toNat, Nat.shiftRight_eq_div_pow] at hshamt' hfunct' ⊢
    omega

/-- What the machine reads from a word of the immediate format. -/
theorem bits_of_iType {w code : UInt32} {rs rt : Register} {n : Int}
    (h : IType.ofWord w =
      { opcode := code, rs := rs.toWord, rt := rt.toWord, imm := UInt32.ofInt (n % 2 ^ 16) }) :
    bits w 26 6 = code.toNat ∧ registerAt w 21 = rs ∧ registerAt w 16 = rt ∧
      w.toUInt16 = UInt16.ofInt n := by
  rw [IType.ofWord, IType.mk.injEq] at h
  obtain ⟨hopcode, hrs, hrt, himm⟩ := h
  refine ⟨?_, registerAt_of_extract (f := Field.rs) rfl hrs,
    registerAt_of_extract (f := Field.rt) rfl hrt, ?_⟩
  · exact (toNat_extract Field.opcode w).symm.trans (congrArg UInt32.toNat hopcode)
  · have hlow := toNat_extract Field.imm w
    have hn := toNat_ofInt (n % 2 ^ 16)
    have hconstant := toNat_ofInt_low n
    rw [himm] at hlow
    simp only [bits, Field.imm, BitVec.extractLsb'_toNat, Nat.shiftRight_zero,
      UInt32.toNat_toBitVec] at hlow
    apply UInt16.toNat_inj.mp
    rw [UInt32.toNat_toUInt16]
    omega

end Operation

/-! ## The operation of an instruction

`Mnemonic.operation?` has one line for each mnemonic of the machine.  That the machine reads this
operation from the word is checked mnemonic by mnemonic, with what is known of the fields of a
word. -/

/-- The operation that a mnemonic names with operands that stand for the given. -/
def Mnemonic.operation? : Mnemonic → List Operand.Meaning → Option Operation
  | .addu, [.register rd, .register rs, .register rt] => some (.addu rd rs rt)
  | .xor, [.register rd, .register rs, .register rt] => some (.xor rd rs rt)
  | .addiu, [.register rt, .register rs, .number n] => some (.addiu rt rs (UInt16.ofInt n))
  | .ori, [.register rt, .register rs, .number n] => some (.ori rt rs (UInt16.ofInt n))
  | .lui, [.register rt, .number n] => some (.lui rt (UInt16.ofInt n))
  | .lw, [.register rt, .number n, .register base] => some (.lw rt base (UInt16.ofInt n))
  | .sw, [.register rt, .number n, .register base] => some (.sw rt base (UInt16.ofInt n))
  | .div, [.register rs, .register rt] => some (.div rs rt)
  | .mfhi, [.register rd] => some (.mfhi rd)
  | _, _ => none

/-- The operation that an instruction names.  None of its operands is a label. -/
def Instruction.operation? (i : Instruction) : Option Operation := do
  let m ← Mnemonic.ofName? i.mnemonic
  let xs ← Operand.meanings? none 0 m.family.operands i.args
  m.operation? xs

/-- **The machine reads from a word what it was made of.** -/
theorem Operation.decode_of_reads {m : Mnemonic} {xs : List Operand.Meaning} {w : UInt32}
    {op : Operation} (hop : m.operation? xs = some op) (h : m.family.Reads m.code xs w) :
    decode w = some op := by
  rw [Mnemonic.operation?.eq_def] at hop
  split at hop
  case h_1 | h_2 =>
    obtain rfl := Option.some.inj hop
    obtain ⟨hopcode, hrs, hrt, hrd, hfunct⟩ := bits_of_rType h
    simp only [decode, hopcode, decodeSpecial, hfunct, Mnemonic.code, hrs, hrt, hrd]
    rfl
  case h_3 | h_4 | h_6 | h_7 =>
    obtain rfl := Option.some.inj hop
    obtain ⟨hopcode, hrs, hrt, himm⟩ := bits_of_iType h
    simp only [decode, hopcode, Mnemonic.code, hrs, hrt, himm]
    rfl
  case h_5 rt n =>
    obtain rfl := Option.some.inj hop
    -- a register that an operation does not have is read as the first
    have hw : IType.ofWord w =
        { opcode := 0x0f, rs := Register.zero.toWord, rt := rt.toWord
          imm := UInt32.ofInt (n % 2 ^ 16) } := h
    obtain ⟨hopcode, hrs, hrt, himm⟩ := bits_of_iType hw
    simp only [decode, hopcode, hrs, hrt, himm]
    rfl
  case h_8 rs rt =>
    obtain rfl := Option.some.inj hop
    have hw : RType.ofWord w =
        { opcode := 0, rs := rs.toWord, rt := rt.toWord, rd := Register.zero.toWord, shamt := 0
          funct := 0x1a } := h
    obtain ⟨hopcode, hrs, hrt, hrd, hfunct⟩ := bits_of_rType hw
    simp only [decode, hopcode, decodeSpecial, hfunct, hrs, hrt, hrd]
    rfl
  case h_9 rd =>
    obtain rfl := Option.some.inj hop
    have hw : RType.ofWord w =
        { opcode := 0, rs := Register.zero.toWord, rt := Register.zero.toWord, rd := rd.toWord
          shamt := 0, funct := 0x10 } := h
    obtain ⟨hopcode, hrs, hrt, hrd, hfunct⟩ := bits_of_rType hw
    simp only [decode, hopcode, decodeSpecial, hfunct, hrs, hrt, hrd]
    rfl
  case h_10 => cases hop

/-! ## Instructions that name an operation

None of these instructions has a label, so its operands have the same values at every address and
with every table.  That is why there is one word for it, and why it leaves no record. -/

namespace Operand

/-- A register or a number has a value wherever its instruction stands. -/
theorem value_of_meaning? {o : Operand} {arg : String} {x : Meaning}
    (h : o.meaning? none 0 arg = some x) (hjump : o ≠ .jumpTarget) :
    arg ≠ "" ∧ ∀ mnemonic symbols address, o.value mnemonic symbols address arg = .ok x.word := by
  cases o with
  | register field =>
    obtain ⟨r, hr, rfl⟩ := Option.map_eq_some_iff.mp h
    refine ⟨?_, fun mnemonic symbols address ↦ ?_⟩
    · rintro rfl
      cases hr
    · rw [value, Register.parse, hr]
      rfl
  | number field lower upper =>
    obtain ⟨v, hv, rfl⟩ := Option.map_eq_some_iff.mp h
    have hparse := eq_ok_of_toOption_eq_some hv
    refine ⟨?_, fun mnemonic symbols address ↦ ?_⟩
    · rintro rfl
      cases hparse
    · rw [value, hparse]
      rfl
  | branchTarget => cases h
  | jumpTarget => exact absurd rfl hjump

/-- What the operands of an instruction stand for, if none is the label of a branch, does not depend
on where it stands. -/
theorem meanings?_eq {os : List Operand} (h : branchTarget ∉ os) (symbols : Option SymbolTable)
    (address : UInt32) (args : List String) :
    meanings? symbols address os args = meanings? none 0 os args := by
  induction os generalizing args with
  | nil => cases args <;> rfl
  | cons o os ih =>
    rw [List.mem_cons, not_or] at h
    have hmeaning : ∀ arg, o.meaning? symbols address arg = o.meaning? none 0 arg := by
      intro arg
      cases o with
      | branchTarget => exact absurd rfl h.1
      | register field => rfl
      | number field lower upper => rfl
      | jumpTarget => rfl
    cases args with
    | nil => rfl
    | cons arg args => rw [meanings?, meanings?, hmeaning, ih h.2]

theorem meaning?_of_meanings? {os : List Operand} {args : List String} {xs : List Meaning}
    (h : meanings? none 0 os args = some xs) :
    args.length = os.length ∧ ∀ oa ∈ os.zip args, ∃ x, oa.1.meaning? none 0 oa.2 = some x := by
  induction os generalizing args xs with
  | nil =>
    cases args with
    | nil => exact ⟨rfl, fun oa hoa ↦ absurd hoa List.not_mem_nil⟩
    | cons arg args => cases h
  | cons o os ih =>
    cases args with
    | nil => cases h
    | cons arg args =>
      simp only [meanings?, Option.bind_eq_bind, Option.bind_eq_some_iff] at h
      obtain ⟨x, hx, xs', hxs, -⟩ := h
      obtain ⟨hlength, hall⟩ := ih hxs
      refine ⟨congrArg (· + 1) hlength, fun oa hoa ↦ ?_⟩
      rw [List.zip_cons_cons] at hoa
      rcases List.mem_cons.mp hoa with rfl | hoa
      · exact ⟨x, hx⟩
      · exact hall oa hoa

end Operand

/-- An instruction that names an operation has no label. -/
theorem Mnemonic.unlabelled_of_operation? {m : Mnemonic} {xs : List Operand.Meaning}
    {op : Operation} (h : m.operation? xs = some op) :
    (m.family ≠ .branch ∧ m.family ≠ .jump) ∧
      .branchTarget ∉ m.family.operands ∧ .jumpTarget ∉ m.family.operands := by
  rw [operation?.eq_def] at h
  split at h
  case h_10 => cases h
  all_goals decide

theorem Tables.missing?_eq_none {f : Family} (h : f ≠ .branch ∧ f ≠ .jump) (tables : Tables) :
    tables.missing? f = none := by
  rw [missing?.eq_def]
  split
  · exact absurd rfl h.1
  · exact absurd rfl h.2
  · rfl

namespace Instruction

variable {i : Instruction} {m : Mnemonic} {op : Operation}

/-- An instruction has fields if all of its operands have values. -/
theorem exists_fieldValues {symbols : Option SymbolTable} {address : UInt32}
    (h : ∀ oa ∈ m.family.operands.zip i.args,
      ∃ v, oa.1.value i.mnemonic symbols address oa.2 = .ok v) :
    ∃ values, i.fieldValues m symbols address = .ok values := by
  obtain ⟨fvs, hmap⟩ : ∃ fvs, (m.family.pairOperands i.args).mapM
      (fun (oa : Operand × String) ↦ do
        let value ← oa.1.value i.mnemonic symbols address oa.2
        return (oa.1.field, value)) = .ok fvs := by
    refine exists_mapM_eq_ok fun oa hoa ↦ ?_
    obtain ⟨v, hv⟩ := h oa ((m.family.pairOperands_perm i.args).mem_iff.mp hoa)
    exact ⟨(oa.1.field, v), by rw [hv]; rfl⟩
  refine ⟨(m.family.codeField, m.code) :: fvs, ?_⟩
  rw [fieldValues, hmap]
  rfl

/-- The word of an instruction without labels whose operands all have meanings. -/
theorem encode_of_meanings? {xs : List Operand.Meaning}
    (hm : Mnemonic.ofName? i.mnemonic = some m) (hfamily : m.family ≠ .branch ∧ m.family ≠ .jump)
    (hbranch : .branchTarget ∉ m.family.operands) (hjump : .jumpTarget ∉ m.family.operands)
    (hxs : Operand.meanings? none 0 m.family.operands i.args = some xs) (limit : Int)
    (address : UInt32) (tables : Tables) :
    i.encode limit address tables = (tables, .ok (compose (m.family.fields m.code xs))) ∧
      List.Forall₂ Operand.Admits m.family.operands xs := by
  obtain ⟨hlength, hmeaning⟩ := Operand.meaning?_of_meanings? hxs
  have hvalue : ∀ oa ∈ m.family.operands.zip i.args, oa.2 ≠ "" ∧
      ∃ v, oa.1.value i.mnemonic tables.symbols address oa.2 = .ok v := by
    intro oa hoa
    obtain ⟨x, hx⟩ := hmeaning oa hoa
    have hlabel : oa.1 ≠ .jumpTarget := by
      intro heq
      exact hjump (heq ▸ (List.of_mem_zip hoa).1)
    obtain ⟨hne, hv⟩ := Operand.value_of_meaning? hx hlabel
    exact ⟨hne, x.word, hv i.mnemonic tables.symbols address⟩
  have hempty : "" ∉ i.args := by
    rw [← List.map_snd_zip (Nat.le_of_eq hlength), List.mem_map]
    rintro ⟨oa, hoa, heq⟩
    exact (hvalue oa hoa).1 heq
  have hcheck : i.check tables = .ok m :=
    check_eq_ok_iff.mpr ⟨hm, tables.missing?_eq_none hfamily, hlength, hempty⟩
  obtain ⟨values, hvalues⟩ := exists_fieldValues fun oa hoa ↦ (hvalue oa hoa).2
  have hencode := encode_of_fieldValues hcheck hvalues limit
  -- nothing is left to be filled in later
  obtain ⟨label, rest, hno, -⟩ | hnothing := record_cases limit i address m.family
  · exact absurd hno hfamily.2
  · rw [hnothing] at hencode
    obtain ⟨m', xs', hcheck', hxs', hadmits, hw, -⟩ := encode_eq_ok hencode
    obtain rfl := Except.ok.inj (hcheck.symm.trans hcheck')
    rw [Operand.meanings?_eq hbranch, hxs] at hxs'
    obtain rfl := Option.some.inj hxs'
    exact ⟨hw ▸ hencode, hadmits⟩

/-- **An instruction that names an operation has a word**, which is the same wherever it stands and
from which the machine reads the operation.  Encoding it leaves the tables alone. -/
theorem encode_of_operation? (h : i.operation? = some op) :
    ∃ w, Operation.decode w = some op ∧
      ∀ limit address tables, i.encode limit address tables = (tables, .ok w) := by
  simp only [operation?, Option.bind_eq_bind, Option.bind_eq_some_iff] at h
  obtain ⟨m, hm, xs, hxs, hop⟩ := h
  obtain ⟨hfamily, hbranch, hjump⟩ := m.unlabelled_of_operation? hop
  have hencode := encode_of_meanings? hm hfamily hbranch hjump hxs
  refine ⟨compose (m.family.fields m.code xs), ?_, fun limit address tables ↦
    (hencode limit address tables).1⟩
  have hadmits := (hencode 0 0 ⟨none, none⟩).2
  exact Operation.decode_of_reads hop
    ((Family.holds_fields m.cut_code hadmits.length_eq.symm).reads hadmits)

end Instruction

/-! ## The words of a source line

The image has a word for each instruction of the listing that can be encoded.  Those from one source
line are found by its number, and come in the order of the instructions that the line stands for. -/

namespace Image

variable (o : Options) (labels : SymbolTable)

/-- An instruction of the listing that names an operation has a word for it. -/
theorem placement?_of_operation? {i : Instruction} {op : Operation}
    (h : i.reread.operation? = some op) (number position : Nat) :
    ∃ p, placement? o labels ((number, i), position) = some p ∧
      Operation.decode p.word = some op := by
  obtain ⟨w, hw, hencode⟩ := Instruction.encode_of_operation? h
  have houtcome : outcome o labels position i.reread = .ok w := by rw [outcome, hencode]
  refine ⟨{ address := addressOf o.base position, line := number, word := w }, ?_, hw⟩
  rw [placement?, houtcome]

/-- The words of instructions of the listing that name operations. -/
theorem decode_placements {is : List Instruction} {ops : List Operation}
    (h : (is.map fun i ↦ i.reread.operation?) = ops.map some) (number first : Nat) :
    (((is.map fun i ↦ (number, i)).zipIdx first).filterMap (placement? o labels)).map
      (fun p ↦ Operation.decode p.word) = ops.map some := by
  induction is generalizing ops first with
  | nil => exact h
  | cons i is ih =>
    obtain ⟨op, ops, rfl⟩ : ∃ op ops', ops = op :: ops' :=
      List.exists_cons_of_ne_nil (by rintro rfl; cases h)
    rw [List.map_cons, List.map_cons, List.cons.injEq] at h
    obtain ⟨p, hp, hdecode⟩ := placement?_of_operation? o labels h.1 number first
    rw [List.map_cons, List.zipIdx_cons, List.filterMap_cons_some hp, List.map_cons, hdecode,
      ih h.2, List.map_cons]

end Image

namespace Assembly

/-- The words from a source line, in order. -/
def wordsOf (a : Assembly) (number : Nat) : List UInt32 :=
  (a.image.placements.toList.filter (·.line = number)).map Placement.word

/-- The instruction stands on the source line with the given number. -/
def HasInstruction (a : Assembly) (number : Nat) (i : Instruction) : Prop :=
  ∃ cs, a.source[number]? = some cs ∧ (Line.read cs).instruction? = some i

variable {o : Options} {source : String} {a : Assembly}

/-- **The words from a source line** are those of the operations that the instructions name which
the line stands for, unless the assembly has stopped at an error. -/
theorem decode_wordsOf (h : assemble o source = some a)
    (hcomplete : o.stopOnFirstError = true → a.hasErrors = false) {number : Nat} {i : Instruction}
    (hi : a.HasInstruction number i) {is : List Instruction} (his : i.expand = .ok is)
    {ops : List Operation} (hops : (is.map fun i ↦ i.reread.operation?) = ops.map some) :
    (a.wordsOf number).map Operation.decode = ops.map some := by
  have hdescribes := assemble_describes h
  obtain ⟨cs, hcs, hinstruction⟩ := hi
  rw [← Array.getElem?_toList, hdescribes.source] at hcs
  have hgo : ∀ {p : Prop}, (p → a.hasErrors = true) → ¬(o.stopOnFirstError = true ∧ p) := by
    rintro p hp ⟨hstop, hfound⟩
    rw [hcomplete hstop] at hp
    exact Bool.false_ne_true (hp hfound)
  have hscanned := hdescribes.scanned.resolve_right (hgo fun hscan ↦ by simp [hasErrors_eq, hscan])
  have hall := hdescribes.placed.resolve_right (hgo id)
  have hexpansion := Line.expansion_of_expand hinstruction his
  rw [wordsOf, List.map_map, hdescribes.filter_placements hscanned hall hcs, hexpansion]
  exact Image.decode_placements o a.labels hops number _

end Assembly
end MipsAsm
