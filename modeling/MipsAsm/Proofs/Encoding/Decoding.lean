import MipsAsm.Proofs.Encoding.Basic

/-!
# Reading a word back

Every word the encoder makes can be read back: the format of its family gives the code of the
mnemonic and what each operand stands for, and all other fields are zero.  So a word belongs to one
mnemonic only, and it settles the registers, the number and the distance of the instruction.

A word is taken apart in the format of a family, but nothing in the word says of which family it is.
That two families cannot be confused follows from the codes.  In the register format the field for
the operation is zero and the code is in the field for the function; in the others the code is in
the field for the operation, and never zero.

An operand that is cut to its field could be lost.  It is not, because each position admits only as
many meanings as its field has values: 32 registers and shift amounts, and the numbers of sixteen
bits either with a sign or without, but not both in one position.  The label of a jump is different:
it leaves nothing in the word, and two jumps with different labels have the same word.  That is why
the result speaks of what operands stand for, in which all labels of jumps are alike.

* `Family.Reads` — what a word of each family holds, field by field, in the format of the family.
* `Family.extract_operand`, `Family.extract_codeField`, `Family.extract_unused` — the three kinds of
  fields of a word: those of operands, that of the code, and those that stay zero.
* `Mnemonic.eq_of_code_eq` — codes tell the mnemonics of a format apart.
* `Operand.Meaning.eq_of_cut_eq` — a field tells apart all meanings its operand admits.
* `encode_reads_back` — the result.
-/

set_option autoImplicit false

namespace MipsAsm

/-! ## Values cut to a field

What is put into a field loses the bits that do not fit.  For a register or a shift amount there are
none; of a number in the immediate field the remainder modulo 2 ^ 16 is left, which may stand for a
negative number. -/

namespace Field

/-- A value without the bits that do not fit into a field. -/
def cut (f : Field) (v : UInt32) : UInt32 := v &&& f.ones

theorem toNat_cut {f : Field} (hf : f.width ≤ 32) (v : UInt32) :
    (f.cut v).toNat = v.toNat % 2 ^ f.width := by
  rw [cut, UInt32.toNat_and, toNat_ones, Nat.min_eq_left hf, Nat.and_two_pow_sub_one_eq_mod]

theorem cut_of_lt {f : Field} (hf : f.width ≤ 32) {v : UInt32} (hv : v.toNat < 2 ^ f.width) :
    f.cut v = v :=
  UInt32.toNat_inj.mp (by rw [toNat_cut hf, Nat.mod_eq_of_lt hv])

end Field

theorem Register.toNat_toWord (r : Register) : r.toWord.toNat = r.val := by
  rw [toWord, UInt32.toNat_ofNat']
  exact Nat.mod_eq_of_lt (by have := r.isLt; omega)

/-- The number of a register fits into each of the fields for registers. -/
theorem Register.cut_toWord {f : Field} (hf : f.width = 5) (r : Register) :
    f.cut r.toWord = r.toWord :=
  Field.cut_of_lt (by omega) (by rw [r.toNat_toWord, hf]; exact r.isLt)

/-- A field keeps an integer modulo a power of two. -/
theorem toNat_cut_ofInt {f : Field} (hf : f.width ≤ 32) (v : Int) :
    ((f.cut (UInt32.ofInt v)).toNat : Int) = v % 2 ^ f.width := by
  have hdvd : (2 : Int) ^ f.width ∣ 2 ^ 32 := by exact_mod_cast Nat.pow_dvd_pow 2 hf
  rw [Field.toNat_cut hf, Int.natCast_emod, toNat_ofInt, Int.natCast_pow]
  exact Int.emod_emod_of_dvd v hdvd

theorem cut_imm_ofInt (v : Int) : Field.imm.cut (UInt32.ofInt v) = UInt32.ofInt (v % 2 ^ 16) := by
  apply UInt32.toNat_inj.mp
  have hcut : _ = v % 2 ^ 16 := toNat_cut_ofInt (f := Field.imm) (by decide) v
  have hv := toNat_ofInt (v % 2 ^ 16)
  omega

/-- The field for shift amounts keeps each of them. -/
theorem cut_shamt_ofInt {v : Int} (h0 : 0 ≤ v) (h1 : v ≤ 31) :
    Field.shamt.cut (UInt32.ofInt v) = UInt32.ofInt v := by
  have hv := toNat_ofInt v
  exact Field.cut_of_lt (by decide) (by change _ < 2 ^ 5; omega)

/-! ## What an operand admits

One inversion for each kind of operand: what an operand of a word that was made can stand for. -/

namespace Operand

theorem admits_register {field : Field} {x : Meaning} (h : (register field).Admits x) :
    ∃ r, x = .register r := by
  cases x with
  | register r => exact ⟨r, rfl⟩
  | number v => exact h.elim
  | distance d => exact h.elim
  | label => exact h.elim

theorem admits_number {field : Field} {lower upper : Int} {x : Meaning}
    (h : (number field lower upper).Admits x) : ∃ v, x = .number v ∧ lower ≤ v ∧ v ≤ upper := by
  cases x with
  | register r => exact h.elim
  | number v => exact ⟨v, rfl, h⟩
  | distance d => exact h.elim
  | label => exact h.elim

theorem admits_branchTarget {x : Meaning} (h : branchTarget.Admits x) :
    ∃ d, x = .distance d ∧ -32768 ≤ d.toInt ∧ d.toInt ≤ 32767 := by
  cases x with
  | register r => exact h.elim
  | number v => exact h.elim
  | distance d => exact ⟨d, rfl, h⟩
  | label => exact h.elim

theorem admits_jumpTarget {x : Meaning} (h : jumpTarget.Admits x) : x = .label := by
  cases x with
  | register r => exact h.elim
  | number v => exact h.elim
  | distance d => exact h.elim
  | label => rfl

end Operand

/-! ## The fields of a family

That the fields of a family do not overlap and fit into a word is decided family by family.  All
that follows holds of any fields of that kind: a field of a composed word holds what was put there,
and a field that overlaps none of them holds zero. -/

namespace Family

/-- The fields of a word of the family, that of the code first. -/
def usedFields (f : Family) : List Field := f.codeField :: f.operands.map Operand.field

theorem usedFields_disjoint (f : Family) : f.usedFields.Pairwise Field.Disjoint := by
  cases f <;> decide

theorem usedFields_fit (f : Family) : ∀ g ∈ f.usedFields, g.shift + g.width ≤ 32 := by
  cases f <;> decide

variable {f : Family} (code : UInt32) {xs : List Operand.Meaning}

theorem map_fst_fields (hlength : xs.length = f.operands.length) :
    (f.fields code xs).map Prod.fst = f.usedFields := by
  rw [fields, usedFields, List.map_cons, List.map_zipWith]
  congr 1
  exact List.ext_getElem (by simp [hlength]) fun n _ _ ↦ by simp

theorem fields_apart (hlength : xs.length = f.operands.length) :
    (f.fields code xs).Pairwise fun a b ↦ a.1.Apart b.1 := by
  rw [← List.pairwise_map (f := Prod.fst), map_fst_fields code hlength]
  exact f.usedFields_disjoint.imp Field.Disjoint.apart

/-- A field of the word holds the value put there. -/
theorem extract_field (hlength : xs.length = f.operands.length) {g : Field} {v : UInt32}
    (hmem : (g, v) ∈ f.fields code xs) : g.extract (compose (f.fields code xs)) = g.cut v := by
  have hfit : g.shift + g.width ≤ 32 := by
    refine f.usedFields_fit g ?_
    rw [← map_fst_fields code hlength]
    exact List.mem_map_of_mem hmem
  apply UInt32.toNat_inj.mp
  rw [Field.toNat_extract_compose hfit hmem (fields_apart code hlength),
    Field.toNat_cut (by omega)]

theorem extract_codeField (hlength : xs.length = f.operands.length) :
    f.codeField.extract (compose (f.fields code xs)) = f.codeField.cut code :=
  extract_field code hlength List.mem_cons_self

theorem extract_operand (hlength : xs.length = f.operands.length) {o : Operand}
    {x : Operand.Meaning} (hmem : (o, x) ∈ f.operands.zip xs) {g : Field} {v : UInt32}
    (hg : o.field = g) (hv : x.word = v) : g.extract (compose (f.fields code xs)) = g.cut v := by
  subst hg hv
  refine extract_field code hlength (List.mem_cons_of_mem _ ?_)
  rw [← List.map_uncurry_zip_eq_zipWith]
  exact List.mem_map_of_mem (f := Function.uncurry fun o x ↦ (Operand.field o, x.word)) hmem

theorem extract_unused (hlength : xs.length = f.operands.length) {g : Field}
    (hg : ∀ g' ∈ f.usedFields, Field.Disjoint g g') :
    g.extract (compose (f.fields code xs)) = 0 := by
  refine Field.extract_compose_of_apart fun fv hfv ↦ (hg fv.1 ?_).apart
  rw [← map_fst_fields code hlength]
  exact List.mem_map_of_mem hfv

/-! ## What a word reads as

The three word formats of the machine are read in full here, with the fields that no operand fills.
`Family.Holds` is the same one kind of operand after the other, and is what other theories use of a
word. -/

/-- What a word of the family holds, given the code of the mnemonic and what the operands stand for.
A word without an operation is read in the register format, a jump in the jump format, and every
other word in the immediate format.  Fields that no operand fills are zero. -/
def Reads (f : Family) (code : UInt32) (xs : List Operand.Meaning) (w : UInt32) : Prop :=
  match f, xs with
  | .threeRegister, [.register rd, .register rs, .register rt] =>
    RType.ofWord w =
      { opcode := 0, rs := rs.toWord, rt := rt.toWord, rd := rd.toWord, shamt := 0, funct := code }
  | .shift, [.register rd, .register rt, .number n] =>
    RType.ofWord w =
      { opcode := 0, rs := 0, rt := rt.toWord, rd := rd.toWord, shamt := UInt32.ofInt n
        funct := code }
  | .jumpRegister, [.register rs] =>
    RType.ofWord w =
      { opcode := 0, rs := rs.toWord, rt := 0, rd := 0, shamt := 0, funct := code }
  | .multiplyDivide, [.register rs, .register rt] =>
    RType.ofWord w =
      { opcode := 0, rs := rs.toWord, rt := rt.toWord, rd := 0, shamt := 0, funct := code }
  | .moveFromResult, [.register rd] =>
    RType.ofWord w =
      { opcode := 0, rs := 0, rt := 0, rd := rd.toWord, shamt := 0, funct := code }
  | .addImmediate, [.register rt, .register rs, .number n]
  | .orImmediate, [.register rt, .register rs, .number n]
  | .memory, [.register rt, .number n, .register rs] =>
    IType.ofWord w =
      { opcode := code, rs := rs.toWord, rt := rt.toWord, imm := UInt32.ofInt (n % 2 ^ 16) }
  | .loadUpper, [.register rt, .number n] =>
    IType.ofWord w =
      { opcode := code, rs := 0, rt := rt.toWord, imm := UInt32.ofInt (n % 2 ^ 16) }
  | .branch, [.register rs, .register rt, .distance d] =>
    IType.ofWord w =
      { opcode := code, rs := rs.toWord, rt := rt.toWord, imm := UInt32.ofInt (d.toInt % 2 ^ 16) }
  | .jump, [.label] => JType.ofWord w = { opcode := code, target := 0 }
  | _, _ => False

/-- What the fields of a word of the family hold, one kind of operand after the other. -/
structure Holds (f : Family) (code : UInt32) (xs : List Operand.Meaning) (w : UInt32) : Prop where
  code : f.codeField.extract w = code
  register : ∀ {field : Field} {r : Register},
    (Operand.register field, Operand.Meaning.register r) ∈ f.operands.zip xs →
      field.extract w = r.toWord
  shamt : ∀ {lower upper n : Int}, 0 ≤ n → n ≤ 31 →
    (Operand.number Field.shamt lower upper, Operand.Meaning.number n) ∈ f.operands.zip xs →
      Field.shamt.extract w = UInt32.ofInt n
  imm : ∀ {lower upper n : Int},
    (Operand.number Field.imm lower upper, Operand.Meaning.number n) ∈ f.operands.zip xs →
      Field.imm.extract w = UInt32.ofInt (n % 2 ^ 16)
  distance : ∀ {d : Int32},
    (Operand.branchTarget, Operand.Meaning.distance d) ∈ f.operands.zip xs →
      Field.imm.extract w = UInt32.ofInt (d.toInt % 2 ^ 16)
  target : (Operand.jumpTarget, Operand.Meaning.label) ∈ f.operands.zip xs →
    Field.target.extract w = 0
  unused : ∀ {g : Field}, (∀ g' ∈ f.usedFields, Field.Disjoint g g') → g.extract w = 0

theorem width_of_register_mem {f : Family} {field : Field}
    (h : Operand.register field ∈ f.operands) : field.width = 5 := by
  have hall : ∀ o ∈ f.operands, o.isRegister = true → o.field.width = 5 := by
    cases f <;> decide
  exact hall _ h rfl

theorem holds_fields {f : Family} {code : UInt32} {xs : List Operand.Meaning}
    (hcode : f.codeField.cut code = code) (hlength : xs.length = f.operands.length) :
    f.Holds code xs (compose (f.fields code xs)) where
  code := (extract_codeField code hlength).trans hcode
  register {field r} hmem := by
    have hwidth : field.width = 5 := width_of_register_mem (List.of_mem_zip hmem).1
    exact Eq.trans (extract_operand code hlength hmem rfl rfl) (r.cut_toWord hwidth)
  shamt h0 h31 hmem :=
    Eq.trans (extract_operand code hlength hmem rfl rfl) (cut_shamt_ofInt h0 h31)
  imm hmem := Eq.trans (extract_operand code hlength hmem rfl rfl) (cut_imm_ofInt _)
  distance {d} hmem := by
    rw [← cut_imm_ofInt, ofInt_toInt]
    exact extract_operand code hlength hmem rfl rfl
  target hmem := by
    have hzero : Field.target.cut 0 = 0 := by decide
    exact Eq.trans (extract_operand code hlength hmem rfl rfl) hzero
  unused hg := extract_unused code hlength hg

/-- **A word reads as what it was made of.** -/
theorem Holds.reads {f : Family} {code w : UInt32} {xs : List Operand.Meaning}
    (h : f.Holds code xs w) (hadmits : List.Forall₂ Operand.Admits f.operands xs) :
    f.Reads code xs w := by
  -- the operands of a family are a fixed list, which tells the meanings apart one by one
  cases f with
  | threeRegister =>
    obtain _ | ⟨h1, _ | ⟨h2, _ | ⟨h3, _ | _⟩⟩⟩ := hadmits
    obtain ⟨rd, rfl⟩ := Operand.admits_register h1
    obtain ⟨rs, rfl⟩ := Operand.admits_register h2
    obtain ⟨rt, rfl⟩ := Operand.admits_register h3
    show RType.ofWord w = _
    rw [RType.ofWord, RType.mk.injEq]
    exact ⟨h.unused (by decide), h.register (.tail _ (.head _)),
      h.register (.tail _ (.tail _ (.head _))), h.register (.head _), h.unused (by decide), h.code⟩
  | shift =>
    obtain _ | ⟨h1, _ | ⟨h2, _ | ⟨h3, _ | _⟩⟩⟩ := hadmits
    obtain ⟨rd, rfl⟩ := Operand.admits_register h1
    obtain ⟨rt, rfl⟩ := Operand.admits_register h2
    obtain ⟨n, rfl, h0, h31⟩ := Operand.admits_number h3
    show RType.ofWord w = _
    rw [RType.ofWord, RType.mk.injEq]
    exact ⟨h.unused (by decide), h.unused (by decide), h.register (.tail _ (.head _)),
      h.register (.head _), h.shamt h0 h31 (.tail _ (.tail _ (.head _))), h.code⟩
  | jumpRegister =>
    obtain _ | ⟨h1, _ | _⟩ := hadmits
    obtain ⟨rs, rfl⟩ := Operand.admits_register h1
    show RType.ofWord w = _
    rw [RType.ofWord, RType.mk.injEq]
    exact ⟨h.unused (by decide), h.register (.head _), h.unused (by decide), h.unused (by decide),
      h.unused (by decide), h.code⟩
  | multiplyDivide =>
    obtain _ | ⟨h1, _ | ⟨h2, _ | _⟩⟩ := hadmits
    obtain ⟨rs, rfl⟩ := Operand.admits_register h1
    obtain ⟨rt, rfl⟩ := Operand.admits_register h2
    show RType.ofWord w = _
    rw [RType.ofWord, RType.mk.injEq]
    exact ⟨h.unused (by decide), h.register (.head _), h.register (.tail _ (.head _)),
      h.unused (by decide), h.unused (by decide), h.code⟩
  | moveFromResult =>
    obtain _ | ⟨h1, _ | _⟩ := hadmits
    obtain ⟨rd, rfl⟩ := Operand.admits_register h1
    show RType.ofWord w = _
    rw [RType.ofWord, RType.mk.injEq]
    exact ⟨h.unused (by decide), h.unused (by decide), h.unused (by decide), h.register (.head _),
      h.unused (by decide), h.code⟩
  | addImmediate | orImmediate =>
    obtain _ | ⟨h1, _ | ⟨h2, _ | ⟨h3, _ | _⟩⟩⟩ := hadmits
    obtain ⟨rt, rfl⟩ := Operand.admits_register h1
    obtain ⟨rs, rfl⟩ := Operand.admits_register h2
    obtain ⟨n, rfl, -⟩ := Operand.admits_number h3
    show IType.ofWord w = _
    rw [IType.ofWord, IType.mk.injEq]
    exact ⟨h.code, h.register (.tail _ (.head _)), h.register (.head _),
      h.imm (.tail _ (.tail _ (.head _)))⟩
  | loadUpper =>
    obtain _ | ⟨h1, _ | ⟨h2, _ | _⟩⟩ := hadmits
    obtain ⟨rt, rfl⟩ := Operand.admits_register h1
    obtain ⟨n, rfl, -⟩ := Operand.admits_number h2
    show IType.ofWord w = _
    rw [IType.ofWord, IType.mk.injEq]
    exact ⟨h.code, h.unused (by decide), h.register (.head _), h.imm (.tail _ (.head _))⟩
  | memory =>
    obtain _ | ⟨h1, _ | ⟨h2, _ | ⟨h3, _ | _⟩⟩⟩ := hadmits
    obtain ⟨rt, rfl⟩ := Operand.admits_register h1
    obtain ⟨n, rfl, -⟩ := Operand.admits_number h2
    obtain ⟨rs, rfl⟩ := Operand.admits_register h3
    show IType.ofWord w = _
    rw [IType.ofWord, IType.mk.injEq]
    exact ⟨h.code, h.register (.tail _ (.tail _ (.head _))), h.register (.head _),
      h.imm (.tail _ (.head _))⟩
  | branch =>
    obtain _ | ⟨h1, _ | ⟨h2, _ | ⟨h3, _ | _⟩⟩⟩ := hadmits
    obtain ⟨rs, rfl⟩ := Operand.admits_register h1
    obtain ⟨rt, rfl⟩ := Operand.admits_register h2
    obtain ⟨d, rfl, -⟩ := Operand.admits_branchTarget h3
    show IType.ofWord w = _
    rw [IType.ofWord, IType.mk.injEq]
    exact ⟨h.code, h.register (.head _), h.register (.tail _ (.head _)),
      h.distance (.tail _ (.tail _ (.head _)))⟩
  | jump =>
    obtain _ | ⟨h1, _ | _⟩ := hadmits
    obtain rfl := Operand.admits_jumpTarget h1
    show JType.ofWord w = _
    rw [JType.ofWord, JType.mk.injEq]
    exact ⟨h.code, h.target (.head _)⟩

end Family

/-! ## Telling words apart

Two things have to be told apart.  Mnemonics of the same format differ in their codes, and those
of different formats in whether the field for operations is zero.  Operands of the same mnemonic
differ in what their fields hold, because a position admits no more meanings than its field can
tell apart. -/

namespace Mnemonic

theorem name_eq_of_ofName?_eq_some {s : String} {m : Mnemonic} (h : ofName? s = some m) :
    m.name = s := by
  simpa using List.find?_some h

theorem cut_code (m : Mnemonic) : m.family.codeField.cut m.code = m.code := by
  cases m <;> decide

/-- **Codes tell the mnemonics of a format apart.** -/
theorem eq_of_code_eq {m n : Mnemonic} (hfield : m.family.codeField = n.family.codeField)
    (hcode : m.code = n.code) : m = n := by
  have hfind : ∀ l : Mnemonic,
      all.find? (fun k ↦ k.family.codeField == l.family.codeField && k.code == l.code) =
        some l := by
    intro l
    cases l <;> decide
  have hm := hfind m
  rw [hfield, hcode, hfind n] at hm
  exact (Option.some.inj hm).symm

/-- The code of a mnemonic is in the field for operations, or that field is zero. -/
theorem codeField_cases (m : Mnemonic) :
    m.family.codeField = Field.opcode ∧ m.code ≠ 0 ∨
      m.family.codeField = Field.funct ∧
        ∀ g ∈ m.family.usedFields, Field.Disjoint Field.opcode g := by
  cases m <;> decide

/-- A word has one mnemonic. -/
theorem eq_of_holds {m n : Mnemonic} {xs ys : List Operand.Meaning} {w : UInt32}
    (hm : m.family.Holds m.code xs w) (hn : n.family.Holds n.code ys w) : m = n := by
  have hmcode := hm.code
  have hncode := hn.code
  rcases m.codeField_cases with ⟨hmfield, hmzero⟩ | ⟨hmfield, hmunused⟩ <;>
    rcases n.codeField_cases with ⟨hnfield, hnzero⟩ | ⟨hnfield, hnunused⟩ <;>
    rw [hmfield] at hmcode <;> rw [hnfield] at hncode
  · exact eq_of_code_eq (hmfield.trans hnfield.symm) (hmcode.symm.trans hncode)
  · exact absurd (hmcode.symm.trans (hn.unused hnunused)) hmzero
  · exact absurd (hncode.symm.trans (hm.unused hmunused)) hnzero
  · exact eq_of_code_eq (hmfield.trans hnfield.symm) (hmcode.symm.trans hncode)

end Mnemonic

namespace Operand

/-- The field of an operand has room for all meanings that the operand admits. -/
def Tells : Operand → Prop
  | .register field => field.width = 5
  | .number field lower upper => field.width ≤ 32 ∧ upper - lower < 2 ^ field.width
  | .branchTarget | .jumpTarget => True

/-- Numbers of a range no longer than the modulus are told apart by their remainders. -/
theorem eq_of_emod_eq {a b lower upper modulus : Int} (hrange : upper - lower < modulus)
    (ha : lower ≤ a ∧ a ≤ upper) (hb : lower ≤ b ∧ b ≤ upper) (h : a % modulus = b % modulus) :
    a = b := by
  have hdvd : modulus ∣ a - b :=
    Int.dvd_of_emod_eq_zero (Int.emod_eq_emod_iff_emod_sub_eq_zero.mp h)
  have hzero := Int.eq_zero_of_dvd_of_natAbs_lt_natAbs hdvd (by omega)
  omega

/-- **A field tells apart all meanings its operand admits.** -/
theorem Meaning.eq_of_cut_eq {o : Operand} (ho : o.Tells) {x y : Meaning} (hx : o.Admits x)
    (hy : o.Admits y) (h : o.field.cut x.word = o.field.cut y.word) : x = y := by
  cases o with
  | register field =>
    obtain ⟨r, rfl⟩ := admits_register hx
    obtain ⟨r', rfl⟩ := admits_register hy
    change field.cut r.toWord = field.cut r'.toWord at h
    rw [r.cut_toWord ho, r'.cut_toWord ho] at h
    have hval := congrArg UInt32.toNat h
    rw [r.toNat_toWord, r'.toNat_toWord] at hval
    rw [Fin.ext hval]
  | number field lower upper =>
    obtain ⟨v, rfl, hv⟩ := admits_number hx
    obtain ⟨v', rfl, hv'⟩ := admits_number hy
    have hmod : v % 2 ^ field.width = v' % 2 ^ field.width := by
      rw [← toNat_cut_ofInt ho.1, ← toNat_cut_ofInt ho.1]
      exact congrArg (fun w : UInt32 ↦ (w.toNat : Int)) h
    rw [eq_of_emod_eq ho.2 hv hv' hmod]
  | branchTarget =>
    obtain ⟨d, rfl, hd⟩ := admits_branchTarget hx
    obtain ⟨d', rfl, hd'⟩ := admits_branchTarget hy
    change Field.imm.cut d.toUInt32 = Field.imm.cut d'.toUInt32 at h
    rw [← ofInt_toInt, ← ofInt_toInt] at h
    have hmod : d.toInt % 2 ^ 16 = d'.toInt % 2 ^ 16 := by
      have hcut := toNat_cut_ofInt (f := Field.imm) (by decide) d.toInt
      have hcut' := toNat_cut_ofInt (f := Field.imm) (by decide) d'.toInt
      rw [h] at hcut
      exact hcut.symm.trans hcut'
    rw [Int32.toInt_inj.mp (eq_of_emod_eq (by decide) hd hd' hmod)]
  | jumpTarget => rw [admits_jumpTarget hx, admits_jumpTarget hy]

/-- Meanings of the same operands are equal if one word holds both. -/
theorem meanings_eq_of_extract_eq {os : List Operand} {xs ys : List Meaning} {w : UInt32}
    (htell : ∀ o ∈ os, o.Tells) (hx : List.Forall₂ Admits os xs) (hy : List.Forall₂ Admits os ys)
    (hxw : ∀ ox ∈ os.zip xs, ox.1.field.extract w = ox.1.field.cut ox.2.word)
    (hyw : ∀ oy ∈ os.zip ys, oy.1.field.extract w = oy.1.field.cut oy.2.word) : xs = ys := by
  induction hx generalizing ys with
  | nil =>
    cases hy
    rfl
  | @cons o x os xs hxhead hx ih =>
    obtain _ | @⟨_, y, _, ys, hyhead, hy⟩ := hy
    rw [List.zip_cons_cons] at hxw hyw
    have hhead : o.field.cut x.word = o.field.cut y.word :=
      (hxw (o, x) List.mem_cons_self).symm.trans (hyw (o, y) List.mem_cons_self)
    rw [Meaning.eq_of_cut_eq (htell o List.mem_cons_self) hxhead hyhead hhead,
      ih (fun o' ho' ↦ htell o' (List.mem_cons_of_mem _ ho')) hy
        (fun ox hox ↦ hxw ox (List.mem_cons_of_mem _ hox))
        (fun oy hoy ↦ hyw oy (List.mem_cons_of_mem _ hoy))]

end Operand

namespace Family

theorem operands_tell (f : Family) : ∀ o ∈ f.operands, o.Tells := by
  cases f <;> simp [operands, Operand.Tells, Operand.signedImmediate, Operand.unsignedImmediate,
    Field.rs, Field.rt, Field.rd, Field.shamt, Field.imm]

/-- Words of a mnemonic are equal only if their operands stand for the same. -/
theorem meanings_eq_of_compose_eq {f : Family} {code : UInt32} {xs ys : List Operand.Meaning}
    (hx : List.Forall₂ Operand.Admits f.operands xs)
    (hy : List.Forall₂ Operand.Admits f.operands ys)
    (h : compose (f.fields code xs) = compose (f.fields code ys)) : xs = ys := by
  refine Operand.meanings_eq_of_extract_eq f.operands_tell hx hy
    (fun ox hox ↦ extract_operand code hx.length_eq.symm hox rfl rfl) fun oy hoy ↦ ?_
  rw [h]
  exact extract_operand code hy.length_eq.symm hoy rfl rfl

end Family

/-! ## The result -/

/-- **Words are read back, and no two instructions share one.**  The word of an instruction, read in
the format of its family, holds the code of the mnemonic and what the operands stand for.  Two
instructions with the same word, at any addresses and with any tables, have the same mnemonic and
operands that stand for the same. -/
theorem encode_reads_back :
    (∀ (limit : Int) (i : Instruction) (address : UInt32) (tables : Tables) (w : UInt32),
      (i.encode limit address tables).2 = .ok w →
        ∃ m xs, Mnemonic.ofName? i.mnemonic = some m ∧
          Operand.meanings? tables.symbols address m.family.operands i.args = some xs ∧
          m.family.Reads m.code xs w) ∧
    ∀ (limit limit' : Int) (i i' : Instruction) (address address' : UInt32)
      (tables tables' : Tables) (w : UInt32),
      (i.encode limit address tables).2 = .ok w → (i'.encode limit' address' tables').2 = .ok w →
        i.mnemonic = i'.mnemonic ∧
          ∃ m xs, Mnemonic.ofName? i.mnemonic = some m ∧
            Operand.meanings? tables.symbols address m.family.operands i.args = some xs ∧
            Operand.meanings? tables'.symbols address' m.family.operands i'.args = some xs := by
  refine ⟨?_, ?_⟩
  · intro limit i address tables w h
    obtain ⟨m, xs, hcheck, hxs, hadmits, rfl, -⟩ := Instruction.encode_eq_ok (Prod.ext rfl h)
    refine ⟨m, xs, (Instruction.check_eq_ok_iff.mp hcheck).1, hxs, ?_⟩
    exact (Family.holds_fields m.cut_code hadmits.length_eq.symm).reads hadmits
  · intro limit limit' i i' address address' tables tables' w h h'
    obtain ⟨m, xs, hcheck, hxs, hadmits, rfl, -⟩ := Instruction.encode_eq_ok (Prod.ext rfl h)
    obtain ⟨m', xs', hcheck', hxs', hadmits', hw, -⟩ := Instruction.encode_eq_ok (Prod.ext rfl h')
    obtain ⟨hname, -⟩ := Instruction.check_eq_ok_iff.mp hcheck
    obtain ⟨hname', -⟩ := Instruction.check_eq_ok_iff.mp hcheck'
    -- the word determines the mnemonic first, and then the operands in its format
    have hholds := Family.holds_fields m.cut_code hadmits.length_eq.symm
    have hholds' := Family.holds_fields m'.cut_code hadmits'.length_eq.symm
    obtain rfl := Mnemonic.eq_of_holds hholds (hw ▸ hholds')
    obtain rfl := Family.meanings_eq_of_compose_eq hadmits hadmits' hw
    refine ⟨?_, m, xs, hname, hxs, hxs'⟩
    rw [← Mnemonic.name_eq_of_ofName?_eq_some hname, Mnemonic.name_eq_of_ofName?_eq_some hname']

/-- Two branches at different addresses, to different labels and with a register written in two
ways, that have the same word. -/
theorem encode_reads_back_branches :
    ∃ tables tables' : Tables,
      (Instruction.encode 5 ⟨"beq", ["$0", "$t0", "up"]⟩ 8 tables).2 = .ok 0x1008fffe ∧
      (Instruction.encode 5 ⟨"beq", ["$zero", "$t0", "back"]⟩ 100 tables').2 = .ok 0x1008fffe ∧
      (∃ m xs, Mnemonic.ofName? "beq" = some m ∧
        Operand.meanings? tables.symbols 8 m.family.operands ["$0", "$t0", "up"] = some xs ∧
        m.family.Reads m.code xs 0x1008fffe) ∧
      ∃ m xs, Mnemonic.ofName? "beq" = some m ∧
        Operand.meanings? tables.symbols 8 m.family.operands ["$0", "$t0", "up"] = some xs ∧
        Operand.meanings? tables'.symbols 100 m.family.operands ["$zero", "$t0", "back"] =
          some xs := by
  obtain ⟨tables, h⟩ : ∃ tables,
      (Instruction.encode 5 ⟨"beq", ["$0", "$t0", "up"]⟩ 8 tables).2 = .ok 0x1008fffe :=
    ⟨{ symbols := some ((SymbolTable.empty .unique).insert 5 "up" 4).1, relocations := none },
      by decide⟩
  obtain ⟨tables', h'⟩ : ∃ tables,
      (Instruction.encode 5 ⟨"beq", ["$zero", "$t0", "back"]⟩ 100 tables).2 = .ok 0x1008fffe :=
    ⟨{ symbols := some ((SymbolTable.empty .unique).insert 5 "back" 96).1, relocations := none },
      by decide⟩
  exact ⟨tables, tables', h, h', encode_reads_back.1 _ _ _ _ _ h,
    (encode_reads_back.2 _ _ _ _ _ _ _ _ _ h h').2⟩

end MipsAsm
