import MipsAsm.Proofs.Encoding.Branch
import MipsAsm.Proofs.Lists
import MipsAsm.Proofs.SymbolTable
import MipsAsm.Proofs.Word.Field

/-!
# What a word is made of

The encoder turns operands into the values of fields, the registers first and then the rest.  This
file says what is in the word of an instruction without reference to that order.

The meanings are what all later results about words are phrased in.  They are read from the texts of
the operands with the same functions that the encoder uses for a single operand, and the result is
compared with the encoder as a whole: which operand goes into which field, that registers are looked
at before the rest, and that nothing else is in the word.  What a single operand is worth is a
matter of literals, registers and branches, and has theories of its own.

* `Operand.Meaning` — what an operand stands for: a register, a number, a distance or a label that
  is filled in later.  `Operand.meaning?` reads one operand and `Operand.meanings?` all of them.
* `Operand.Admits` — the meanings an operand position can have.  They are as many as its field can
  tell apart.
* `Instruction.check_eq_ok_iff` — what is checked before operands are read.
* `Instruction.encode_eq_ok` — an instruction with a word has a mnemonic and as many meanings as
  operands, and its word is composed of the code of the mnemonic and the meanings.
-/

set_option autoImplicit false

namespace MipsAsm

/-! ## Literals and registers -/

theorem Literal.parse_bounds {s : String} {lower upper v : Int}
    (h : Literal.parse s lower upper = .ok v) : lower ≤ v ∧ v ≤ upper := by
  rw [Literal.parse] at h
  split at h
  · cases h
  · split at h
    · rename_i hv
      cases h
      exact hv
    · cases h

theorem Register.parse_eq_ok {name : String} {r : Register} (h : Register.parse name = .ok r) :
    Register.ofName? name = some r := by
  rw [Register.parse] at h
  split at h
  · cases h
    assumption
  · cases h

/-! ## Meanings of operands

The encoder puts a value of 32 bits into a field, and different operands can have the same value
there: a number and a register are both just bits.  A meaning keeps them apart, and does not depend
on the field.  `Operand.meanings?` reads the operands in the order in which they are written, not in
the order in which the encoder looks at them. -/

/-- What an operand stands for. -/
inductive Operand.Meaning where
  /-- A register. -/
  | register (r : Register)
  /-- A number. -/
  | number (v : Int)
  /-- The distance in words from the instruction after a branch to its label. -/
  | distance (d : Int32)
  /-- A label whose address is filled in later. -/
  | label
deriving DecidableEq, Repr

namespace Operand

/-- The value that goes into the field of an operand. -/
def Meaning.word : Meaning → UInt32
  | .register r => r.toWord
  | .number v => UInt32.ofInt v
  | .distance d => d.toUInt32
  | .label => 0

/-- What the text `arg` stands for as an operand of an instruction at `address`. -/
def meaning? (symbols : Option SymbolTable) (address : UInt32) : Operand → String → Option Meaning
  | .register _, arg => (Register.ofName? arg).map .register
  | .number _ lower upper, arg => (Literal.parse arg lower upper).toOption.map .number
  | .branchTarget, arg =>
    ((symbols.bind (·.find? arg)).filter (canBranch address)).map fun dest ↦
      .distance (branchOffset address dest)
  | .jumpTarget, _ => some .label

/-- What each of the given texts stands for.  There have to be as many texts as operands. -/
def meanings? (symbols : Option SymbolTable) (address : UInt32) :
    List Operand → List String → Option (List Meaning)
  | [], [] => some []
  | o :: os, arg :: args => do
    let x ← o.meaning? symbols address arg
    let xs ← meanings? symbols address os args
    return x :: xs
  | _, _ => none

/-- The meanings an operand position can have. -/
def Admits : Operand → Meaning → Prop
  | .register _, .register _ => True
  | .number _ lower upper, .number v => lower ≤ v ∧ v ≤ upper
  | .branchTarget, .distance d => -32768 ≤ d.toInt ∧ d.toInt ≤ 32767
  | .jumpTarget, .label => True
  | _, _ => False

/-- An operand with a value has a meaning that the position admits, and the value is that of the
meaning. -/
theorem value_eq_ok {mnemonic : String} {symbols : Option SymbolTable} {address : UInt32}
    {o : Operand} {arg : String} {v : UInt32} (h : o.value mnemonic symbols address arg = .ok v) :
    ∃ x, o.meaning? symbols address arg = some x ∧ o.Admits x ∧ x.word = v := by
  cases o with
  | register field =>
    rw [value] at h
    split at h
    · cases h
    · rename_i r hr
      cases h
      exact ⟨.register r, by rw [meaning?, Register.parse_eq_ok hr, Option.map_some], trivial, rfl⟩
  | number field lower upper =>
    rw [value] at h
    split at h
    · cases h
    · rename_i n hn
      cases h
      exact ⟨.number n, by rw [meaning?, hn]; rfl, Literal.parse_bounds hn, rfl⟩
  | branchTarget =>
    rw [value] at h
    split at h
    · split at h
      · cases h
      · rename_i dest hdest
        split at h
        · rename_i hreach
          cases h
          refine ⟨.distance (branchOffset address dest), ?_, branchOffset_bounds hreach, rfl⟩
          rw [meaning?, hdest, Option.filter_some, if_pos hreach, Option.map_some]
        · cases h
    · cases h
  | jumpTarget =>
    rw [value] at h
    split at h
    · cases h
      exact ⟨.label, rfl, trivial, rfl⟩
    · cases h

/-- Operands that all have values have meanings, and the fields of the word hold those. -/
theorem exists_meanings {mnemonic : String} {symbols : Option SymbolTable} {address : UInt32}
    {os : List Operand} {args : List String} {value : Operand × String → UInt32}
    (hlength : args.length = os.length)
    (hvalue : ∀ oa ∈ os.zip args, oa.1.value mnemonic symbols address oa.2 = .ok (value oa)) :
    ∃ xs, meanings? symbols address os args = some xs ∧ List.Forall₂ Admits os xs ∧
      (os.zip args).map (fun oa ↦ (oa.1.field, value oa)) =
        os.zipWith (fun o x ↦ (o.field, x.word)) xs := by
  induction os generalizing args with
  | nil =>
    rw [List.length_nil, List.length_eq_zero_iff] at hlength
    subst hlength
    exact ⟨[], rfl, .nil, rfl⟩
  | cons o os ih =>
    obtain ⟨arg, args, rfl⟩ := List.exists_cons_of_length_eq_add_one hlength
    rw [List.zip_cons_cons] at hvalue ⊢
    obtain ⟨x, hx, hadmits, hword⟩ := value_eq_ok (hvalue _ List.mem_cons_self)
    obtain ⟨xs, hxs, hall, hfields⟩ :=
      ih (Nat.succ.inj hlength) fun oa hoa ↦ hvalue oa (List.mem_cons_of_mem _ hoa)
    refine ⟨x :: xs, ?_, .cons hadmits hall, ?_⟩
    · rw [meanings?, hx, hxs]
      rfl
    · rw [List.map_cons, List.zipWith_cons_cons, hfields, hword]

end Operand

/-! ## The fields of a word

The encoder reads the registers first, so its list of fields is a permutation of the one in the
order of the operands.  Fields that do not overlap may be put together in any order, and the word is
composed of the list that is easier to read. -/

/-- The fields of a word of the family, given the code of the mnemonic and what the operands stand
for. -/
def Family.fields (f : Family) (code : UInt32) (xs : List Operand.Meaning) :
    List (Field × UInt32) :=
  (f.codeField, code) :: f.operands.zipWith (fun o x ↦ (o.field, x.word)) xs

theorem Family.pairOperands_perm (f : Family) (args : List String) :
    (f.pairOperands args).Perm (f.operands.zip args) :=
  List.filter_append_perm _ _

namespace Instruction

theorem check_eq_ok_iff {i : Instruction} {tables : Tables} {m : Mnemonic} :
    i.check tables = .ok m ↔
      Mnemonic.ofName? i.mnemonic = some m ∧ tables.missing? m.family = none ∧
        i.args.length = m.family.arity ∧ "" ∉ i.args := by
  constructor
  · intro h
    rw [check] at h
    split at h
    · cases h
    · rename_i n hname
      split at h
      · cases h
      · rename_i htable
        split at h
        · cases h
        · rename_i hlength
          split at h
          · cases h
          · rename_i hempty
            cases h
            exact ⟨hname, htable, not_not.mp hlength, hempty⟩
  · rintro ⟨hname, htable, hlength, hempty⟩
    simp [check, hname, htable, hlength, hempty]

/-- The value of an operand with its field. -/
theorem fieldValue_eq_ok {mnemonic : String} {symbols : Option SymbolTable} {address : UInt32}
    {oa : Operand × String} {fv : Field × UInt32}
    (h : (do
      let value ← oa.1.value mnemonic symbols address oa.2
      return (oa.1.field, value) : Except Error (Field × UInt32)) = .ok fv) :
    oa.1.value mnemonic symbols address oa.2 = .ok fv.2 ∧ fv.1 = oa.1.field := by
  cases hv : oa.1.value mnemonic symbols address oa.2 with
  | error e => rw [hv] at h; cases h
  | ok v =>
    rw [hv] at h
    cases h
    exact ⟨rfl, rfl⟩

/-- All operands of an instruction that has fields have values, and the fields hold those and the
code of the mnemonic. -/
theorem exists_values {i : Instruction} {m : Mnemonic} {symbols : Option SymbolTable}
    {address : UInt32} {values : List (Field × UInt32)}
    (h : i.fieldValues m symbols address = .ok values) :
    ∃ value : Operand × String → UInt32,
      (∀ oa ∈ m.family.operands.zip i.args,
        oa.1.value i.mnemonic symbols address oa.2 = .ok (value oa)) ∧
      values = (m.family.codeField, m.code) ::
        (m.family.pairOperands i.args).map fun oa ↦ (oa.1.field, value oa) := by
  rw [fieldValues] at h
  cases hmap : (m.family.pairOperands i.args).mapM fun (oa : Operand × String) ↦ do
      let value ← oa.1.value i.mnemonic symbols address oa.2
      return (oa.1.field, value) with
  | error e => rw [hmap] at h; cases h
  | ok fvs =>
    rw [hmap] at h
    cases h
    -- a function that gives the value of each pair of operand and text
    let value (oa : Operand × String) : UInt32 :=
      (oa.1.value i.mnemonic symbols address oa.2).toOption.getD 0
    have hitem : ∀ (oa : Operand × String) (fv : Field × UInt32),
        (do
          let value ← oa.1.value i.mnemonic symbols address oa.2
          return (oa.1.field, value) : Except Error (Field × UInt32)) = .ok fv →
        fv = (oa.1.field, value oa) := by
      intro oa fv hoa
      obtain ⟨hv, hf⟩ := fieldValue_eq_ok hoa
      exact Prod.ext hf (by simp only [value, hv]; rfl)
    obtain ⟨hall, hfvs⟩ := mapM_eq_ok hitem hmap
    refine ⟨value, fun oa hoa ↦ ?_, by rw [hfvs]⟩
    have hmem := (m.family.pairOperands_perm i.args).mem_iff.mpr hoa
    exact (fieldValue_eq_ok (hall oa hmem)).1

/-- The fields of an instruction are those of its family, in some order. -/
theorem fieldValues_eq_ok {i : Instruction} {m : Mnemonic} {symbols : Option SymbolTable}
    {address : UInt32} {values : List (Field × UInt32)}
    (h : i.fieldValues m symbols address = .ok values) (hlength : i.args.length = m.family.arity) :
    ∃ xs, Operand.meanings? symbols address m.family.operands i.args = some xs ∧
      List.Forall₂ Operand.Admits m.family.operands xs ∧
      values.Perm (m.family.fields m.code xs) := by
  obtain ⟨value, hvalue, rfl⟩ := exists_values h
  obtain ⟨xs, hxs, hadmits, hfields⟩ := Operand.exists_meanings hlength hvalue
  refine ⟨xs, hxs, hadmits, ?_⟩
  rw [Family.fields, ← hfields]
  exact ((m.family.pairOperands_perm i.args).map _).cons _

/-! ## The three steps of encoding

An instruction is checked for its form, then its operands are read, and then it is noted if it
leaves something to be filled in.  Each step has one lemma for the case that it ends there, and
later proofs go from one to the next by these. -/

section Steps

variable {i : Instruction} {m : Mnemonic} {tables : Tables} {address : UInt32}

theorem encode_of_check_error {e : Error} (h : i.check tables = .error e) (limit : Int) :
    i.encode limit address tables = (tables, .error (.rejected e)) := by
  rw [encode, h]

theorem encode_of_fieldValues_error {e : Error} (hcheck : i.check tables = .ok m)
    (h : i.fieldValues m tables.symbols address = .error e) (limit : Int) :
    i.encode limit address tables = (tables, .error (.rejected e)) := by
  rw [encode, hcheck]
  simp only [h]

theorem encode_of_fieldValues {values : List (Field × UInt32)} (hcheck : i.check tables = .ok m)
    (h : i.fieldValues m tables.symbols address = .ok values) (limit : Int) :
    i.encode limit address tables =
      ((tables.record limit m.family i address).1,
        (tables.record limit m.family i address).2.map fun _ ↦ compose values) := by
  rw [encode, hcheck]
  simp only [h]

end Steps

/-- **What a word is made of.**  An instruction that has a word passed the checks, its operands have
meanings, its word is composed of those and the code of the mnemonic, and what it leaves to be
filled in later was noted. -/
theorem encode_eq_ok {limit : Int} {i : Instruction} {address : UInt32} {tables tables' : Tables}
    {w : UInt32} (h : i.encode limit address tables = (tables', .ok w)) :
    ∃ m xs, i.check tables = .ok m ∧
      Operand.meanings? tables.symbols address m.family.operands i.args = some xs ∧
      List.Forall₂ Operand.Admits m.family.operands xs ∧
      w = compose (m.family.fields m.code xs) ∧
      tables.record limit m.family i address = (tables', .ok ()) := by
  rw [encode] at h
  split at h
  · cases h
  · rename_i m hcheck
    split at h
    · cases h
    · rename_i values hvalues
      obtain ⟨-, -, hlength, -⟩ := check_eq_ok_iff.mp hcheck
      obtain ⟨xs, hxs, hadmits, hperm⟩ := fieldValues_eq_ok hvalues hlength
      cases hrecord : tables.record limit m.family i address with
      | mk tables'' outcome =>
        rw [hrecord] at h
        cases outcome with
        | error fault => cases h
        | ok u =>
          cases h
          exact ⟨m, xs, hcheck, hxs, hadmits, compose_perm hperm, hrecord⟩

/-! ## Relocations

The table of relocations is handed through the encoder, but it has no influence on the word: all
that can happen is that it has no room left.  So a word can be computed with an empty table, which
is how the second pass is described without the relocations it has made so far. -/

variable {limit : Int} {i : Instruction} {address : UInt32} {symbols : Option SymbolTable}

theorem check_relocations (r r' : SymbolTable) :
    i.check { symbols, relocations := some r } = i.check { symbols, relocations := some r' } := by
  have hmissing : ∀ f, Tables.missing? { symbols, relocations := some r } f =
      Tables.missing? { symbols, relocations := some r' } f := by
    intro f
    cases f <;> cases symbols <;> rfl
  simp only [check, hmissing]

/-- A jump with a label inserts it into the relocations, and nothing else is ever noted. -/
theorem record_cases (limit : Int) (i : Instruction) (address : UInt32) (f : Family) :
    (∃ label rest, f = .jump ∧ i.args = label :: rest) ∨
      ∀ tables, Tables.record limit tables f i address = (tables, .ok ()) := by
  by_cases hjump : f = .jump
  · subst hjump
    cases hargs : i.args with
    | nil => exact .inr fun tables ↦ by simp [Tables.record, hargs]
    | cons label rest => exact .inl ⟨label, rest, rfl, rfl⟩
  · refine .inr fun tables ↦ ?_
    rw [Tables.record.eq_def]
    split
    · exact absurd rfl hjump
    · rfl

theorem record_jump {label : String} {rest : List String} (hargs : i.args = label :: rest)
    (r : SymbolTable) :
    Tables.record limit { symbols, relocations := some r } .jump i address =
      ({ symbols, relocations := some (r.insert limit label address).1 },
        (r.insert limit label address).2.mapError (·.inInstruction i.mnemonic)) := by
  simp [Tables.record, hargs]

/-- A note of what is left to be filled in changes nothing but the entries of the relocations. -/
theorem record_fst (f : Family) (r : SymbolTable) :
    ∃ r' : SymbolTable, r'.mode = r.mode ∧
      (Tables.record limit { symbols, relocations := some r } f i address).1 =
        { symbols, relocations := some r' } := by
  obtain ⟨label, rest, rfl, hargs⟩ | hnothing := record_cases limit i address f
  · refine ⟨(r.insert limit label address).1, ?_, by rw [record_jump hargs]⟩
    obtain ⟨fault, -, -, hsame⟩ | ⟨-, -, hmode, -⟩ :=
      SymbolTable.insert_cases (Prod.eta (r.insert limit label address)).symm
    · rw [hsame]
    · exact hmode
  · exact ⟨r, rfl, by rw [hnothing]⟩

theorem mapError_inInstruction_ne {outcome : Except Fault Unit} {mnemonic : String} :
    outcome.mapError (·.inInstruction mnemonic) ≠ .error .outOfMemory ↔
      outcome ≠ .error .outOfMemory := by
  cases outcome with
  | ok u => simp [Except.mapError]
  | error fault => cases fault <;> simp [Except.mapError, Fault.inInstruction]

/-- What becomes of the note does not depend on the relocations, as long as there is room. -/
theorem record_empty {f : Family} {r : SymbolTable} (hmode : r.mode = .repeatable)
    (h : (Tables.record limit { symbols, relocations := some r } f i address).2 ≠
      .error .outOfMemory) :
    (Tables.record limit { symbols, relocations := some (.empty .repeatable) } f i address).2 =
      (Tables.record limit { symbols, relocations := some r } f i address).2 := by
  obtain ⟨label, rest, rfl, hargs⟩ | hnothing := record_cases limit i address f
  · rw [record_jump hargs, mapError_inInstruction_ne] at h
    rw [record_jump hargs, record_jump hargs, SymbolTable.insert_empty hmode h]
  · rw [hnothing, hnothing]

theorem record_empty_ne_outOfMemory (f : Family) :
    (Tables.record limit { symbols, relocations := some (.empty .repeatable) } f i address).2 ≠
      .error .outOfMemory := by
  obtain ⟨label, rest, rfl, hargs⟩ | hnothing := record_cases limit i address f
  · rw [record_jump hargs, mapError_inInstruction_ne]
    exact SymbolTable.insert_empty_ne_outOfMemory limit .repeatable label address
  · rw [hnothing]
    simp

theorem encode_fst (r : SymbolTable) :
    ∃ r' : SymbolTable, r'.mode = r.mode ∧
      (i.encode limit address { symbols, relocations := some r }).1 =
        { symbols, relocations := some r' } := by
  rw [encode]
  split
  · exact ⟨r, rfl, rfl⟩
  · split
    · exact ⟨r, rfl, rfl⟩
    · exact record_fst _ r

theorem map_ne_outOfMemory {outcome : Except Fault Unit} {word : UInt32} :
    (outcome.map fun () ↦ word) ≠ .error .outOfMemory ↔ outcome ≠ .error .outOfMemory := by
  cases outcome <;> simp [Except.map]

/-- **The word of an instruction does not depend on the relocations**, as long as there is room for
one more. -/
theorem encode_empty {r : SymbolTable} (hmode : r.mode = .repeatable)
    (h : (i.encode limit address { symbols, relocations := some r }).2 ≠ .error .outOfMemory) :
    (i.encode limit address { symbols, relocations := some (.empty .repeatable) }).2 =
      (i.encode limit address { symbols, relocations := some r }).2 := by
  rw [encode] at h
  rw [encode, encode, check_relocations (.empty .repeatable) r]
  cases hcheck : i.check { symbols, relocations := some r } with
  | error e => rfl
  | ok m =>
    rw [hcheck] at h
    cases hvalues : i.fieldValues m symbols address with
    | error e => simp only [hvalues]
    | ok values =>
      simp only [hvalues, map_ne_outOfMemory] at h ⊢
      rw [record_empty hmode h]

theorem encode_empty_ne_outOfMemory :
    (i.encode limit address { symbols, relocations := some (.empty .repeatable) }).2 ≠
      .error .outOfMemory := by
  rw [encode]
  split
  · simp
  · split
    · simp
    · rw [map_ne_outOfMemory]
      exact record_empty_ne_outOfMemory _

end Instruction
end MipsAsm
