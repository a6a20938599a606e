import MipsAsm.Proofs.Encoding.Grammar

/-!
# The operand at fault

An instruction that cannot be encoded is rejected for its form, for one of its operands or, if it is
a jump, for its record.  A rejection for an operand names the text of that operand, and its cause
tells it from the other rejections.

* `Operand.causes` — the causes for which an operand is rejected; `Error.Kind.ofOperands` has all of
  them.
* `Operand.value_error`, `Instruction.fieldValues_error` — a rejection of operands is that of one of
  them, and names it.
* `Instruction.encode_error_of_operand` — a rejection with such a cause comes from an operand.
* `Instruction.encode_of_labelless` — what becomes of an instruction of the right form that takes no
  label.
-/

set_option autoImplicit false

namespace MipsAsm

/-- The causes for which an operand is rejected. -/
def Operand.causes : Operand → List Error.Kind
  | .register _ => [.invalidRegister]
  | .number _ _ _ => [.unparseable, .numberOutOfRange]
  | .branchTarget => [.invalidLabel, .undefinedSymbol, .unreachableBranchTarget]
  | .jumpTarget => [.invalidLabel]

/-- The causes for which some operand is rejected. -/
def Error.Kind.ofOperands : List Error.Kind :=
  [.invalidRegister, .numberOutOfRange, .unparseable, .invalidLabel, .undefinedSymbol,
    .unreachableBranchTarget]

/-! ## Operands

An operand is rejected with its own text as what is at fault, and with a cause that depends on what
kind of operand it is. -/

theorem Register.parse_error {name : String} {e : Error} (h : parse name = .error e) :
    e.construct = name ∧ e.kind = .invalidRegister := by
  rw [parse] at h
  split at h
  · cases h
  · obtain rfl := Except.error.inj h
    exact ⟨rfl, rfl⟩

/-- A literal is rejected because it cannot be read, or because it is too large or too small. -/
theorem Literal.parse_error {s : String} {lower upper : Int} {e : Error}
    (h : parse s lower upper = .error e) :
    e.construct = s ∧ (e.kind = .unparseable ∨ e.kind = .numberOutOfRange) := by
  rw [parse] at h
  split at h
  · rename_i kind hvalue
    obtain rfl := Except.error.inj h
    exact ⟨rfl, value_error hvalue⟩
  · split at h
    · cases h
    · obtain rfl := Except.error.inj h
      exact ⟨rfl, .inr rfl⟩

/-- **An operand is rejected for itself**, and for a cause of its own. -/
theorem Operand.value_error {o : Operand} {mnemonic arg : String} {symbols : Option SymbolTable}
    {address : UInt32} {e : Error} (h : o.value mnemonic symbols address arg = .error e) :
    e.construct = arg ∧ e.kind ∈ o.causes := by
  cases o with
  | register field =>
    rw [value] at h
    split at h
    · rename_i e' hparse
      obtain rfl := Except.error.inj h
      obtain ⟨hconstruct, hkind⟩ := Register.parse_error hparse
      simp [causes, hconstruct, hkind]
    · cases h
  | number field lower upper =>
    rw [value] at h
    split at h
    · rename_i e' hparse
      obtain rfl := Except.error.inj h
      obtain ⟨hconstruct, hkind⟩ := Literal.parse_error hparse
      simp [causes, hconstruct, hkind]
    · cases h
  | branchTarget =>
    rw [value] at h
    split at h
    · split at h
      · obtain rfl := Except.error.inj h
        simp [causes]
      · split at h
        · cases h
        · obtain rfl := Except.error.inj h
          simp [causes]
    · obtain rfl := Except.error.inj h
      simp [causes]
  | jumpTarget =>
    rw [value] at h
    split at h
    · cases h
    · obtain rfl := Except.error.inj h
      simp [causes]

namespace Instruction

variable {limit : Int} {i : Instruction} {m : Mnemonic} {address : UInt32} {tables : Tables}
  {e : Error}

/-- **Operands are rejected for one of them.** -/
theorem fieldValues_error {symbols : Option SymbolTable}
    (h : i.fieldValues m symbols address = .error e) :
    ∃ oa ∈ m.family.operands.zip i.args,
      oa.1.value i.mnemonic symbols address oa.2 = .error e := by
  rw [fieldValues] at h
  cases hmap : (m.family.pairOperands i.args).mapM fun (oa : Operand × String) ↦ do
      let value ← oa.1.value i.mnemonic symbols address oa.2
      return (oa.1.field, value) with
  | ok fvs => rw [hmap] at h; cases h
  | error e' =>
    rw [hmap] at h
    obtain rfl := Except.error.inj h
    obtain ⟨oa, hoa, hfault⟩ := exists_of_mapM_eq_error hmap
    refine ⟨oa, (m.family.pairOperands_perm i.args).mem_iff.mp hoa, ?_⟩
    cases hvalue : oa.1.value i.mnemonic symbols address oa.2 with
    | ok v => rw [hvalue] at hfault; cases hfault
    | error e'' =>
      rw [hvalue] at hfault
      exact congrArg Except.error (Except.error.inj hfault)

/-! ## Rejections for other reasons

The form of an instruction and the record of a jump have causes of their own, none of which is the
cause of an operand. -/

theorem kind_of_check_error (h : i.check tables = .error e) :
    e.kind ∉ Error.Kind.ofOperands := by
  have hjudged := i.check_judged tables
  rw [h] at hjudged
  obtain ⟨d, hd, hkind, -⟩ := hjudged.2.exists_mem
  rw [← hkind]
  simp only [formDemands, List.mem_cons, List.not_mem_nil, or_false] at hd
  rcases hd with rfl | rfl | rfl | rfl <;> simp [Error.Kind.ofOperands]

theorem kind_of_insertFault? {t : SymbolTable} {name : String}
    (h : t.insertFault? limit name address = some (.rejected e)) :
    e.kind ∉ Error.Kind.ofOperands := by
  rw [SymbolTable.insertFault?] at h
  split at h
  · cases h
    simp [Error.Kind.ofOperands]
  · split at h
    · cases h
      simp [Error.Kind.ofOperands]
    · split at h <;> cases h

theorem kind_of_record_error {f : Family}
    (h : (tables.record limit f i address).2 = .error (.rejected e)) :
    e.kind ∉ Error.Kind.ofOperands := by
  obtain ⟨label, rest, rfl, hargs⟩ | hnothing := record_cases limit i address f
  · obtain ⟨symbols, _ | r⟩ := tables
    · simp [Tables.record] at h
    · rw [record_jump hargs, SymbolTable.insert_snd] at h
      cases hfault : r.insertFault? limit label address with
      | none => rw [hfault] at h; cases h
      | some fault =>
        rw [hfault] at h
        cases fault with
        | outOfMemory => cases h
        | rejected e' =>
          obtain rfl := Fault.rejected.inj (Except.error.inj h)
          rw [Error.inInstruction_kind]
          exact kind_of_insertFault? hfault
  · rw [hnothing] at h
    cases h

/-! ## Encodings

So the cause of a rejection tells where it comes from, and a rejection with the cause of an operand
can be traced back to one, together with its text. -/

/-- **A rejection with the cause of an operand comes from an operand**, which it names. -/
theorem encode_error_of_operand
    (h : (i.encode limit address tables).2 = .error (.rejected e))
    (hkind : e.kind ∈ Error.Kind.ofOperands) :
    ∃ m, Mnemonic.ofName? i.mnemonic = some m ∧ ∃ oa ∈ m.family.operands.zip i.args,
      oa.1.value i.mnemonic tables.symbols address oa.2 = .error e := by
  cases hcheck : i.check tables with
  | error e' =>
    rw [encode_of_check_error hcheck] at h
    obtain rfl := Fault.rejected.inj (Except.error.inj h)
    exact absurd hkind (kind_of_check_error hcheck)
  | ok m =>
    refine ⟨m, (check_eq_ok_iff.mp hcheck).1, ?_⟩
    cases hvalues : i.fieldValues m tables.symbols address with
    | error e' =>
      rw [encode_of_fieldValues_error hcheck hvalues] at h
      obtain rfl := Fault.rejected.inj (Except.error.inj h)
      exact fieldValues_error hvalues
    | ok values =>
      rw [encode_of_fieldValues hcheck hvalues] at h
      cases hrecord : (tables.record limit m.family i address).2 with
      | ok u => rw [hrecord] at h; cases h
      | error fault =>
        rw [hrecord] at h
        obtain rfl := Except.error.inj h
        exact absurd hkind (kind_of_record_error hrecord)

/-- **What becomes of an instruction that takes no label.**  If it has the right form, it has a word
or is rejected for one of its operands, and the tables are left as they are. -/
theorem encode_of_labelless (hm : Mnemonic.ofName? i.mnemonic = some m)
    (hlabel : m.family ≠ .branch ∧ m.family ≠ .jump) (hlength : i.args.length = m.family.arity)
    (hempty : "" ∉ i.args) (limit : Int) (address : UInt32) (tables : Tables) :
    (i.encode limit address tables).1 = tables ∧
      ((∃ w, (i.encode limit address tables).2 = .ok w) ∨
        ∃ e, (i.encode limit address tables).2 = .error (.rejected e) ∧
          ∃ oa ∈ m.family.operands.zip i.args,
            oa.1.value i.mnemonic tables.symbols address oa.2 = .error e) := by
  have hmissing : tables.missing? m.family = none := by
    rw [Tables.missing?.eq_def]
    split
    · rename_i hbranch _
      exact absurd hbranch hlabel.1
    · rename_i hjump _
      exact absurd hjump hlabel.2
    · rfl
  have hcheck := check_eq_ok_iff.mpr ⟨hm, hmissing, hlength, hempty⟩
  cases hvalues : i.fieldValues m tables.symbols address with
  | error e =>
    rw [encode_of_fieldValues_error hcheck hvalues]
    exact ⟨rfl, .inr ⟨e, rfl, fieldValues_error hvalues⟩⟩
  | ok values =>
    obtain ⟨label, rest, hjump, -⟩ | hnothing := record_cases limit i address m.family
    · exact absurd hjump hlabel.2
    · rw [encode_of_fieldValues hcheck hvalues, hnothing]
      exact ⟨rfl, .inl ⟨_, rfl⟩⟩

end Instruction
end MipsAsm
