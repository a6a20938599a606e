import MipsAsm.Proofs.Encoding.Decoding

/-!
# Jumps and the tables

Encoding an instruction can change one thing only: a jump adds a record to the relocations, with its
label and its address, and it does so only if it has a word.  Every check stands before the record
is made, and a table that cannot be given more room is left as it was.  So nothing is left behind by
an instruction that has no word.

The order of the checks matters.  The record of a jump is made last, after the operands were read
and after everything else that can be rejected, and so it is never made in vain.  That the table
itself can refuse the record, because its address is no multiple of four or there is no room, is no
exception: it is left as it was and there is no word.

`Tables.encodeAll` runs any instructions at any addresses, and goes on after one that fails.  The
result is about its transcript, which has the outcome of each call beside the call, and is an
induction over the calls with one case for each of the two things that a call can do.

* `Instruction.encode_cases` — the two things that encoding an instruction can do to the tables.
* `Instruction.encode_jump` — what a jump that has a word holds.
* `Instruction.encode_relocations` — what encoding one instruction adds to the records.
* `Tables.encodeAll` — one instruction after the other with the same tables.
* `encoding_touches_tables_by_jumps_only` — what any number of them do to the tables.
-/

set_option autoImplicit false

namespace MipsAsm

/-! ## Jumps

Whether an instruction is a jump can be said of its mnemonic and of its word.  Both are needed,
since records are compared with the words of an assembly, and these have no mnemonics any more. -/

/-- The word of a jump. -/
def IsJumpWord (w : UInt32) : Prop := (JType.ofWord w).opcode = 2 ∨ (JType.ofWord w).opcode = 3

instance : DecidablePred IsJumpWord := fun _ ↦ inferInstanceAs (Decidable (_ ∨ _))

/-- The word of a mnemonic is that of a jump if the mnemonic is one. -/
theorem Mnemonic.isJumpWord_iff {m : Mnemonic} {xs : List Operand.Meaning} {w : UInt32}
    (h : m.family.Holds m.code xs w) : IsJumpWord w ↔ m.family = .jump := by
  have hcode := h.code
  have hcodes : m.family.codeField = Field.opcode →
      ((m.code = 2 ∨ m.code = 3) ↔ m.family = .jump) := by
    cases m <;> decide
  rw [IsJumpWord, JType.ofWord]
  rcases m.codeField_cases with ⟨hfield, -⟩ | ⟨hfield, hunused⟩
  · rw [hfield] at hcode
    rw [hcode]
    exact hcodes hfield
  · -- the field for operations is zero in the other format
    rw [h.unused hunused]
    constructor
    · rintro (hzero | hzero) <;> cases hzero
    · intro hjump
      rw [hjump] at hfield
      exact absurd hfield (by decide)

namespace Instruction

/-- Whether an instruction is a jump to a label. -/
def IsJump (i : Instruction) : Prop := i.mnemonic = "j" ∨ i.mnemonic = "jal"

instance : DecidablePred IsJump := fun _ ↦ inferInstanceAs (Decidable (_ ∨ _))

theorem isJump_iff {i : Instruction} {m : Mnemonic} (hm : Mnemonic.ofName? i.mnemonic = some m) :
    i.IsJump ↔ m.family = .jump := by
  have hfamily : (m.name = "j" ∨ m.name = "jal") ↔ m.family = .jump := by
    cases m <;> decide
  rw [IsJump, ← Mnemonic.name_eq_of_ofName?_eq_some hm]
  exact hfamily

variable {limit : Int} {i : Instruction} {address w : UInt32} {tables tables' : Tables}

/-- The operand of a jump that has a value is the name of a label. -/
theorem isValid_of_fieldValues {m : Mnemonic} {label : String} {values : List (Field × UInt32)}
    {symbols : Option SymbolTable} (hjump : m.family = .jump) (hargs : i.args = [label])
    (h : i.fieldValues m symbols address = .ok values) : Label.isValid label = true := by
  have hpairs : m.family.pairOperands i.args = [(.jumpTarget, label)] := by
    rw [hjump, hargs]
    rfl
  rw [fieldValues, hpairs, List.mapM_cons] at h
  cases hvalid : Label.isValid label with
  | true => rfl
  | false =>
    simp only [Operand.value, hvalid] at h
    cases h

/-- **What a jump that has a word holds:** the name of a label, and no target yet. -/
theorem encode_jump (hjump : i.IsJump) (h : i.encode limit address tables = (tables', .ok w)) :
    ∃ label, i.args = [label] ∧ Label.isValid label = true ∧ (JType.ofWord w).target = 0 := by
  obtain ⟨m, xs, hcheck, -, hadmits, hw, -⟩ := encode_eq_ok h
  obtain ⟨hm, -, hlength, -⟩ := check_eq_ok_iff.mp hcheck
  have hfamily := (isJump_iff hm).mp hjump
  have hholds := Family.holds_fields m.cut_code hadmits.length_eq.symm
  rw [← hw, hfamily] at hholds
  rw [hfamily] at hlength hadmits
  obtain ⟨label, hargs⟩ := List.length_eq_one_iff.mp hlength
  refine ⟨label, hargs, ?_, ?_⟩
  · rw [encode, hcheck] at h
    cases hvalues : i.fieldValues m tables.symbols address with
    | error e =>
      simp only [hvalues] at h
      cases h
    | ok values => exact isValid_of_fieldValues hfamily hargs hvalues
  · obtain _ | ⟨hlabel, _ | _⟩ := hadmits
    obtain rfl := Operand.admits_jumpTarget hlabel
    exact hholds.target (.head _)

/-- The word of an instruction is that of a jump if the instruction is one. -/
theorem isJumpWord_iff (h : i.encode limit address tables = (tables', .ok w)) :
    IsJumpWord w ↔ i.IsJump := by
  obtain ⟨m, xs, hcheck, -, hadmits, hw, -⟩ := encode_eq_ok h
  obtain ⟨hm, -⟩ := check_eq_ok_iff.mp hcheck
  have hholds := Family.holds_fields m.cut_code hadmits.length_eq.symm
  rw [← hw] at hholds
  rw [isJump_iff hm, Mnemonic.isJumpWord_iff hholds]

/-! ## Records

The one inversion on which the rest depends: encoding leaves the tables as they are, or it is the
insertion of a jump, which has a word then.  That there is no third case is what keeps a record from
being left behind by an instruction that was rejected. -/

/-- **What encoding an instruction can do to the tables:** nothing, or insert the label of a jump
into the relocations, which then has a word. -/
theorem encode_cases (limit : Int) (i : Instruction) (address : UInt32) (tables : Tables) :
    (i.encode limit address tables).1 = tables ∧
        ¬(i.IsJump ∧ ∃ w, (i.encode limit address tables).2 = .ok w) ∨
      ∃ label r r' w, i.IsJump ∧ i.args = [label] ∧ tables.relocations = some r ∧
        r.insert limit label address = (r', .ok ()) ∧
        i.encode limit address tables = ({ tables with relocations := some r' }, .ok w) := by
  cases hcheck : i.check tables with
  | error e => exact .inl (by simp [encode_of_check_error hcheck])
  | ok m =>
    obtain ⟨hm, hmissing, hlength, -⟩ := check_eq_ok_iff.mp hcheck
    cases hvalues : i.fieldValues m tables.symbols address with
    | error e => exact .inl (by simp [encode_of_fieldValues_error hcheck hvalues])
    | ok values =>
      rw [encode_of_fieldValues hcheck hvalues]
      by_cases hjump : m.family = .jump
      · rw [hjump] at hmissing hlength ⊢
        obtain ⟨label, hargs⟩ := List.length_eq_one_iff.mp hlength
        obtain ⟨symbols, _ | r⟩ := tables
        · cases hmissing
        · -- the insertion is the last thing that can fail
          rw [record_jump hargs]
          obtain ⟨fault, -, hfault, hsame⟩ | ⟨-, hok, -⟩ :=
            SymbolTable.insert_cases (Prod.eta (r.insert limit label address)).symm
          · refine .inl ⟨by rw [hsame], ?_⟩
            rw [hfault]
            rintro ⟨-, w, hw⟩
            cases hw
          · refine .inr ⟨label, r, _, compose values, (isJump_iff hm).mpr hjump, hargs, rfl,
              Prod.ext rfl hok, ?_⟩
            rw [hok]
            rfl
      · have hnothing := (record_cases limit i address m.family).resolve_left (by
          rintro ⟨label, rest, hfamily, -⟩
          exact hjump hfamily)
        rw [hnothing]
        exact .inl ⟨rfl, fun h ↦ hjump ((isJump_iff hm).mp h.1)⟩

/-- Only a jump can find no room. -/
theorem isJump_of_outOfMemory (h : (i.encode limit address tables).2 = .error .outOfMemory) :
    i.IsJump := by
  cases hcheck : i.check tables with
  | error e =>
    rw [encode_of_check_error hcheck] at h
    cases h
  | ok m =>
    obtain ⟨hm, -⟩ := check_eq_ok_iff.mp hcheck
    cases hvalues : i.fieldValues m tables.symbols address with
    | error e =>
      rw [encode_of_fieldValues_error hcheck hvalues] at h
      cases h
    | ok values =>
      obtain ⟨label, rest, hjump, -⟩ | hnothing := record_cases limit i address m.family
      · exact (isJump_iff hm).mpr hjump
      · rw [encode_of_fieldValues hcheck hvalues, hnothing] at h
        cases h

/-- The record of an instruction that has a word. -/
def record? (i : Instruction) (address : UInt32) : Option Symbol :=
  if i.IsJump then i.args.head?.map fun label ↦ { name := label, address } else none

theorem record?_of_not_isJump (h : ¬i.IsJump) (address : UInt32) : i.record? address = none :=
  if_neg h

theorem record?_of_isJump {label : String} (h : i.IsJump) (hargs : i.args = [label])
    (address : UInt32) : i.record? address = some { name := label, address } := by
  rw [record?, if_pos h, hargs, List.head?_cons, Option.map_some]

/-- **What encoding one instruction adds to the records:** its own record, if it has a word. -/
theorem encode_relocations {symbols : Option SymbolTable} {r : SymbolTable}
    {outcome : Except Fault UInt32}
    (h : i.encode limit address { symbols, relocations := some r } = (tables', outcome)) :
    ∃ r' : SymbolTable, tables'.relocations = some r' ∧
      r'.entries.toList = r.entries.toList ++
        (outcome.toOption.bind fun _ ↦ i.record? address).toList := by
  obtain ⟨hsame, hnone⟩ | ⟨label, r₁, r', w, hjump, hargs, hr, hinsert, hencode⟩ :=
    encode_cases limit i address { symbols, relocations := some r }
  · rw [h] at hsame hnone
    refine ⟨r, congrArg Tables.relocations hsame, ?_⟩
    cases outcome with
    | error fault => exact (List.append_nil _).symm
    | ok w =>
      have hrecord := record?_of_not_isJump (fun hjump ↦ hnone ⟨hjump, w, rfl⟩) address
      simp [Except.toOption, hrecord]
  · obtain rfl := Option.some.inj hr
    obtain ⟨rfl, rfl⟩ := Prod.mk.inj (h.symm.trans hencode)
    obtain ⟨fault, -, hfault, -⟩ | ⟨-, -, -, hentries, -⟩ := SymbolTable.insert_cases hinsert
    · cases hfault
    · refine ⟨r', rfl, ?_⟩
      simp [hentries, Except.toOption, record?_of_isJump hjump hargs]

/-- Encoding an instruction leaves the labels as they are. -/
theorem encode_symbols (limit : Int) (i : Instruction) (address : UInt32) (tables : Tables) :
    (i.encode limit address tables).1.symbols = tables.symbols := by
  obtain ⟨hsame, -⟩ | ⟨label, r, r', w, -, -, -, -, hencode⟩ := encode_cases limit i address tables
  · rw [hsame]
  · rw [hencode]

end Instruction

/-! ## One instruction after the other

`Tables.encodeAll` is any number of calls with the same tables, whatever becomes of each.  Its
transcript has the outcomes, so that a statement about all calls is a statement about the entries of
the transcript, by induction on the calls with one step for each. -/

/-- An instruction to be encoded: the address at which it stands, and the most room that a table may
have at that time. -/
structure Instruction.Call where
  /-- The instruction. -/
  instruction : Instruction
  /-- Its address. -/
  address : UInt32
  /-- The most room a table may have. -/
  limit : Int
deriving DecidableEq

namespace Tables

open Instruction (Call)

/-- The tables after an instruction was encoded, and its word. -/
def encode (tables : Tables) (call : Call) : Tables × Except Fault UInt32 :=
  call.instruction.encode call.limit call.address tables

/-- Encode one instruction after the other with the same tables, whatever becomes of each.  The
tables come with a transcript: the calls, each with its outcome. -/
def encodeAll (tables : Tables) : List Call → Tables × List (Call × Except Fault UInt32)
  | [] => (tables, [])
  | call :: calls =>
    let next := (tables.encode call).1.encodeAll calls
    (next.1, (call, (tables.encode call).2) :: next.2)

/-- An entry of a transcript that tells of a jump with a word. -/
def IsJumpDone (entry : Call × Except Fault UInt32) : Prop :=
  entry.1.instruction.IsJump ∧ ∃ w, entry.2 = .ok w

instance : DecidablePred IsJumpDone := fun entry ↦
  decidable_of_iff (entry.1.instruction.IsJump ∧ entry.2.isOk = true) (by
    rw [IsJumpDone]
    cases entry.2 <;> simp [Except.isOk, Except.toBool])

variable {tables : Tables}

theorem encodeAll_calls (tables : Tables) (calls : List Call) :
    (tables.encodeAll calls).2.map Prod.fst = calls := by
  induction calls generalizing tables with
  | nil => rfl
  | cons call calls ih => rw [encodeAll, List.map_cons, ih]

/-- **One step:** a call that is no jump with a word leaves the tables as they are. -/
theorem encode_fst_of_not_isJumpDone {call : Call}
    (h : ¬IsJumpDone (call, (tables.encode call).2)) : (tables.encode call).1 = tables := by
  obtain ⟨hsame, -⟩ | ⟨label, r, r', w, hjump, -, -, -, hencode⟩ :=
    call.instruction.encode_cases call.limit call.address tables
  · exact hsame
  · exact absurd ⟨hjump, w, congrArg Prod.snd hencode⟩ h

theorem encodeAll_symbols (tables : Tables) (calls : List Call) :
    (tables.encodeAll calls).1.symbols = tables.symbols := by
  induction calls generalizing tables with
  | nil => rfl
  | cons call calls ih => rw [encodeAll, ih, encode, Instruction.encode_symbols]

/-- The tables after one call more. -/
theorem encodeAll_take_succ {calls : List Call} {n : Nat} {call : Call}
    (h : calls[n]? = some call) (tables : Tables) :
    (tables.encodeAll (calls.take (n + 1))).1 =
      ((tables.encodeAll (calls.take n)).1.encode call).1 := by
  induction calls generalizing tables n with
  | nil => cases h
  | cons first calls ih =>
    cases n with
    | zero =>
      obtain rfl := Option.some.inj h
      rfl
    | succ n => exact ih h _

/-- The outcome of a call is what it comes to with the tables after the calls before it. -/
theorem getElem?_encodeAll (tables : Tables) (calls : List Call) (n : Nat) :
    (tables.encodeAll calls).2[n]? = calls[n]?.map fun call ↦
      (call, ((tables.encodeAll (calls.take n)).1.encode call).2) := by
  induction calls generalizing tables n with
  | nil => rfl
  | cons first calls ih =>
    cases n with
    | zero => rfl
    | succ n => exact ih _ n

/-- **Any number of steps:** the relocations have one record more for each jump with a word, and
they stay in a state that a table can be in. -/
theorem encodeAll_relocations (symbols : Option SymbolTable) (r : SymbolTable)
    (calls : List Call) :
    ∃ r' added,
      (encodeAll { symbols, relocations := some r } calls).1.relocations = some r' ∧
      (r.Reachable → r'.Reachable) ∧
      r'.entries.toList = r.entries.toList ++ added ∧
      List.Forall₂ (fun entry symbol ↦
          entry.1.instruction.args = [symbol.name] ∧ entry.1.address = symbol.address)
        ((encodeAll { symbols, relocations := some r } calls).2.filter IsJumpDone) added := by
  induction calls generalizing r with
  | nil => exact ⟨r, [], rfl, id, (List.append_nil _).symm, .nil⟩
  | cons call calls ih =>
    rw [encodeAll]
    obtain ⟨hsame, hnone⟩ | ⟨label, r₁, r₂, w, hjump, hargs, hr, hinsert, hencode⟩ :=
      call.instruction.encode_cases call.limit call.address { symbols, relocations := some r }
    · have hnext : (encode { symbols, relocations := some r } call).1 = _ := hsame
      have hskip : ¬IsJumpDone (call, (encode { symbols, relocations := some r } call).2) := hnone
      rw [hnext, List.filter_cons_of_neg (by simpa using hskip)]
      exact ih r
    · obtain rfl := Option.some.inj hr
      have hnext : encode { symbols, relocations := some r } call = _ := hencode
      obtain ⟨r', added, hr', hreachable, hentries, hmatch⟩ := ih r₂
      have hdone : IsJumpDone (call, .ok w) := ⟨hjump, w, rfl⟩
      simp only [hnext, List.filter_cons, hdone, decide_true, if_true]
      refine ⟨r', ⟨label, call.address⟩ :: added, hr', fun h ↦ hreachable ?_, ?_,
        .cons ⟨hargs, rfl⟩ hmatch⟩
      · have hinserted := h.insert call.limit label call.address
        rwa [hinsert] at hinserted
      · obtain ⟨fault, -, hfault, -⟩ | ⟨-, -, -, hadded, -⟩ := SymbolTable.insert_cases hinsert
        · cases hfault
        · simp [hentries, hadded]

end Tables

/-- **Encoding touches the tables by jumps only.**  Say any instructions are encoded one after the
other with a table of labels and a table of relocations, whatever becomes of each.  The table of
labels stays as it is.  The relocations at the end are those of the start and then one record for
each jump that has a word, in order, with its one operand and its address.  Every other call,
whether it has a word, is rejected or finds no more room, leaves both tables exactly as they were
before it, so that a table in a state that it can be in is left in such a state. -/
theorem encoding_touches_tables_by_jumps_only (symbols relocations : SymbolTable)
    (calls : List Instruction.Call) :
    let start : Tables := { symbols := some symbols, relocations := some relocations }
    let run := start.encodeAll calls
    run.2.map Prod.fst = calls ∧
    run.1.symbols = some symbols ∧
    (∃ r added, run.1.relocations = some r ∧ (relocations.Reachable → r.Reachable) ∧
      r.entries.toList = relocations.entries.toList ++ added ∧
      List.Forall₂ (fun entry symbol ↦
          entry.1.instruction.args = [symbol.name] ∧ entry.1.address = symbol.address)
        (run.2.filter Tables.IsJumpDone) added) ∧
    ∀ n entry, run.2[n]? = some entry → ¬Tables.IsJumpDone entry →
      (start.encodeAll (calls.take (n + 1))).1 = (start.encodeAll (calls.take n)).1 := by
  intro start run
  refine ⟨start.encodeAll_calls calls, start.encodeAll_symbols calls,
    Tables.encodeAll_relocations _ relocations calls, fun n entry hentry hskip ↦ ?_⟩
  have houtcome := (start.getElem?_encodeAll calls n).symm.trans hentry
  obtain ⟨call, hcall, rfl⟩ := Option.map_eq_some_iff.mp houtcome
  rw [Tables.encodeAll_take_succ hcall, Tables.encode_fst_of_not_isJumpDone hskip]

/-- Two jumps that have words, and between them a label that is none, a branch, an address that is
no multiple of four and a jump for whose record there is no room yet. -/
theorem encoding_touches_tables_by_jumps_only_without_room :
    let symbols := ((SymbolTable.empty .unique).insert 5 "x" 8).1
    let relocations := ["a", "b", "a", "c"].foldl (fun t name ↦ (SymbolTable.insert 5 t name 0).1)
      (.empty .repeatable)
    let calls : List Instruction.Call :=
      [⟨⟨"jal", ["x"]⟩, 4, 5⟩, ⟨⟨"j", ["1x"]⟩, 8, 5⟩, ⟨⟨"beq", ["$0", "$0", "x"]⟩, 8, 5⟩,
        ⟨⟨"j", ["x"]⟩, 10, 5⟩, ⟨⟨"j", ["x"]⟩, 12, 9⟩, ⟨⟨"j", ["y"]⟩, 12, 10⟩]
    let run := Tables.encodeAll { symbols := some symbols, relocations := some relocations } calls
    run.2.map (fun entry ↦ entry.2.toOption) =
        [some 0x0c000000, none, some 0x1000ffff, none, none, some 0x08000000] ∧
      run.1.symbols = some symbols ∧
      (∃ r, run.1.relocations = some r ∧
        r.entries.toList = relocations.entries.toList ++ [⟨"x", 4⟩, ⟨"y", 12⟩]) ∧
      run.2[4]? = some (⟨⟨"j", ["x"]⟩, 12, 9⟩, .error .outOfMemory) ∧
      (Tables.encodeAll { symbols := some symbols, relocations := some relocations }
          (calls.take 5)).1 =
        (Tables.encodeAll { symbols := some symbols, relocations := some relocations }
          (calls.take 4)).1 := by
  intro symbols relocations calls run
  have houtcomes : run.2.map (fun entry ↦ entry.2.toOption) =
      [some 0x0c000000, none, some 0x1000ffff, none, none, some 0x08000000] := by
    decide
  have hdone : run.2.filter Tables.IsJumpDone =
      [(⟨⟨"jal", ["x"]⟩, 4, 5⟩, .ok 0x0c000000), (⟨⟨"j", ["y"]⟩, 12, 10⟩, .ok 0x08000000)] := by
    decide
  have hfull : run.2[4]? = some (⟨⟨"j", ["x"]⟩, 12, 9⟩, .error .outOfMemory) := by decide
  obtain ⟨-, hsymbols, ⟨r, added, hr, -, hentries, hmatch⟩, hsame⟩ :=
    encoding_touches_tables_by_jumps_only symbols relocations calls
  have hmatch : List.Forall₂ _ (run.2.filter Tables.IsJumpDone) added := hmatch
  rw [hdone] at hmatch
  obtain _ | ⟨hx, _ | ⟨hy, _ | _⟩⟩ := hmatch
  simp only [List.cons.injEq, and_true] at hx hy
  refine ⟨houtcomes, hsymbols, ⟨r, hr, ?_⟩, hfull, hsame 4 _ hfull (by decide)⟩
  rw [hentries, hx.1, hx.2, hy.1, hy.2]

end MipsAsm
