import MipsAsm.Proofs.Assembly.Diagnostics
import MipsAsm.Proofs.Encoding.Operands
import MipsAsm.Proofs.Literal

/-!
# What pseudo-instructions may be rejected for

A pseudo-instruction is replaced before any of its operands is looked at, and what replaces it is
written out and read back before it is encoded.  Nevertheless the encoder never finds anything wrong
with its form: all that can be wrong is one of the operands given.

This is about an interface.  The author of a pseudo-instruction has never seen the instructions that
it stands for, so a message about their form would be of no use; and the code that expands it checks
little, as it counts on the encoder for the operands.  What the two leave to each other has to fit
together.

`Pseudo.Provides` is the list of what an operand can be after the replacement.  For each of the
three cases it is clear what the encoder can find wrong: nothing, that it is no register, or that a
literal that was good enough for `li` is too large for `addiu`.  The rest is bookkeeping over the
pseudo-instructions, of which each is looked at once, in `Pseudo.emits_of_expand`.

* `Pseudo.Provides` — where an operand of such an instruction comes from: it is always accepted, it
  is one of the operands given and stands for a register, or it is the literal of `li`.
* `Pseudo.emits_of_expand` — all instructions that a pseudo-instruction stands for, as they are read
  back, are known to the encoder, take no label, and have operands of that kind.
* `Pseudo.MayRaise` — the rejections that are left.
* `expansion_is_closed` — the result.
-/

set_option autoImplicit false

namespace MipsAsm

/-! ## Operands that are always accepted

What a pseudo-instruction brings along of its own is registers and numbers.  They are accepted for a
reason that has nothing to do with the operands given. -/

/-- The encoder takes the text for the operand, whatever the instruction, its address and the
labels are. -/
def Operand.Accepts (o : Operand) (arg : String) : Prop :=
  ∀ mnemonic symbols address, ∃ v, o.value mnemonic symbols address arg = .ok v

theorem Operand.accepts_register {name : String} (h : (Register.ofName? name).isSome = true)
    (field : Field) : (Operand.register field).Accepts name := by
  intro mnemonic symbols address
  obtain ⟨r, hr⟩ := Option.isSome_iff_exists.mp h
  exact ⟨r.toWord, by rw [value, Register.parse, hr]⟩

theorem Operand.accepts_number {s : String} {lower upper v : Int}
    (h : Literal.parse s lower upper = .ok v) (field : Field) :
    (Operand.number field lower upper).Accepts s :=
  fun _ _ _ ↦ ⟨UInt32.ofInt v, by rw [value, h]⟩

namespace Pseudo

/-! ## Where operands come from

One definition, `Pseudo.Emits`, says of all instructions that any pseudo-instruction stands for
where their operands come from.  It is proved case by case, and is all that is used of the
expansions afterwards.  What counts is the instruction as it is read back from the listing, since an
operand with parentheses becomes two. -/

/-- Where an operand of an instruction that a pseudo-instruction stands for comes from. -/
inductive Provides (p : Pseudo) (args : List String) (mnemonic : String) :
    Operand × String → Prop
  /-- It is accepted in any case. -/
  | fixed {oa : Operand × String} (accepts : oa.1.Accepts oa.2) : Provides p args mnemonic oa
  /-- It is given, and stands for a register. -/
  | register {field : Field} {arg : String} (given : arg ∈ args) :
      Provides p args mnemonic (.register field, arg)
  /-- It is the literal of a constant that is left to `addiu`. -/
  | literal {arg : String} {v : Int} (pseudo : p = .li) (addiu : mnemonic = "addiu")
      (given : args[1]? = some arg) (value : Literal.parse arg (-2147483648) 4294967295 = .ok v)
      (small : v < 65536) : Provides p args mnemonic (.signedImmediate, arg)

/-- What a pseudo-instruction may stand for: a known instruction of the right form that takes no
label. -/
structure Emits (p : Pseudo) (args : List String) (i : Instruction) (m : Mnemonic) : Prop where
  /-- The encoder knows the mnemonic. -/
  known : Mnemonic.ofName? i.mnemonic = some m
  /-- No operand is a label. -/
  labelless : m.family ≠ .branch ∧ m.family ≠ .jump
  /-- There are as many operands as there should be. -/
  arity : i.args.length = m.family.arity
  /-- The operands come from the pseudo-instruction. -/
  operands : ∀ oa ∈ m.family.operands.zip i.args, p.Provides args i.mnemonic oa

theorem Emits.of_name {p : Pseudo} {args args' : List String} (m : Mnemonic)
    (labelless : m.family ≠ .branch ∧ m.family ≠ .jump) (arity : args'.length = m.family.arity)
    (operands : ∀ oa ∈ m.family.operands.zip args', p.Provides args m.name oa) :
    ∃ m', p.Emits args ⟨m.name, args'⟩ m' :=
  ⟨m, m.ofName?_name, labelless, arity, operands⟩

theorem provides_register (p : Pseudo) (args : List String) (mnemonic : String) (field : Field) :
    ∀ name ∈ ["$sp", "$at", "$0"], p.Provides args mnemonic (.register field, name) := by
  have hnames : ∀ name ∈ ["$sp", "$at", "$0"], (Register.ofName? name).isSome = true := by decide
  exact fun name hname ↦ .fixed (Operand.accepts_register (hnames name hname) field)

theorem provides_number (p : Pseudo) (args : List String) (mnemonic : String) :
    ∀ s ∈ ["-4", "0", "4", "-1", "1"], p.Provides args mnemonic (.signedImmediate, s) := by
  have hnumbers : ∀ s ∈ ["-4", "0", "4", "-1", "1"],
      (Literal.parse s (-32768) 32767).toOption.isSome = true := by
    decide
  intro s hs
  obtain ⟨v, hv⟩ := Option.isSome_iff_exists.mp (hnumbers s hs)
  exact .fixed (Operand.accepts_number (eq_ok_of_toOption_eq_some hv) Field.imm)

theorem provides_decimal (p : Pseudo) (args : List String) (mnemonic : String) {n : Nat}
    (hn : n ≤ 65535) :
    p.Provides args mnemonic (.unsignedImmediate, Text.decimal n) :=
  .fixed (Operand.accepts_number (Literal.parse_decimal hn) Field.imm)

/-- The instructions that load a constant. -/
theorem emits_of_loadConstant {rd literal : String} {v : Int}
    (hvalue : Literal.parse literal (-2147483648) 4294967295 = .ok v) :
    ∀ i ∈ loadConstant rd literal v, ∃ m, li.Emits [rd, literal] i m := by
  have hregister := li.provides_register [rd, literal]
  simp only [List.forall_mem_cons] at hregister
  have hgiven : ∀ mnemonic field, li.Provides [rd, literal] mnemonic (.register field, rd) :=
    fun _ _ ↦ .register List.mem_cons_self
  obtain ⟨-, hupper⟩ := Literal.parse_bounds hvalue
  rw [loadConstant]
  split
  · rename_i hsmall
    have hliteral : li.Provides [rd, literal] "addiu" (.signedImmediate, literal) :=
      .literal rfl rfl rfl hvalue hsmall
    simp only [List.forall_mem_cons]
    refine ⟨Emits.of_name .addiu (by decide) rfl ?_, by simp⟩
    simp [Mnemonic.family, Mnemonic.name, Family.operands, hregister, hgiven, hliteral]
  · have hhigh : ∀ mnemonic, li.Provides [rd, literal] mnemonic
        (.unsignedImmediate, Text.decimal (v.toNat / 65536)) :=
      fun mnemonic ↦ li.provides_decimal _ mnemonic (by omega)
    have hlow : ∀ mnemonic, li.Provides [rd, literal] mnemonic
        (.unsignedImmediate, Text.decimal (v.toNat % 65536)) :=
      fun mnemonic ↦ li.provides_decimal _ mnemonic (by omega)
    simp only [List.forall_mem_cons]
    refine ⟨Emits.of_name .lui (by decide) rfl ?_, Emits.of_name .ori (by decide) rfl ?_, by simp⟩
    · simp [Mnemonic.family, Family.operands, hregister, hhigh]
    · simp [Mnemonic.family, Family.operands, hregister, hgiven, hlow]

/-- **What a pseudo-instruction stands for**, as it is read back from the listing. -/
theorem emits_of_expand {p : Pseudo} {args : List String} {is : List Instruction}
    (hargs : ∀ w ∈ args, Line.IsToken w) (h : p.expand args = .ok is) :
    ∀ i ∈ is, ∃ m, p.Emits args i.reread m := by
  have hregister := p.provides_register args
  have hnumber := p.provides_number args
  have hgiven : ∀ mnemonic field, ∀ arg ∈ args,
      p.Provides args mnemonic (.register field, arg) :=
    fun _ _ _ harg ↦ .register harg
  have hne : ∀ w ∈ args, w ≠ stackTop := by
    rintro w hw rfl
    exact not_isToken_stackTop (hargs _ hw)
  have htop : stackTop = "0($sp)" := rfl
  simp only [List.forall_mem_cons] at hregister hnumber
  -- all but the operands given is fixed, so in each case the instructions can be written out
  suffices hlisted : ∀ j ∈ is.map Instruction.reread, ∃ m, p.Emits args j m from
    fun i hi ↦ hlisted _ (List.mem_map_of_mem hi)
  rw [expand.eq_def] at h
  split at h
  case h_1 rd literal =>
    split at h
    · cases h
    · rename_i v hvalue
      obtain rfl := Except.ok.inj h
      simp only [List.forall_mem_cons] at hargs
      have htokenized := Instruction.tokenized_loadConstant hargs.1 hargs.2.1 v
      rw [List.map_congr_left fun i hi ↦ (htokenized i hi).reread_eq, List.map_id']
      exact emits_of_loadConstant hvalue
  case h_2 r =>
    obtain rfl := Except.ok.inj h
    simp only [List.forall_mem_cons, htop] at hne hgiven
    have hlisted : List.map Instruction.reread
        [⟨"addiu", ["$sp", "$sp", "-4"]⟩, ⟨"sw", [r, "0($sp)"]⟩] =
        [⟨"addiu", ["$sp", "$sp", "-4"]⟩, ⟨"sw", [r, "0", "$sp"]⟩] := by
      simp [Instruction.reread, stackTop, hne]
    rw [hlisted]
    simp only [List.forall_mem_cons]
    refine ⟨Emits.of_name .addiu (by decide) rfl ?_, Emits.of_name .sw (by decide) rfl ?_, by simp⟩
    all_goals simp [Mnemonic.family, Family.operands, hregister, hnumber, hgiven]
  case h_3 r =>
    obtain rfl := Except.ok.inj h
    simp only [List.forall_mem_cons, htop] at hne hgiven
    have hlisted : List.map Instruction.reread
        [⟨"lw", [r, "0($sp)"]⟩, ⟨"addiu", ["$sp", "$sp", "4"]⟩] =
        [⟨"lw", [r, "0", "$sp"]⟩, ⟨"addiu", ["$sp", "$sp", "4"]⟩] := by
      simp [Instruction.reread, stackTop, hne]
    rw [hlisted]
    simp only [List.forall_mem_cons]
    refine ⟨Emits.of_name .lw (by decide) rfl ?_, Emits.of_name .addiu (by decide) rfl ?_, by simp⟩
    all_goals simp [Mnemonic.family, Family.operands, hregister, hnumber, hgiven]
  case h_4 rd rs rt =>
    obtain rfl := Except.ok.inj h
    simp only [List.forall_mem_cons, htop] at hne hgiven
    have hlisted : List.map Instruction.reread [⟨"div", [rs, rt]⟩, ⟨"mfhi", [rd]⟩] =
        [⟨"div", [rs, rt]⟩, ⟨"mfhi", [rd]⟩] := by
      simp [Instruction.reread, stackTop, hne]
    rw [hlisted]
    simp only [List.forall_mem_cons]
    refine ⟨Emits.of_name .div (by decide) rfl ?_, Emits.of_name .mfhi (by decide) rfl ?_, by simp⟩
    all_goals simp [Mnemonic.family, Family.operands, hgiven]
  case h_5 rd rs rt =>
    obtain rfl := Except.ok.inj h
    simp only [List.forall_mem_cons, htop] at hne hgiven
    have hlisted : List.map Instruction.reread
        [⟨"addiu", ["$at", "$0", "-1"]⟩, ⟨"xor", ["$at", "$at", rt]⟩,
          ⟨"addiu", ["$at", "$at", "1"]⟩, ⟨"addu", [rd, rs, "$at"]⟩] =
        [⟨"addiu", ["$at", "$0", "-1"]⟩, ⟨"xor", ["$at", "$at", rt]⟩,
          ⟨"addiu", ["$at", "$at", "1"]⟩, ⟨"addu", [rd, rs, "$at"]⟩] := by
      simp [Instruction.reread, stackTop, hne]
    rw [hlisted]
    simp only [List.forall_mem_cons]
    refine ⟨Emits.of_name .addiu (by decide) rfl ?_, Emits.of_name .xor (by decide) rfl ?_,
      Emits.of_name .addiu (by decide) rfl ?_, Emits.of_name .addu (by decide) rfl ?_, by simp⟩
    all_goals simp [Mnemonic.family, Family.operands, hregister, hnumber, hgiven]
  case h_6 => cases h

/-! ## Rejections

An operand that is always accepted is rejected for nothing, one that was given and stands for a
register is rejected only for being none, and the literal of `li` only for its range.  The last does
happen: there are constants that are left to `addiu` and that `addiu` does not take. -/

/-- What an instruction that a pseudo-instruction stands for may be rejected for. -/
inductive MayRaise (p : Pseudo) (args : List String) (i : Instruction) (e : Error) : Prop
  /-- One of the operands given is no register. -/
  | register (kind : e.kind = .invalidRegister) (operand : e.construct ∈ args)
  /-- The literal of `li` is a constant that is left to `addiu`, which does not take it. -/
  | literal {v : Int} (pseudo : p = .li) (addiu : i.mnemonic = "addiu")
      (kind : e.kind = .numberOutOfRange) (operand : args[1]? = some e.construct)
      (value : Literal.Denotes e.construct v)
      (gap : -2147483648 ≤ v ∧ v ≤ -32769 ∨ 32768 ≤ v ∧ v ≤ 65535)

/-- **An operand that a pseudo-instruction provides** is rejected for nothing else. -/
theorem Provides.mayRaise {p : Pseudo} {args : List String} {i : Instruction}
    {oa : Operand × String} (h : p.Provides args i.mnemonic oa) {symbols : Option SymbolTable}
    {address : UInt32} {e : Error}
    (he : oa.1.value i.mnemonic symbols address oa.2 = .error e) : p.MayRaise args i e := by
  obtain ⟨hconstruct, hkind⟩ := Operand.value_error he
  cases h with
  | fixed accepts =>
    obtain ⟨v, hv⟩ := accepts i.mnemonic symbols address
    rw [hv] at he
    cases he
  | register given => exact .register (List.mem_singleton.mp hkind) (hconstruct ▸ given)
  | @literal arg v pseudo addiu given value small =>
    obtain ⟨hdenotes, hlower, -⟩ := (Literal.parse_eq_ok_iff (by decide) (by decide)).mp value
    have hagain := Literal.parse_of_parse value (-32768) 32767
    rw [Operand.signedImmediate, Operand.value, hagain] at he
    by_cases hrange : -32768 ≤ v ∧ v ≤ 32767
    · rw [if_pos hrange] at he
      cases he
    · rw [if_neg hrange] at he
      obtain rfl := Except.error.inj he
      rw [Error.inInstruction_construct] at hconstruct
      refine .literal pseudo addiu ?_ ?_ (v := v) ?_ (by omega)
      · rw [Error.inInstruction_kind]
      · rw [Error.inInstruction_construct, given]
      · rwa [Error.inInstruction_construct]

/-- No instruction with a word of its own is a pseudo-instruction. -/
theorem ofName?_eq_none {name : String} {m : Mnemonic} (h : Mnemonic.ofName? name = some m) :
    ofName? name = none := by
  have hnames : ofName? m.name = none := by cases m <;> decide
  rwa [Mnemonic.name_eq_of_ofName?_eq_some h] at hnames

/-- **What becomes of an instruction that a pseudo-instruction stands for.** -/
theorem Emits.encode {p : Pseudo} {args : List String} {i : Instruction} {m : Mnemonic}
    (h : p.Emits args i m) (hempty : "" ∉ i.args) (limit : Int) (address : UInt32)
    (tables : Tables) :
    (i.encode limit address tables).1 = tables ∧
      ((∃ w, (i.encode limit address tables).2 = .ok w) ∨
        ∃ e, (i.encode limit address tables).2 = .error (.rejected e) ∧ p.MayRaise args i e) := by
  obtain ⟨htables, hword | ⟨e, he, oa, hoa, hvalue⟩⟩ :=
    Instruction.encode_of_labelless h.known h.labelless h.arity hempty limit address tables
  · exact ⟨htables, .inl hword⟩
  · exact ⟨htables, .inr ⟨e, he, (h.operands oa hoa).mayRaise hvalue⟩⟩

theorem Emits.mayRaise {p : Pseudo} {args : List String} {i : Instruction} {m : Mnemonic}
    (h : p.Emits args i m) (hempty : "" ∉ i.args) {limit : Int} {address : UInt32}
    {tables : Tables} {e : Error}
    (he : (i.encode limit address tables).2 = .error (.rejected e)) : p.MayRaise args i e := by
  obtain ⟨-, ⟨w, hw⟩ | ⟨e', he', hraises⟩⟩ := h.encode hempty limit address tables
  · rw [hw] at he
    cases he
  · rw [he'] at he
    obtain rfl := Fault.rejected.inj (Except.error.inj he)
    exact hraises

end Pseudo

/-- An instruction with a word of its own is no directive, and it stands for itself. -/
theorem Instruction.expand_of_ofName? {i : Instruction} {m : Mnemonic}
    (hm : Mnemonic.ofName? i.mnemonic = some m) (hempty : "" ∉ i.args) :
    Scan.isDirective i.mnemonic = false ∧ i.expand = .ok [i] := by
  have hname : Scan.isDirective m.name = false ∧ m.name ≠ "" := by cases m <;> decide
  rw [Mnemonic.name_eq_of_ofName?_eq_some hm] at hname
  refine ⟨hname.1, ?_⟩
  rw [expand, if_neg (not_or_intro hname.2 hempty), Pseudo.ofName?_eq_none hm]

/-- An instruction that can be expanded is a pseudo-instruction that stands for others, or it stands
for itself. -/
theorem Instruction.expand_cases {i : Instruction} {is : List Instruction}
    (h : i.expand = .ok is) :
    (∃ p, Pseudo.ofName? i.mnemonic = some p ∧ p.expand i.args = .ok is) ∨
      Pseudo.ofName? i.mnemonic = none ∧ is = [i] := by
  rw [expand] at h
  split at h
  · cases h
  · split at h
    · rename_i hnone
      exact .inr ⟨hnone, (Except.ok.inj h).symm⟩
    · rename_i p hp
      exact .inl ⟨p, hp, h⟩

/-- A line of the listing comes from a source line: it is one of those that the pseudo-instruction
there stands for, or the instruction there itself. -/
theorem Assembly.Describes.exists_source {o : Options} {a : Assembly} {lines : List (List Char)}
    (h : a.Describes o lines) {k : Nat} {entry : Nat × Instruction}
    (hentry : a.entries[k]? = some entry) :
    ∃ cs j, lines[entry.1]? = some cs ∧ (Line.read cs).instruction? = some j ∧
      ((∃ p m, Pseudo.ofName? j.mnemonic = some p ∧ p.Emits j.args entry.2.reread m) ∨
        Pseudo.ofName? j.mnemonic = none ∧ entry.2.reread = j) := by
  obtain ⟨-, cs, j, is, hcs, hj, htokenized, hexpand, hmem⟩ := h.exists_origin hentry
  refine ⟨cs, j, hcs, hj, ?_⟩
  obtain ⟨p, hp, his⟩ | ⟨hnone, rfl⟩ := Instruction.expand_cases hexpand
  · obtain ⟨m, hemits⟩ := Pseudo.emits_of_expand
      (fun w hw ↦ htokenized w (List.mem_cons_of_mem _ hw)) his entry.2 hmem
    exact .inl ⟨p, m, hp, hemits⟩
  · rw [List.mem_singleton.mp hmem]
    exact .inr ⟨hnone, htokenized.reread_eq⟩

/-! ## The result -/

/-- **Expansion is closed.**  Take any source that is assembled without running out of room.  On
each line of the listing there is an instruction that is no pseudo-instruction.  It comes from a
source line, and if there is a pseudo-instruction on that line:

* the encoder knows the instruction;
* with any tables and at any address it has a word, or it is rejected because one of the operands on
  the source line is no register, or because it is the `addiu` of `li` and the literal lies in the
  gap that `addiu` leaves, and the tables are unchanged;
* if the second pass has read the line of the listing, it has added the word, or a diagnostic of
  such a rejection on the source line. -/
theorem expansion_is_closed (o : Options) (source : String) (a : Assembly)
    (h : assemble o source = some a) :
    ∀ k < (Image.listingLines a.listing).length, ∃ i number cs j,
      a.instructionAt? k = some i ∧ Pseudo.ofName? i.mnemonic = none ∧
      a.scan.origins[k]? = some number ∧ (Text.splitLines source.toList)[number]? = some cs ∧
      (Line.read cs).instruction? = some j ∧
      ∀ p, Pseudo.ofName? j.mnemonic = some p →
        (Mnemonic.ofName? i.mnemonic).isSome = true ∧
        (∀ limit address tables, (i.encode limit address tables).1 = tables ∧
          ((∃ w, (i.encode limit address tables).2 = .ok w) ∨
            ∃ e, (i.encode limit address tables).2 = .error (.rejected e) ∧
              p.MayRaise j.args i e)) ∧
        (k < a.image.read →
          (∃ w, a.Encodes o k w) ∨
            ∃ e, p.MayRaise j.args i e ∧
              .ofError e ((Line.read cs).errorRange number e) ∈ a.diagnostics) := by
  intro k hk
  have hdescribes := assemble_describes h
  rw [hdescribes.length_listingLines] at hk
  have hentry := List.getElem?_eq_getElem hk
  generalize a.entries[k] = entry at hentry
  have horigin := (hdescribes.exists_origin hentry).1
  have hi : a.instructionAt? k = some entry.2.reread := by
    rw [hdescribes.instructionAt?_eq, hentry, Option.map_some]
  obtain ⟨cs, j, hcs, hj, hsource⟩ := hdescribes.exists_source hentry
  refine ⟨entry.2.reread, entry.1, cs, j, hi, ?_, horigin, hcs, hj, fun p hp ↦ ?_⟩
  · obtain ⟨p, m, -, hemits⟩ | ⟨hnone, hself⟩ := hsource
    · exact Pseudo.ofName?_eq_none hemits.known
    · rw [hself]
      exact hnone
  · obtain ⟨p', m, hp', hemits⟩ | ⟨hnone, -⟩ := hsource
    · obtain rfl := Option.some.inj (hp'.symm.trans hp)
      have hempty := (hdescribes.wellSpelled
        (List.mem_of_getElem? hentry)).tokenized_reread.empty_not_mem
      refine ⟨by rw [hemits.known]; rfl, hemits.encode hempty, fun hread ↦ ?_⟩
      rw [← hdescribes.getElem?_source] at hcs
      obtain ⟨w, hencodes, -⟩ | ⟨e, houtcome, -, hdiagnostic⟩ :=
        Assembly.encodes_or_rejects h hread horigin hcs hi
      · exact .inl ⟨w, hencodes⟩
      · exact .inr ⟨e, hemits.mayRaise hempty houtcome, Array.mem_append_right _ hdiagnostic⟩
    · rw [hnone] at hp
      cases hp

/-- A constant in the gap, after an instruction with an operand that is read back as two. -/
theorem expansion_is_closed_in_the_gap :
    ∃ a, assemble {} "push $t0\nli $t0, 0x8000" = some a ∧
      a.listing = "addiu $sp $sp -4\nsw $t0 0($sp)\naddiu $t0 $0 0x8000\n" ∧
      ∃ e, Pseudo.li.MayRaise ["$t0", "0x8000"] ⟨"addiu", ["$t0", "$0", "0x8000"]⟩ e ∧
        .ofError e ((Line.read "li $t0, 0x8000".toList).errorRange 1 e) ∈ a.diagnostics := by
  have hrun : (assemble {} "push $t0\nli $t0, 0x8000").map (fun a ↦
      (a.listing, a.scan.origins, a.image.read, a.wordAt? {} 2)) =
      some ("addiu $sp $sp -4\nsw $t0 0($sp)\naddiu $t0 $0 0x8000\n", #[0, 0, 1], 3, none) := by
    decide +kernel
  have hline : (Text.splitLines "push $t0\nli $t0, 0x8000".toList)[1]? =
      some "li $t0, 0x8000".toList := by
    decide
  have hli : (Line.read "li $t0, 0x8000".toList).instruction? =
      some ⟨"li", ["$t0", "0x8000"]⟩ := by
    decide +kernel
  obtain ⟨a, ha, hresult⟩ := Option.map_eq_some_iff.mp hrun
  simp only [Prod.mk.injEq] at hresult
  obtain ⟨hlisting, horigins, hread, hnone⟩ := hresult
  have hlast : a.instructionAt? 2 = some ⟨"addiu", ["$t0", "$0", "0x8000"]⟩ := by
    rw [Assembly.instructionAt?, hlisting]
    decide +kernel
  have hlength : (Image.listingLines a.listing).length = 3 := by
    rw [hlisting]
    decide +kernel
  obtain ⟨i, number, cs, j, hi, -, hnumber, hcs, hj, hpseudo⟩ :=
    expansion_is_closed {} _ a ha 2 (by omega)
  obtain rfl := Option.some.inj (hi.symm.trans hlast)
  rw [horigins] at hnumber
  obtain rfl : 1 = number := Option.some.inj hnumber
  obtain rfl := Option.some.inj (hcs.symm.trans hline)
  obtain rfl := Option.some.inj (hj.symm.trans hli)
  obtain ⟨-, -, hpass⟩ := hpseudo .li (by decide)
  refine ⟨a, ha, hlisting, (hpass (by omega)).resolve_left ?_⟩
  rintro ⟨w, hw⟩
  rw [Assembly.wordAt?_of_encodes ha hw] at hnone
  cases hnone

end MipsAsm
