import MipsAsm.Proofs.Encoding.Jumps

/-!
# The grammar of instructions

Which instructions have a word can be said without the encoder.  A table lists the mnemonics and
what stands in each operand position, and each position asks some things of the text in it.  All
that is asked of an instruction makes a list, in the order in which it counts.

There are two directions to this.  A grammar that is too generous accepts what the encoder rejects,
and one that is too strict the other way round, so both are settled at once: an outcome is compared
with the list of demands, and either of the two decides the other.  The cause of a rejection comes
with it, and so it is not enough to have the right demands; they have to be in the right order.

The table is compared with the families of the encoder once, mnemonic by mnemonic.  From there on a
demand is about a slot and a text, and each kind of slot is looked at once.

What is left out is room.  An instruction whose demands are all met can still fail if its record
finds no room, and no other instruction can fail for that.

* `Slot`, `grammar` — what an operand position takes, and the positions of each mnemonic.
* `Demand` — something that is asked, and the cause of the rejection if it is not met.
  `Demand.FirstUnmet` says of which kind the first demand is that is not met.
* `Instruction.demands` — all that is asked of an instruction.
* `Demand.Judges` — an outcome agrees with a list of demands: it is a value if all of them are met,
  and otherwise the first one that is not met is the cause.  Outcomes that follow one another agree
  with the joined lists (`Demand.Judges.bind`), which is how the parts of the encoder are put
  together.
* `encoding_accepts_exactly_the_grammar` — an instruction has a word exactly if all demands are met
  and there is room for its record, and otherwise the first demand that is not met is the cause.
-/

set_option autoImplicit false

namespace MipsAsm

/-! ## Demands

Which of several faults is reported depends on the order in which the encoder looks for them.  So
what is asked of an instruction is a list, and a rejection is for the first demand on it that is not
met.  The encoder is a sequence of steps that may fail, and `Demand.Judges.bind` makes the list of a
sequence out of the lists of its steps: that is what keeps the order right without looking at it
again. -/

/-- Something that is asked of an instruction. -/
structure Demand where
  /-- The cause of the rejection if it is not met. -/
  kind : Error.Kind
  /-- What is asked. -/
  Met : Prop

namespace Demand

/-- The first demand that is not met has the given kind. -/
inductive FirstUnmet (kind : Error.Kind) : List Demand → Prop where
  /-- It is the first one of the list. -/
  | head {d : Demand} {ds : List Demand} (hkind : d.kind = kind) (h : ¬d.Met) :
    FirstUnmet kind (d :: ds)
  /-- The first one of the list is met. -/
  | tail {d : Demand} {ds : List Demand} (hmet : d.Met) (h : FirstUnmet kind ds) :
    FirstUnmet kind (d :: ds)

/-- All demands are met. -/
def AllMet (ds : List Demand) : Prop := ∀ d ∈ ds, d.Met

@[simp]
theorem allMet_nil : AllMet [] := fun _ h ↦ absurd h List.not_mem_nil

@[simp]
theorem allMet_cons {d : Demand} {ds : List Demand} : AllMet (d :: ds) ↔ d.Met ∧ AllMet ds :=
  List.forall_mem_cons

@[simp]
theorem allMet_append {ds ds' : List Demand} : AllMet (ds ++ ds') ↔ AllMet ds ∧ AllMet ds' :=
  List.forall_mem_append

variable {kind : Error.Kind} {ds ds' : List Demand} {mnemonic : String}

theorem FirstUnmet.exists_mem (h : FirstUnmet kind ds) : ∃ d ∈ ds, d.kind = kind ∧ ¬d.Met := by
  induction h with
  | head hkind hunmet => exact ⟨_, List.mem_cons_self, hkind, hunmet⟩
  | tail _ _ ih =>
    obtain ⟨d, hd, hunmet⟩ := ih
    exact ⟨d, List.mem_cons_of_mem _ hd, hunmet⟩

theorem FirstUnmet.not_allMet (h : FirstUnmet kind ds) : ¬AllMet ds := by
  obtain ⟨d, hd, -, hunmet⟩ := h.exists_mem
  exact fun hall ↦ hunmet (hall d hd)

theorem FirstUnmet.append_right (h : FirstUnmet kind ds) : FirstUnmet kind (ds ++ ds') := by
  induction h with
  | head hkind hunmet => exact .head hkind hunmet
  | tail hmet _ ih => exact .tail hmet ih

theorem FirstUnmet.append_left (hmet : AllMet ds) (h : FirstUnmet kind ds') :
    FirstUnmet kind (ds ++ ds') := by
  induction ds with
  | nil => exact h
  | cons d ds ih => exact .tail (allMet_cons.mp hmet).1 (ih (allMet_cons.mp hmet).2)

/-- An outcome agrees with the demands: it is a value if all are met, and otherwise a rejection of
the instruction `mnemonic` for the first one that is not. -/
def Judges {α : Type} (mnemonic : String) (ds : List Demand) : Except Error α → Prop
  | .ok _ => AllMet ds
  | .error e => e.mnemonic = mnemonic ∧ FirstUnmet e.kind ds

/-- **Outcomes that follow one another** agree with the demands of both. -/
theorem Judges.bind {α β : Type} {x : Except Error α} {f : α → Except Error β}
    (hx : Judges mnemonic ds x) (hf : ∀ a, x = .ok a → Judges mnemonic ds' (f a)) :
    Judges mnemonic (ds ++ ds') (x >>= f) := by
  cases x with
  | error e => exact ⟨hx.1, hx.2.append_right⟩
  | ok a =>
    have hmet : AllMet ds := hx
    have ha := hf a rfl
    have heq : (Except.ok a >>= f) = f a := rfl
    rw [heq]
    cases hfa : f a with
    | error e =>
      rw [hfa] at ha
      exact ⟨ha.1, .append_left hmet ha.2⟩
    | ok b =>
      rw [hfa] at ha
      exact allMet_append.mpr ⟨hmet, ha⟩

theorem Judges.pure {α : Type} (a : α) : Judges mnemonic [] (Pure.pure a : Except Error α) :=
  allMet_nil

/-- A traversal agrees with the demands of all items, one after the other. -/
theorem Judges.mapM {α β : Type} {f : α → Except Error β} {demands : α → List Demand} {xs : List α}
    (h : ∀ x ∈ xs, Judges mnemonic (demands x) (f x)) :
    Judges mnemonic (xs.flatMap demands) (xs.mapM f) := by
  induction xs with
  | nil => exact .pure []
  | cons x xs ih =>
    rw [List.mapM_cons, List.flatMap_cons]
    refine (h x List.mem_cons_self).bind fun y _ ↦ ?_
    rw [← List.append_nil (xs.flatMap demands)]
    exact (ih fun x' hx' ↦ h x' (List.mem_cons_of_mem x hx')).bind fun ys _ ↦ .pure (y :: ys)

/-- An outcome that needs room agrees with the demands and with there being room: it is a value if
all demands are met and there is room, and room runs out only where all demands are met. -/
def Agrees {α : Type} (mnemonic : String) (ds : List Demand) (room : Prop) :
    Except Fault α → Prop
  | .ok _ => AllMet ds ∧ room
  | .error .outOfMemory => AllMet ds ∧ ¬room
  | .error (.rejected e) => e.mnemonic = mnemonic ∧ FirstUnmet e.kind ds

/-- Demands that are met may be put in front. -/
theorem Agrees.append_left {α : Type} {room : Prop} {x : Except Fault α} (hmet : AllMet ds)
    (h : Agrees mnemonic ds' room x) : Agrees mnemonic (ds ++ ds') room x := by
  cases x with
  | ok a => exact h.imp_left fun hmet' ↦ allMet_append.mpr ⟨hmet, hmet'⟩
  | error fault =>
    cases fault with
    | rejected e => exact h.imp_right (.append_left hmet)
    | outOfMemory => exact h.imp_left fun hmet' ↦ allMet_append.mpr ⟨hmet, hmet'⟩

theorem Agrees.map {α β : Type} {room : Prop} {x : Except Fault α} {f : α → β}
    (h : Agrees mnemonic ds room x) : Agrees mnemonic ds room (x.map f) := by
  cases x with
  | ok a => exact h
  | error fault => cases fault <;> exact h

end Demand

/-! ## The grammar

The table is written out, with the mnemonics by name, and does not use the families of the encoder.
What is asked of a position is said in terms of texts and tables alone.  Registers come before all
other positions, as an operand that should be a register is looked at first. -/

/-- What an operand position takes. -/
inductive Slot where
  /-- A register. -/
  | register
  /-- A number from `lower` to `upper`. -/
  | number (lower upper : Int)
  /-- A label of the source that a branch can reach. -/
  | branchLabel
  /-- A label that is filled in later. -/
  | jumpLabel
deriving DecidableEq, Repr

/-- The mnemonics with their operand positions. -/
def grammar : List (List String × List Slot) :=
  [(["addu", "or", "slt", "sltu", "xor"], [.register, .register, .register]),
    (["sll"], [.register, .register, .number 0 31]),
    (["addiu"], [.register, .register, .number (-32768) 32767]),
    (["ori"], [.register, .register, .number 0 65535]),
    (["lui"], [.register, .number 0 65535]),
    (["lb", "lbu", "lw", "sb", "sw"], [.register, .number (-32768) 32767, .register]),
    (["mult", "div"], [.register, .register]),
    (["mfhi", "mflo", "jr"], [.register]),
    (["beq", "bne"], [.register, .register, .branchLabel]),
    (["j", "jal"], [.jumpLabel])]

namespace Slot

/-- What is asked of the text `arg` in an operand position of an instruction at `address`. -/
def demands (address : UInt32) (tables : Tables) (arg : String) : Slot → List Demand
  | .register => [⟨.invalidRegister, arg ∈ Register.names.map Prod.fst⟩]
  | .number lower upper =>
    [⟨.unparseable, (Literal.ofChars arg.toList).value ≠ .error .unparseable⟩,
      ⟨.numberOutOfRange, ∃ v, (Literal.ofChars arg.toList).value = .ok v ∧ lower ≤ v ∧ v ≤ upper⟩]
  | .branchLabel =>
    [⟨.invalidLabel, Label.isValid arg = true⟩,
      ⟨.undefinedSymbol, ∃ t, tables.symbols = some t ∧ arg ∈ t.entries.toList.map Symbol.name⟩,
      ⟨.unreachableBranchTarget, ∃ t s, tables.symbols = some t ∧
        t.entries.toList.find? (·.name == arg) = some s ∧ canBranch address s.address = true⟩]
  | .jumpLabel =>
    [⟨.invalidLabel, Label.isValid arg = true⟩,
      ⟨.misalignedAddress, address % 4 = 0⟩,
      ⟨.duplicateName, ∀ t, tables.relocations = some t → t.mode = .unique →
        arg ∉ t.entries.toList.map Symbol.name⟩]

end Slot

namespace Instruction

/-- The operand positions of an instruction, if it is one of the grammar. -/
def slots? (i : Instruction) : Option (List Slot) :=
  (grammar.find? (i.mnemonic ∈ ·.1)).map Prod.snd

/-- The operand positions of an instruction. -/
def slots (i : Instruction) : List Slot := i.slots?.getD []

/-- The operand positions with the texts in them, the registers first. -/
def filledSlots (i : Instruction) : List (Slot × String) :=
  let filled := i.slots.zip i.args
  filled.filter (·.1 = .register) ++ filled.filter (·.1 ≠ .register)

/-- What is asked of an instruction before its operands are looked at: that the mnemonic exists,
that the table it needs is there, the number of operands and that none is empty. -/
def formDemands (i : Instruction) (tables : Tables) : List Demand :=
  [⟨.unknownMnemonic, i.slots?.isSome = true⟩,
    ⟨.missingRequiredTable, (.branchLabel ∈ i.slots → tables.symbols.isSome = true) ∧
      (.jumpLabel ∈ i.slots → tables.relocations.isSome = true)⟩,
    ⟨.invalidArgumentCount, i.args.length = i.slots.length⟩,
    ⟨.missingArgument, "" ∉ i.args⟩]

/-- What is asked of the operands of an instruction. -/
def operandDemands (i : Instruction) (address : UInt32) (tables : Tables) : List Demand :=
  i.filledSlots.flatMap fun filled ↦ filled.1.demands address tables filled.2

/-- All that is asked of an instruction, in the order in which it counts. -/
def demands (i : Instruction) (address : UInt32) (tables : Tables) : List Demand :=
  i.formDemands tables ++ i.operandDemands address tables

/-- Whether there is room for what an instruction adds to the tables, or more room to get. -/
def HasRoom (limit : Int) (i : Instruction) (tables : Tables) : Prop :=
  i.IsJump → ∀ r, tables.relocations = some r → r.size = r.capacity → r.canGrow limit = true

end Instruction

/-! ## The grammar and the families

The table and the families of the encoder are compared once, mnemonic by mnemonic.  Afterwards a
slot is the slot of an operand, and both lists run in parallel. -/

/-- What the operand takes. -/
def Operand.slot : Operand → Slot
  | .register _ => .register
  | .number _ lower upper => .number lower upper
  | .branchTarget => .branchLabel
  | .jumpTarget => .jumpLabel

theorem Operand.slot_eq_register_iff (o : Operand) : o.slot = .register ↔ o.isRegister = true := by
  cases o <;> simp [slot, isRegister]

namespace Instruction

variable {i : Instruction} {m : Mnemonic}

/-- **The grammar lists the mnemonics and the operands of their families.** -/
theorem slots?_eq (i : Instruction) :
    i.slots? = (Mnemonic.ofName? i.mnemonic).map fun m ↦ m.family.operands.map Operand.slot := by
  rw [slots?]
  cases hm : Mnemonic.ofName? i.mnemonic with
  | some m =>
    rw [← Mnemonic.name_eq_of_ofName?_eq_some hm]
    cases m <;> rfl
  | none =>
    have hknown : ∀ row ∈ grammar, ∀ name ∈ row.1, (Mnemonic.ofName? name).isSome = true := by
      decide
    rw [Option.map_none, Option.map_eq_none_iff, List.find?_eq_none]
    intro row hrow hname
    have hsome := hknown row hrow i.mnemonic (of_decide_eq_true hname)
    rw [hm] at hsome
    cases hsome

theorem slots_eq (hm : Mnemonic.ofName? i.mnemonic = some m) :
    i.slots = m.family.operands.map Operand.slot := by
  rw [slots, slots?_eq, hm, Option.map_some, Option.getD_some]

theorem filledSlots_eq (hm : Mnemonic.ofName? i.mnemonic = some m) :
    i.filledSlots = (m.family.pairOperands i.args).map fun oa ↦ (oa.1.slot, oa.2) := by
  have hzip : i.slots.zip i.args =
      (m.family.operands.zip i.args).map fun oa ↦ (oa.1.slot, oa.2) := by
    rw [slots_eq hm, List.zip_map_left]
    rfl
  rw [filledSlots, hzip, Family.pairOperands, List.map_append, List.filter_map, List.filter_map]
  simp only [Function.comp_def, ne_eq, Operand.slot_eq_register_iff, Bool.decide_eq_true,
    decide_not]

/-- The tables that are needed are those of the labels in the operands. -/
theorem missing?_eq_none_iff {tables : Tables} (hm : Mnemonic.ofName? i.mnemonic = some m) :
    tables.missing? m.family = none ↔
      (.branchLabel ∈ i.slots → tables.symbols.isSome = true) ∧
        (.jumpLabel ∈ i.slots → tables.relocations.isSome = true) := by
  rw [slots_eq hm]
  obtain ⟨_ | symbols, _ | relocations⟩ := tables <;> cases m.family <;>
    simp [Tables.missing?, Family.operands, Operand.slot, Operand.signedImmediate,
      Operand.unsignedImmediate]

end Instruction

/-! ## Operands

Each kind of operand agrees with what is asked of its slot.  A jump is left out: that its label has
a record already, or that its address is no multiple of four, is found only when the record is made,
after all operands were read. -/

theorem Register.ofName?_isSome_iff (name : String) :
    (ofName? name).isSome = true ↔ name ∈ names.map Prod.fst := by
  rw [ofName?]
  induction names with
  | nil => simp
  | cons row rows ih =>
    obtain ⟨other, r⟩ := row
    rw [List.lookup_cons, List.map_cons, List.mem_cons]
    by_cases h : name = other
    · simp [h]
    · rw [beq_false_of_ne h, ih, or_iff_right h]

namespace Literal

theorem readDigits_error {base acc : Nat} {cs : List Char} {kind : Error.Kind}
    (h : readDigits base acc cs = .error kind) :
    kind = .unparseable ∨ kind = .numberOutOfRange := by
  induction cs generalizing acc with
  | nil => cases h
  | cons c cs ih =>
    rw [readDigits] at h
    split at h
    · exact .inl (Except.error.inj h).symm
    · split at h
      · exact ih h
      · exact .inr (Except.error.inj h).symm

/-- The two causes for which a literal has no value. -/
theorem value_error {l : Literal} {kind : Error.Kind} (h : l.value = .error kind) :
    kind = .unparseable ∨ kind = .numberOutOfRange := by
  cases hmagnitude : l.magnitude with
  | ok n =>
    rw [value, hmagnitude] at h
    cases h
  | error kind' =>
    rw [value, hmagnitude] at h
    obtain rfl : kind' = kind := Except.error.inj h
    rw [magnitude] at hmagnitude
    split at hmagnitude
    · exact .inl (Except.error.inj hmagnitude).symm
    · exact readDigits_error hmagnitude

end Literal

namespace Operand

open Demand

variable {mnemonic arg : String} {address : UInt32} {tables : Tables}

theorem value_judged_register (field : Field) :
    Judges mnemonic (Slot.register.demands address tables arg)
      ((register field).value mnemonic tables.symbols address arg) := by
  have hname := Register.ofName?_isSome_iff arg
  rw [value, Register.parse]
  cases hr : Register.ofName? arg with
  | none =>
    rw [hr] at hname
    exact ⟨rfl, .head rfl fun hmem ↦ Bool.false_ne_true (hname.mpr hmem)⟩
  | some r =>
    rw [hr] at hname
    exact allMet_cons.mpr ⟨hname.mp rfl, allMet_nil⟩

theorem value_judged_number (field : Field) (lower upper : Int) :
    Judges mnemonic ((Slot.number lower upper).demands address tables arg)
      ((number field lower upper).value mnemonic tables.symbols address arg) := by
  rw [value, Literal.parse]
  cases hv : (Literal.ofChars arg.toList).value with
  | error kind =>
    obtain rfl | rfl := Literal.value_error hv
    · exact ⟨rfl, .head rfl fun h ↦ h hv⟩
    · refine ⟨rfl, .tail ?_ (.head rfl ?_)⟩
      · simp [hv]
      · rintro ⟨v, hok, -⟩
        rw [hv] at hok
        cases hok
  | ok v =>
    have hparses : (Literal.ofChars arg.toList).value ≠ .error .unparseable := by simp [hv]
    by_cases hbounds : lower ≤ v ∧ v ≤ upper
    · simp only [hbounds]
      exact allMet_cons.mpr ⟨hparses, allMet_cons.mpr ⟨⟨v, hv, hbounds⟩, allMet_nil⟩⟩
    · simp only [hbounds]
      refine ⟨rfl, .tail hparses (.head rfl ?_)⟩
      rintro ⟨v', hok, hbounds'⟩
      obtain rfl := Except.ok.inj (hv.symm.trans hok)
      exact hbounds hbounds'

theorem value_judged_branchTarget (hsymbols : ∀ t, tables.symbols = some t → t.WellFormed)
    (hpresent : tables.symbols.isSome = true) :
    Judges mnemonic (Slot.branchLabel.demands address tables arg)
      (branchTarget.value mnemonic tables.symbols address arg) := by
  obtain ⟨t, ht⟩ := Option.isSome_iff_exists.mp hpresent
  have hfind := SymbolTable.find?_eq (hsymbols t ht) arg
  rw [value, ht, Option.bind_some, hfind]
  by_cases hvalid : Label.isValid arg = true
  · rw [if_pos hvalid]
    cases hs : t.entries.toList.find? (·.name == arg) with
    | none =>
      refine ⟨rfl, .tail hvalid (.head rfl ?_)⟩
      rintro ⟨t', ht', hmem⟩
      obtain rfl := Option.some.inj (ht.symm.trans ht')
      obtain ⟨s, hs', rfl⟩ := List.mem_map.mp hmem
      exact List.find?_eq_none.mp hs s hs' (beq_self_eq_true _)
    | some s =>
      have hname := List.find?_some hs
      have hdefined : ∃ t, tables.symbols = some t ∧ arg ∈ t.entries.toList.map Symbol.name :=
        ⟨t, ht, List.mem_map.mpr ⟨s, List.mem_of_find?_eq_some hs, eq_of_beq hname⟩⟩
      rw [Option.map_some]
      by_cases hreach : canBranch address s.address = true
      · simp only [hreach]
        exact allMet_cons.mpr ⟨hvalid, allMet_cons.mpr ⟨hdefined,
          allMet_cons.mpr ⟨⟨t, s, ht, hs, hreach⟩, allMet_nil⟩⟩⟩
      · simp only [hreach]
        refine ⟨rfl, .tail hvalid (.tail hdefined (.head rfl ?_))⟩
        rintro ⟨t', s', ht', hs', hreach'⟩
        obtain rfl := Option.some.inj (ht.symm.trans ht')
        obtain rfl := Option.some.inj (hs.symm.trans hs')
        exact hreach hreach'
  · rw [if_neg hvalid]
    exact ⟨rfl, .head rfl hvalid⟩

/-- **The value of an operand agrees with what is asked of it**, save that nothing is known yet of
the record of a jump. -/
theorem value_judged {o : Operand} (hsymbols : ∀ t, tables.symbols = some t → t.WellFormed)
    (hpresent : o = .branchTarget → tables.symbols.isSome = true) (hjump : o ≠ .jumpTarget) :
    Judges mnemonic (o.slot.demands address tables arg)
      (o.value mnemonic tables.symbols address arg) := by
  cases o with
  | register field => exact value_judged_register field
  | number field lower upper => exact value_judged_number field lower upper
  | branchTarget => exact value_judged_branchTarget hsymbols (hpresent rfl)
  | jumpTarget => exact absurd rfl hjump

end Operand

/-! ## Instructions

The steps are put together: the form, the operands, and for a jump its record.  Only the last can
run out of room, and it does so after everything else was found to be in order. -/

namespace Instruction

open Demand

variable {limit : Int} {i : Instruction} {m : Mnemonic} {address : UInt32} {tables : Tables}

/-- **What is checked first agrees with what is asked first.** -/
theorem check_judged (i : Instruction) (tables : Tables) :
    Judges i.mnemonic (i.formDemands tables) (i.check tables) := by
  have hknown := i.slots?_eq
  rw [check]
  cases hm : Mnemonic.ofName? i.mnemonic with
  | none =>
    rw [hm, Option.map_none] at hknown
    exact ⟨rfl, .head rfl (by rw [hknown]; exact Bool.false_ne_true)⟩
  | some m =>
    have hlength : i.slots.length = m.family.arity := by
      rw [slots_eq hm, List.length_map, Family.arity]
    rw [hm, Option.map_some] at hknown
    have hknown : i.slots?.isSome = true := by rw [hknown]; rfl
    cases hmissing : tables.missing? m.family with
    | some table =>
      simp only [hmissing]
      refine ⟨rfl, .tail hknown (.head rfl fun hpresent ↦ ?_)⟩
      rw [(missing?_eq_none_iff hm).mpr hpresent] at hmissing
      cases hmissing
    | none =>
      have hpresent := (missing?_eq_none_iff hm).mp hmissing
      simp only [hmissing]
      by_cases hcount : i.args.length = m.family.arity
      · by_cases hempty : "" ∈ i.args
        · simp only [hcount, hempty, ne_eq, not_true, if_false, if_true]
          exact ⟨rfl, .tail hknown (.tail hpresent (.tail (hcount.trans hlength.symm)
            (.head rfl (not_not_intro hempty))))⟩
        · simp only [hcount, hempty, ne_eq, not_true, if_false]
          simp only [formDemands, Judges, allMet_cons, allMet_nil, and_true]
          exact ⟨hknown, hpresent, hcount.trans hlength.symm, hempty⟩
      · simp only [hcount, ne_eq, not_false_eq_true, if_true]
        exact ⟨rfl, .tail hknown (.tail hpresent (.head rfl fun h ↦ hcount (h.trans hlength)))⟩

theorem ne_jumpTarget_of_mem {f : Family} (hf : f ≠ .jump) : ∀ o ∈ f.operands, o ≠ .jumpTarget := by
  cases f <;> first | exact absurd rfl hf | decide

theorem mem_operands_of_mem_pairOperands {f : Family} {args : List String} {oa : Operand × String}
    (h : oa ∈ f.pairOperands args) : oa.1 ∈ f.operands :=
  (List.of_mem_zip ((f.pairOperands_perm args).mem_iff.mp h)).1

theorem operandDemands_eq (hm : Mnemonic.ofName? i.mnemonic = some m) :
    i.operandDemands address tables =
      (m.family.pairOperands i.args).flatMap fun oa ↦ oa.1.slot.demands address tables oa.2 := by
  rw [operandDemands, filledSlots_eq hm, List.flatMap_map]

/-- **The fields of an instruction that is no jump agree with what is asked of its operands.** -/
theorem fieldValues_judged (address : UInt32)
    (hsymbols : ∀ t, tables.symbols = some t → t.WellFormed)
    (hm : Mnemonic.ofName? i.mnemonic = some m) (hmissing : tables.missing? m.family = none)
    (hjump : m.family ≠ .jump) :
    Judges i.mnemonic (i.operandDemands address tables)
      (i.fieldValues m tables.symbols address) := by
  rw [operandDemands_eq hm, fieldValues, ← List.append_nil (List.flatMap _ _)]
  refine (Judges.mapM fun oa hoa ↦ ?_).bind fun values _ ↦ .pure _
  have hmem := mem_operands_of_mem_pairOperands hoa
  rw [← List.append_nil (Slot.demands _ _ _ _)]
  refine (Operand.value_judged hsymbols (fun hbranch ↦ ?_) (ne_jumpTarget_of_mem hjump _ hmem)).bind
    fun value _ ↦ .pure _
  refine ((missing?_eq_none_iff hm).mp hmissing).1 ?_
  rw [slots_eq hm]
  exact List.mem_map.mpr ⟨oa.1, hmem, by rw [hbranch, Operand.slot]⟩

/-- The record of a jump agrees with what is asked of its address and its label. -/
theorem record_agrees {r : SymbolTable} {symbols : Option SymbolTable} {label : String}
    (hr : r.WellFormed) (hjump : i.IsJump) (hargs : i.args = [label]) :
    Agrees i.mnemonic
      [⟨.misalignedAddress, address % 4 = 0⟩,
        ⟨.duplicateName, ∀ t, some r = some t → t.mode = .unique →
          label ∉ t.entries.toList.map Symbol.name⟩]
      (i.HasRoom limit { symbols, relocations := some r })
      (Tables.record limit { symbols, relocations := some r } .jump i address).2 := by
  have hindex : label ∈ r.firstIndex ↔ label ∈ r.entries.toList.map Symbol.name :=
    SymbolTable.mem_firstIndex_iff hr
  simp only [HasRoom, hjump, true_implies, Option.some.injEq, forall_eq']
  rw [record_jump hargs, SymbolTable.insert_snd, SymbolTable.insertFault?]
  by_cases haligned : address % 4 = 0
  · rw [if_neg (not_not_intro haligned)]
    by_cases hduplicate : r.mode = .unique ∧ label ∈ r.firstIndex
    · rw [if_pos hduplicate]
      exact ⟨rfl, .tail haligned
        (.head rfl fun hnew ↦ hnew hduplicate.1 (hindex.mp hduplicate.2))⟩
    · rw [if_neg hduplicate]
      have hnew : r.mode = .unique → label ∉ r.entries.toList.map Symbol.name :=
        fun hmode hmem ↦ hduplicate ⟨hmode, hindex.mpr hmem⟩
      have hmet := allMet_cons (d := ⟨.misalignedAddress, address % 4 = 0⟩)
        |>.mpr ⟨haligned, allMet_cons (d := ⟨.duplicateName, _⟩) |>.mpr ⟨hnew, allMet_nil⟩⟩
      by_cases hfull : r.size = r.capacity ∧ ¬r.canGrow limit
      · rw [if_pos hfull]
        exact ⟨hmet, fun hroom ↦ hfull.2 (hroom hfull.1)⟩
      · rw [if_neg hfull]
        exact ⟨hmet, fun hsize ↦ not_not.mp fun hgrow ↦ hfull ⟨hsize, hgrow⟩⟩
  · rw [if_pos haligned]
    exact ⟨rfl, .head rfl haligned⟩

/-- **The encoding of an instruction agrees with all that is asked of it.** -/
theorem encode_agrees (limit : Int) (i : Instruction) (address : UInt32)
    (hsymbols : ∀ t, tables.symbols = some t → t.WellFormed)
    (hrelocations : ∀ t, tables.relocations = some t → t.WellFormed) :
    Agrees i.mnemonic (i.demands address tables) (i.HasRoom limit tables)
      (i.encode limit address tables).2 := by
  have hform := i.check_judged tables
  cases hcheck : i.check tables with
  | error e =>
    rw [hcheck] at hform
    rw [encode_of_check_error hcheck]
    exact ⟨hform.1, hform.2.append_right⟩
  | ok m =>
    rw [hcheck] at hform
    obtain ⟨hm, hmissing, hlength, -⟩ := check_eq_ok_iff.mp hcheck
    refine .append_left hform ?_
    -- a jump is judged apart, as its record comes after its operands and can fail for two reasons
    by_cases hjump : m.family = .jump
    · rw [hjump] at hlength
      obtain ⟨label, hargs⟩ := List.length_eq_one_iff.mp hlength
      have hpairs : m.family.pairOperands i.args = [(.jumpTarget, label)] := by
        rw [hjump, hargs]
        rfl
      have hdemands : i.operandDemands address tables =
          Slot.jumpLabel.demands address tables label := by
        rw [operandDemands_eq hm, hpairs]
        rfl
      rw [hdemands]
      by_cases hvalid : Label.isValid label = true
      · have hvalues : ∃ values, i.fieldValues m tables.symbols address = .ok values := by
          rw [fieldValues, hpairs, List.mapM_cons]
          simp only [Operand.value, hvalid]
          exact ⟨_, rfl⟩
        obtain ⟨values, hvalues⟩ := hvalues
        rw [encode_of_fieldValues hcheck hvalues, hjump]
        obtain ⟨symbols, _ | r⟩ := tables
        · rw [hjump] at hmissing
          cases hmissing
        · exact .append_left (allMet_cons.mpr ⟨hvalid, allMet_nil⟩)
            (record_agrees (hrelocations r rfl) ((isJump_iff hm).mpr hjump) hargs).map
      · have hvalues : i.fieldValues m tables.symbols address =
            .error { kind := .invalidLabel, mnemonic := i.mnemonic, construct := label } := by
          rw [fieldValues, hpairs, List.mapM_cons]
          simp only [Operand.value, hvalid]
          rfl
        rw [encode_of_fieldValues_error hcheck hvalues]
        exact ⟨rfl, .head rfl hvalid⟩
    · have hoperands := fieldValues_judged address hsymbols hm hmissing hjump
      cases hvalues : i.fieldValues m tables.symbols address with
      | error e =>
        rw [hvalues] at hoperands
        rw [encode_of_fieldValues_error hcheck hvalues]
        exact hoperands
      | ok values =>
        rw [hvalues] at hoperands
        have hnothing := (record_cases limit i address m.family).resolve_left (by
          rintro ⟨label, rest, hfamily, -⟩
          exact hjump hfamily)
        rw [encode_of_fieldValues hcheck hvalues, hnothing]
        exact ⟨hoperands, fun h ↦ absurd ((isJump_iff hm).mp h) hjump⟩

end Instruction

/-- **Encoding accepts exactly the grammar.**  Take any mnemonic, any operands, any address, and
tables that are missing or in any state that a table can be in.

* The instruction has a word exactly if all that is asked of it is the case, and there is room for
  its record if it is a jump.
* Room is what it ends for exactly if all that is asked is the case and there is no room.
* A rejection names the mnemonic of the instruction and has the kind of the first thing that is
  asked and not the case. -/
theorem encoding_accepts_exactly_the_grammar (limit : Int) (i : Instruction) (address : UInt32)
    (tables : Tables) (hsymbols : ∀ t, tables.symbols = some t → t.Reachable)
    (hrelocations : ∀ t, tables.relocations = some t → t.Reachable) :
    let outcome := (i.encode limit address tables).2
    ((∃ w, outcome = .ok w) ↔
      Demand.AllMet (i.demands address tables) ∧ i.HasRoom limit tables) ∧
    (outcome = .error .outOfMemory ↔
      Demand.AllMet (i.demands address tables) ∧ ¬i.HasRoom limit tables) ∧
    ∀ e, outcome = .error (.rejected e) →
      e.mnemonic = i.mnemonic ∧ Demand.FirstUnmet e.kind (i.demands address tables) := by
  intro outcome
  have h : Demand.Agrees _ _ _ outcome := i.encode_agrees limit address
    (fun t ht ↦ (hsymbols t ht).wellFormed) fun t ht ↦ (hrelocations t ht).wellFormed
  cases houtcome : outcome with
  | ok w =>
    rw [houtcome] at h
    exact ⟨iff_of_true ⟨w, rfl⟩ h, by simpa using fun _ ↦ h.2, by simp⟩
  | error fault =>
    rw [houtcome] at h
    cases fault with
    | outOfMemory => exact ⟨by simpa using fun _ ↦ h.2, iff_of_true rfl h, by simp⟩
    | rejected e =>
      have hunmet := h.2.not_allMet
      refine ⟨by simpa using fun hmet ↦ absurd hmet hunmet,
        by simpa using fun hmet ↦ absurd hmet hunmet, fun e' he' ↦ ?_⟩
      obtain rfl := Fault.rejected.inj (Except.error.inj he')
      exact h

/-- A branch that has a word, a load whose third operand is rejected before the second, and a jump
whose label has a record already. -/
theorem encoding_accepts_exactly_the_grammar_registers_first :
    ∃ symbols relocations : SymbolTable, symbols.Reachable ∧ relocations.Reachable ∧
      let tables : Tables := { symbols := some symbols, relocations := some relocations }
      Demand.AllMet ((⟨"bne", ["$t0", "$0", "loop"]⟩ : Instruction).demands 8 tables) ∧
      Demand.FirstUnmet .invalidRegister
        ((⟨"lw", ["$t0", "40000", "$t9"]⟩ : Instruction).demands 8 tables) ∧
      Demand.FirstUnmet .duplicateName
        ((⟨"jal", ["loop"]⟩ : Instruction).demands 8 tables) := by
  have hnew : (SymbolTable.empty .unique).Reachable :=
    .new (show SymbolTable.new 5 .unique = .ok (.empty .unique) from rfl)
  have hinserted := hnew.insert 5 "loop" 0
  have hreachable : ∀ t, some ((SymbolTable.empty .unique).insert 5 "loop" 0).1 = some t →
      t.Reachable := by
    rintro t ⟨⟩
    exact hinserted
  refine ⟨_, _, hinserted, hinserted, ?_, ?_, ?_⟩
  · exact ((encoding_accepts_exactly_the_grammar 5 _ 8 _ hreachable hreachable).1.mp
      ⟨0x1500fffd, by decide⟩).1
  · exact ((encoding_accepts_exactly_the_grammar 5 _ 8 _ hreachable hreachable).2.2
      { kind := .invalidRegister, mnemonic := "lw", construct := "$t9" } (by decide)).2
  · exact ((encoding_accepts_exactly_the_grammar 5 _ 8 _ hreachable hreachable).2.2
      { kind := .duplicateName, mnemonic := "jal", construct := "loop" } (by decide)).2

end MipsAsm
