import MipsAsm.Instruction
import MipsAsm.Label
import MipsAsm.Literal
import MipsAsm.Mnemonic
import MipsAsm.Register
import MipsAsm.SymbolTable

/-!
# Encoding one instruction

`Instruction.encode` turns an instruction at an address into its word.  A branch looks its label up
in the symbol table.  A jump leaves its target field zero and adds a record to the relocation table,
from which the target can be filled in later.

What is checked, and in which order: that the mnemonic exists, that a table it needs is there, the
number of operands, that no operand is empty, the register operands from the left, and then the
other operand if there is one.
-/

set_option autoImplicit false

namespace MipsAsm

/-! ## Branches

The reach of a branch is tested in bytes, as a signed word, and the offset is counted in words from
the instruction after the branch. -/

/-- Whether the branch at `src` can reach `dest`.  The distance is at most 2 ^ 17 bytes forward and
2 ^ 17 - 4 bytes backward. -/
def canBranch (src dest : UInt32) : Bool :=
  let distance := (dest - src).toInt32
  (0 ≤ distance && distance ≤ 131072) || (distance < 0 && -131068 ≤ distance)

/-- The distance in words from the instruction after `src` to `dest`.  The division goes toward
zero. -/
def branchOffset (src dest : UInt32) : Int32 := ((dest - src).toInt32 - 4) / 4

/-! ## Operands

An operand is rejected in the name of its instruction, so that the message has the mnemonic in it.
Nothing is looked up for a jump, whose label need not be defined anywhere. -/

/-- The value of an operand for the instruction `mnemonic` at `address`. -/
def Operand.value (mnemonic : String) (symbols : Option SymbolTable) (address : UInt32) :
    Operand → String → Except Error UInt32
  | .register _, arg =>
    match Register.parse arg with
    | .error e => .error (e.inInstruction mnemonic)
    | .ok r => .ok r.toWord
  | .number _ lower upper, arg =>
    match Literal.parse arg lower upper with
    | .error e => .error (e.inInstruction mnemonic)
    | .ok v => .ok (UInt32.ofInt v)
  | .branchTarget, arg =>
    if Label.isValid arg then
      match symbols.bind (·.find? arg) with
      | none => .error { kind := .undefinedSymbol, mnemonic, construct := arg }
      | some dest =>
        if canBranch address dest then .ok (branchOffset address dest).toUInt32
        else .error { kind := .unreachableBranchTarget, mnemonic, construct := arg }
    else .error { kind := .invalidLabel, mnemonic, construct := arg }
  | .jumpTarget, arg =>
    if Label.isValid arg then .ok 0
    else .error { kind := .invalidLabel, mnemonic, construct := arg }

/-- The operands of a family with the texts that stand for them, the registers first. -/
def Family.pairOperands (f : Family) (args : List String) : List (Operand × String) :=
  let pairs := f.operands.zip args
  pairs.filter (·.1.isRegister) ++ pairs.filter (!·.1.isRegister)

/-! ## Words

A word is composed only when all operands have values, and then a jump is recorded.  The record can
still fail, and in that case there is no word. -/

/-- The tables an instruction may refer to. -/
structure Tables where
  /-- The labels, for branches. -/
  symbols : Option SymbolTable
  /-- The relocation records, for jumps. -/
  relocations : Option SymbolTable

/-- The table that an instruction of the family needs and does not have. -/
def Tables.missing? (t : Tables) (f : Family) : Option String :=
  match f, t.symbols, t.relocations with
  | .branch, none, _ => some "symbol table"
  | .jump, _, none => some "relocation table"
  | _, _, _ => none

/-- Note what an instruction of the family leaves to be filled in later: a jump adds a record of its
label and its address. -/
def Tables.record (limit : Int) (t : Tables) (f : Family) (i : Instruction) (address : UInt32) :
    Tables × Except Fault Unit :=
  match f, t, i.args with
  | .jump, { symbols, relocations := some relocations }, label :: _ =>
    let (relocations, outcome) := relocations.insert limit label address
    ({ symbols, relocations := some relocations }, outcome.mapError (·.inInstruction i.mnemonic))
  | _, t, _ => (t, .ok ())

namespace Instruction

/-- The fields of the word of an instruction with the mnemonic `m`, each with its value. -/
def fieldValues (i : Instruction) (m : Mnemonic) (symbols : Option SymbolTable)
    (address : UInt32) : Except Error (List (Field × UInt32)) := do
  let values ← (m.family.pairOperands i.args).mapM fun (operand, arg) ↦ do
    let value ← operand.value i.mnemonic symbols address arg
    return (operand.field, value)
  return (m.family.codeField, m.code) :: values

/-- Why an instruction is rejected before its operands are looked at, or its mnemonic. -/
def check (i : Instruction) (tables : Tables) : Except Error Mnemonic :=
  match Mnemonic.ofName? i.mnemonic with
  | none => .error { kind := .unknownMnemonic, mnemonic := i.mnemonic, construct := "" }
  | some m =>
    match tables.missing? m.family with
    | some table =>
      .error { kind := .missingRequiredTable, mnemonic := i.mnemonic, construct := table }
    | none =>
      if i.args.length ≠ m.family.arity then
        .error
          { kind := .invalidArgumentCount, mnemonic := i.mnemonic, construct := m.family.format }
      else if "" ∈ i.args then
        .error { kind := .missingArgument, mnemonic := i.mnemonic, construct := "" }
      else
        .ok m

/-- The tables after an instruction at `address` was encoded, and its word. -/
def encode (limit : Int) (i : Instruction) (address : UInt32) (tables : Tables) :
    Tables × Except Fault UInt32 :=
  match i.check tables with
  | .error e => (tables, .error (.rejected e))
  | .ok m =>
    match i.fieldValues m tables.symbols address with
    | .error e => (tables, .error (.rejected e))
    | .ok values =>
      let (tables, outcome) := tables.record limit m.family i address
      (tables, outcome.map fun () ↦ compose values)

/-- What is logged of the insertion that an encoding ended with. -/
def insertionLog : Fault → List Log.Entry
  | .rejected e => e.insertionReport?.toList
  | .outOfMemory => []

/-- What became of writing the word of an instruction. -/
structure WrittenWord where
  /-- The sink afterwards. -/
  sink : Sink
  /-- The tables afterwards. -/
  tables : Tables
  /-- Why there is no word, if there is none. -/
  fault : Option Fault
  /-- Whether the sink refused a part of the text. -/
  sinkFull : Bool
  /-- What is logged. -/
  log : List Log.Entry

/-- Write the word of an instruction as a line of eight digits.  The relocation record of a jump is
made before the line is written, so it stays when the sink refuses the line. -/
def writeWord (limit : Int) (i : Instruction) (address : UInt32) (tables : Tables) (sink : Sink) :
    WrittenWord :=
  match i.encode limit address tables with
  | (tables, .error fault) =>
    { sink, tables, fault := some fault, sinkFull := false
      log := insertionLog fault ++
        match fault with
        | .rejected e => [.report ("Error: " ++ e.text)]
        | .outOfMemory => [] }
  | (tables, .ok word) =>
    let written := sink.write (Text.hexWord word ++ "\n")
    { sink := written.sink, tables, fault := none, sinkFull := !written.complete, log := [] }

end Instruction
end MipsAsm
