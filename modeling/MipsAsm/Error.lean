/-!
# What can be wrong with an instruction

An `Error` names the cause of a rejection, the mnemonic of the instruction it belongs to and the
piece of text that caused it.  Either of the two may be empty: a register is checked without
knowing which instruction asks for it, and `Error.inInstruction` fills that in later.

There are two wordings.  `Error.text` is the short one of the log.  `Error.explanation` is the one
shown to the author of the source.

A `Fault` is what ends an operation that also needs room in a table: a rejection, or the table
running out of room.
-/

set_option autoImplicit false

namespace MipsAsm

/-- The causes of a rejection. -/
inductive Error.Kind where
  /-- An address that is no multiple of four. -/
  | misalignedAddress
  /-- A name that is already in a table of unique names. -/
  | duplicateName
  /-- A number of operands that the instruction does not take. -/
  | invalidArgumentCount
  /-- An operand, or a mnemonic, that is empty. -/
  | missingArgument
  /-- An operand that is no register. -/
  | invalidRegister
  /-- An integer literal outside the range of its operand. -/
  | numberOutOfRange
  /-- An operand that is no integer literal. -/
  | unparseable
  /-- An operand that is no label name. -/
  | invalidLabel
  /-- A label that no line defines. -/
  | undefinedSymbol
  /-- A label too far away for a branch. -/
  | unreachableBranchTarget
  /-- A mnemonic that names no instruction. -/
  | unknownMnemonic
  /-- A table that the instruction needs and was not given. -/
  | missingRequiredTable
deriving DecidableEq, Repr, Inhabited

/-- A rejection: its cause, the mnemonic of the instruction and the text that caused it. -/
structure Error where
  /-- The cause. -/
  kind : Error.Kind
  /-- The mnemonic of the instruction, or the empty text. -/
  mnemonic : String
  /-- The text that caused the rejection, or the empty text. -/
  construct : String
deriving DecidableEq, Repr, Inhabited

namespace Error

/-- The wording of a cause. -/
def Kind.text : Kind → String
  | .misalignedAddress => "address is not a multiple of 4"
  | .duplicateName => "name already exists in table"
  | .invalidArgumentCount => "invalid argument count"
  | .missingArgument => "missing argument"
  | .invalidRegister => "invalid register"
  | .numberOutOfRange => "number out of range"
  | .unparseable => "unparseable number"
  | .invalidLabel => "invalid label"
  | .undefinedSymbol => "undefined symbol"
  | .unreachableBranchTarget => "branch target out of range"
  | .unknownMnemonic => "unknown mnemonic"
  | .missingRequiredTable => "missing required table"

/-- A text between double quotes, with nothing in it changed. -/
def quote (s : String) : String := "\"" ++ s ++ "\""

/-- The wording of the log: the cause, then the text that caused it and the mnemonic, each if it is
not empty. -/
def text (e : Error) : String :=
  e.kind.text
    ++ (if e.construct = "" then "" else ": " ++ quote e.construct)
    ++ (if e.mnemonic = "" then "" else " (in " ++ e.mnemonic ++ ")")

/-- The wording shown to the author of the source. -/
def explanation (e : Error) : String :=
  match e.kind with
  | .invalidRegister => "Expected register, got: " ++ quote e.construct
  | .numberOutOfRange =>
    "Immediate value " ++ quote e.construct ++ " is out of range for " ++ e.mnemonic
  | .unparseable => "Expected integer literal, got: " ++ quote e.construct
  | .invalidLabel => "Invalid label: " ++ quote e.construct
  | .undefinedSymbol => "Unresolved symbol name: " ++ quote e.construct
  | .unreachableBranchTarget =>
    "Label " ++ quote e.construct ++ " is too far away for " ++ e.mnemonic ++ ". Use j instead"
  | .unknownMnemonic => "Invalid instruction: " ++ quote e.mnemonic
  | .invalidArgumentCount =>
    "Invalid instruction format for " ++ e.mnemonic ++ "\nFormat: " ++ e.construct
  | .misalignedAddress | .duplicateName | .missingArgument | .missingRequiredTable => e.text

/-- The same rejection as part of the instruction `mnemonic`, unless it already names one. -/
def inInstruction (mnemonic : String) (e : Error) : Error :=
  if e.mnemonic = "" then { e with mnemonic } else e

@[simp]
theorem inInstruction_kind (mnemonic : String) (e : Error) :
    (e.inInstruction mnemonic).kind = e.kind := by
  rw [inInstruction]
  split <;> rfl

@[simp]
theorem inInstruction_construct (mnemonic : String) (e : Error) :
    (e.inInstruction mnemonic).construct = e.construct := by
  rw [inInstruction]
  split <;> rfl

end Error

/-- What ends an operation that may have to enlarge a table. -/
inductive Fault where
  /-- The input is rejected. -/
  | rejected (error : Error)
  /-- A table cannot be given the room it needs. -/
  | outOfMemory
deriving DecidableEq, Repr, Inhabited

namespace Fault

/-- The message of a table that cannot be given the room it needs. -/
def outOfMemoryMessage : String := "Error: allocation failed"

/-- The same fault as part of the instruction `mnemonic`. -/
def inInstruction (mnemonic : String) : Fault → Fault
  | .rejected e => .rejected (e.inInstruction mnemonic)
  | .outOfMemory => .outOfMemory

end Fault

end MipsAsm
