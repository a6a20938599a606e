import MipsAsm.Word.Field

/-!
# Mnemonics and their families

A `Mnemonic` is an instruction that has a word of its own.  Mnemonics with the same operands and the
same word format form a `Family`, which says what is in each operand position (`Family.operands`)
and which fields make up the word (`Family.layout`).  All that is left to the mnemonic is its code,
the value of the one field that tells it from the rest of the instruction set.
-/

set_option autoImplicit false

namespace MipsAsm

/-! ## Families

All that instructions have in common is said here once: what may stand in an operand position, in
which order operands are written, and where they go in the word.  The bounds of a number belong to
the position and not to the field, since the same field is read with a sign in one family and
without in another. -/

/-- What an operand position holds. -/
inductive Operand where
  /-- A register, whose number goes into the field. -/
  | register (field : Field)
  /-- An integer literal from `lower` to `upper`, whose value goes into the field. -/
  | number (field : Field) (lower upper : Int)
  /-- A label near the instruction, whose distance in words goes into the immediate field. -/
  | branchTarget
  /-- A label whose address is filled in later; the target field stays zero. -/
  | jumpTarget
deriving DecidableEq, Repr

/-- The field an operand fills. -/
def Operand.field : Operand → Field
  | .register f => f
  | .number f _ _ => f
  | .branchTarget => Field.imm
  | .jumpTarget => Field.target

/-- Whether an operand is a register. -/
def Operand.isRegister : Operand → Bool
  | .register _ => true
  | .number _ _ _ | .branchTarget | .jumpTarget => false

/-- A signed 16-bit number. -/
def Operand.signedImmediate : Operand := .number Field.imm (-32768) 32767

/-- An unsigned 16-bit number. -/
def Operand.unsignedImmediate : Operand := .number Field.imm 0 65535

/-- A group of instructions with the same operands and the same word format. -/
inductive Family where
  /-- Three registers. -/
  | threeRegister
  /-- A shift by a constant. -/
  | shift
  /-- A jump to the address in a register. -/
  | jumpRegister
  /-- Arithmetic with a signed constant. -/
  | addImmediate
  /-- Logic with an unsigned constant. -/
  | orImmediate
  /-- A constant put into the upper half of a register. -/
  | loadUpper
  /-- A load or a store. -/
  | memory
  /-- A conditional branch. -/
  | branch
  /-- A jump to a label. -/
  | jump
  /-- A multiplication or a division. -/
  | multiplyDivide
  /-- A move from one of the two result registers of the former. -/
  | moveFromResult
deriving DecidableEq, Repr

namespace Family

/-- The name of the word format shown to the author of a source. -/
def title : Family → String
  | .threeRegister | .multiplyDivide | .moveFromResult => "R-type"
  | .shift => "Shift"
  | .jumpRegister => "Jump register"
  | .addImmediate | .orImmediate | .loadUpper => "I-type"
  | .memory => "Memory"
  | .branch => "Branch"
  | .jump => "J-type"

/-- How an instruction of the family is written. -/
def format : Family → String
  | .threeRegister => "<opcode> <rd> <rs> <rt>"
  | .shift => "<opcode> <rd> <rt> <shamt>"
  | .jumpRegister => "<opcode> <rs>"
  | .addImmediate | .orImmediate => "<opcode> <rt> <rs> <imm>"
  | .loadUpper => "<opcode> <rt> <imm>"
  | .memory => "<opcode> <rt> <imm>(<rs>)"
  | .branch => "<opcode> <rs> <rt> <label>"
  | .jump => "<opcode> <label>"
  | .multiplyDivide => "<opcode> <rs> <rt>"
  | .moveFromResult => "<opcode> <rd>"

/-- The operands in the order they are written. -/
def operands : Family → List Operand
  | .threeRegister => [.register Field.rd, .register Field.rs, .register Field.rt]
  | .shift => [.register Field.rd, .register Field.rt, .number Field.shamt 0 31]
  | .jumpRegister => [.register Field.rs]
  | .addImmediate => [.register Field.rt, .register Field.rs, .signedImmediate]
  | .orImmediate => [.register Field.rt, .register Field.rs, .unsignedImmediate]
  | .loadUpper => [.register Field.rt, .unsignedImmediate]
  | .memory => [.register Field.rt, .signedImmediate, .register Field.rs]
  | .branch => [.register Field.rs, .register Field.rt, .branchTarget]
  | .jump => [.jumpTarget]
  | .multiplyDivide => [.register Field.rs, .register Field.rt]
  | .moveFromResult => [.register Field.rd]

/-- The number of operands. -/
def arity (f : Family) : Nat := f.operands.length

/-- The field that holds the code of the mnemonic. -/
def codeField : Family → Field
  | .threeRegister | .shift | .jumpRegister | .multiplyDivide | .moveFromResult => Field.funct
  | .addImmediate | .orImmediate | .loadUpper | .memory | .branch | .jump => Field.opcode

/-- The fields a word of the family is built from, from the lowest bit up.  The other bits of the
word are zero. -/
def layout (f : Family) : List Field :=
  Field.all.filter fun field ↦ field == f.codeField || f.operands.any (·.field == field)

end Family

/-! ## Mnemonics

A mnemonic adds its name, its family and its code.  Two codes may be the same if they go into
different fields: `sltu` and `sw` have the same code. -/

/-- An instruction that has a word of its own. -/
inductive Mnemonic where
  | addiu | addu | beq | bne | div | j | jal | jr | lb | lbu | lui | lw | mfhi | mflo | mult | or
  | ori | sb | sll | slt | sltu | sw | xor
deriving DecidableEq, Repr

namespace Mnemonic

/-- All mnemonics, sorted by name. -/
def all : List Mnemonic :=
  [addiu, addu, beq, bne, div, j, jal, jr, lb, lbu, lui, lw, mfhi, mflo, mult, or,
    ori, sb, sll, slt, sltu, sw, xor]

/-- How a mnemonic is written. -/
def name : Mnemonic → String
  | addiu => "addiu"
  | addu => "addu"
  | beq => "beq"
  | bne => "bne"
  | div => "div"
  | j => "j"
  | jal => "jal"
  | jr => "jr"
  | lb => "lb"
  | lbu => "lbu"
  | lui => "lui"
  | lw => "lw"
  | mfhi => "mfhi"
  | mflo => "mflo"
  | mult => "mult"
  | or => "or"
  | ori => "ori"
  | sb => "sb"
  | sll => "sll"
  | slt => "slt"
  | sltu => "sltu"
  | sw => "sw"
  | xor => "xor"

/-- The mnemonic that is written `name`. -/
def ofName? (name : String) : Option Mnemonic := all.find? (·.name == name)

/-- The family of a mnemonic. -/
def family : Mnemonic → Family
  | addu | or | slt | sltu | xor => .threeRegister
  | sll => .shift
  | jr => .jumpRegister
  | addiu => .addImmediate
  | ori => .orImmediate
  | lui => .loadUpper
  | lb | lbu | lw | sb | sw => .memory
  | beq | bne => .branch
  | j | jal => .jump
  | mult | div => .multiplyDivide
  | mfhi | mflo => .moveFromResult

/-- The value of the code field of the family. -/
def code : Mnemonic → UInt32
  | sll => 0x00
  | jr => 0x08
  | mfhi => 0x10
  | mflo => 0x12
  | mult => 0x18
  | div => 0x1a
  | addu => 0x21
  | or => 0x25
  | xor => 0x26
  | slt => 0x2a
  | sltu => 0x2b
  | j => 0x02
  | jal => 0x03
  | beq => 0x04
  | bne => 0x05
  | addiu => 0x09
  | ori => 0x0d
  | lui => 0x0f
  | lb => 0x20
  | lw => 0x23
  | lbu => 0x24
  | sb => 0x28
  | sw => 0x2b

@[simp]
theorem ofName?_name (m : Mnemonic) : ofName? m.name = some m := by cases m <;> decide

end Mnemonic
end MipsAsm
