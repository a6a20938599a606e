/-!
# Bit fields of an instruction word

A `Field` is a named range of bits in a 32-bit word.  `Field.place` puts a value into the range and
`Field.extract` reads it back; `compose` builds a word from the values of several fields.

Shifts by 32 or more leave no bit, so that the three operations are defined for fields of any shift
and width.

* `Field.opcode`, `Field.rs`, … — the fields of the three word formats.
* `RType`, `IType`, `JType` — a word read in each of the formats.
-/

set_option autoImplicit false

namespace MipsAsm

/-- A named range of bits in a 32-bit word. -/
structure Field where
  /-- The name. -/
  name : String
  /-- The position of the lowest bit. -/
  shift : Nat
  /-- The number of bits. -/
  width : Nat
deriving DecidableEq, Repr, Inhabited

/-- A word moved up by `n` bits. -/
def shiftUp (w : UInt32) (n : Nat) : UInt32 := if n < 32 then ⟨w.toBitVec <<< n⟩ else 0

/-- A word moved down by `n` bits. -/
def shiftDown (w : UInt32) (n : Nat) : UInt32 := if n < 32 then ⟨w.toBitVec >>> n⟩ else 0

namespace Field

/-! ## The fields of the word formats

A word is read in one of three formats, which share the operation in the topmost bits and divide the
rest in different ways. -/

/-- The operation of a word. -/
def opcode : Field := { name := "opcode", shift := 26, width := 6 }

/-- The first source register. -/
def rs : Field := { name := "rs", shift := 21, width := 5 }

/-- The second source register, or the target of a word with an immediate. -/
def rt : Field := { name := "rt", shift := 16, width := 5 }

/-- The destination register. -/
def rd : Field := { name := "rd", shift := 11, width := 5 }

/-- The shift amount. -/
def shamt : Field := { name := "shamt", shift := 6, width := 5 }

/-- The function of a word whose operation is zero. -/
def funct : Field := { name := "funct", shift := 0, width := 6 }

/-- The immediate value. -/
def imm : Field := { name := "imm", shift := 0, width := 16 }

/-- The jump target. -/
def target : Field := { name := "target", shift := 0, width := 26 }

/-- The fields of all formats, from the lowest bit up. -/
def all : List Field := [funct, imm, target, shamt, rd, rt, rs, opcode]

/-! ## Placing and extracting

All fields of a word are treated alike, so that a family only has to name the ones it uses. -/

/-- As many ones as a field is wide, from the lowest bit up. -/
def ones (f : Field) : UInt32 := shiftUp 1 f.width - 1

/-- The bits a field occupies. -/
def mask (f : Field) : UInt32 := shiftUp f.ones f.shift

/-- The value, cut to the width of the field, at the place of the field. -/
def place (f : Field) (value : UInt32) : UInt32 := shiftUp (value &&& f.ones) f.shift

/-- The value of the field in a word. -/
def extract (f : Field) (word : UInt32) : UInt32 := shiftDown (word &&& f.mask) f.shift

end Field

/-- The word that holds each value in its field. -/
def compose (values : List (Field × UInt32)) : UInt32 :=
  values.foldl (fun word fv ↦ word ||| fv.1.place fv.2) 0

/-! ## Reading a word in a format -/

/-- A word of the register format. -/
structure RType where
  /-- The operation. -/
  opcode : UInt32
  /-- The first source register. -/
  rs : UInt32
  /-- The second source register. -/
  rt : UInt32
  /-- The destination register. -/
  rd : UInt32
  /-- The shift amount. -/
  shamt : UInt32
  /-- The function. -/
  funct : UInt32
deriving DecidableEq, Repr

/-- A word of the immediate format. -/
structure IType where
  /-- The operation. -/
  opcode : UInt32
  /-- The source register. -/
  rs : UInt32
  /-- The target register. -/
  rt : UInt32
  /-- The immediate value. -/
  imm : UInt32
deriving DecidableEq, Repr

/-- A word of the jump format. -/
structure JType where
  /-- The operation. -/
  opcode : UInt32
  /-- The jump target. -/
  target : UInt32
deriving DecidableEq, Repr

/-- Read a word in the register format. -/
def RType.ofWord (w : UInt32) : RType :=
  { opcode := Field.opcode.extract w
    rs := Field.rs.extract w
    rt := Field.rt.extract w
    rd := Field.rd.extract w
    shamt := Field.shamt.extract w
    funct := Field.funct.extract w }

/-- Read a word in the immediate format. -/
def IType.ofWord (w : UInt32) : IType :=
  { opcode := Field.opcode.extract w
    rs := Field.rs.extract w
    rt := Field.rt.extract w
    imm := Field.imm.extract w }

/-- Read a word in the jump format. -/
def JType.ofWord (w : UInt32) : JType :=
  { opcode := Field.opcode.extract w
    target := Field.target.extract w }

end MipsAsm
