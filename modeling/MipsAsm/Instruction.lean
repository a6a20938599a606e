import MipsAsm.Text.Basic

/-!
# Instructions

An instruction is a mnemonic and its operands, both still text.  `Instruction.line` writes it the
way the listing between the two passes shows it, and `Instruction.ofTokens?` reads one from the
tokens of a line.
-/

set_option autoImplicit false

namespace MipsAsm

/-- A mnemonic and its operands in order. -/
structure Instruction where
  /-- The mnemonic. -/
  mnemonic : String
  /-- The operands. -/
  args : List String
deriving DecidableEq, Repr, Inhabited

namespace Instruction

/-- The instruction whose mnemonic is the first token.  Without a token there is none. -/
def ofTokens? : List Text.Token → Option Instruction
  | [] => none
  | t :: rest => some { mnemonic := t.text, args := rest.map Text.Token.text }

/-- The line of an instruction in a listing, with its line feed: mnemonic and operands with one
space between each two. -/
def line (i : Instruction) : String := " ".intercalate (i.mnemonic :: i.args) ++ "\n"

/-- The listing of a sequence of instructions. -/
def listing (is : List Instruction) : String := String.join (is.map line)

end Instruction
end MipsAsm
