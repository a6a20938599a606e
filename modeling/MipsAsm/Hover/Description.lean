import MipsAsm.Mnemonic
import MipsAsm.Pseudo
import MipsAsm.Register
import MipsAsm.Text.Basic

/-!
# Descriptions

What an editor shows about an instruction and about a register.
-/

set_option autoImplicit false

namespace MipsAsm

/-- What an instruction does. -/
def Mnemonic.description : Mnemonic → String
  | .addiu =>
    "Add Immediate Unsigned Instruction.\n\n" ++
    "Example: `addiu $t0, $t1, 40` is the same as `$t0 = $t1 + 40`\n\n" ++
    "Note that the immediate is a signed 16-bit value, so it must be between -32768 and " ++
    "32767."
  | .addu =>
    "Add Unsigned Instruction.\n\n" ++
    "Example: `addu $t0, $t1, $t2` is the same as `$t0 = $t1 + $t2`"
  | .beq =>
    "Branch Equal Instruction.\n\n" ++
    "Example: `beq $t0, $t1, loop` is the same as " ++
    Text.braced "`if $t0 == $t1 « goto loop »`\n\n" ++
    "The label must be within 32768 words of the next instruction."
  | .bne =>
    "Branch Not Equal Instruction.\n\n" ++
    "Example: `bne $t0, $t1, loop` is the same as " ++
    Text.braced "`if $t0 != $t1 « goto loop »`\n\n" ++
    "The label must be within 32768 words of the next instruction."
  | .div =>
    "Divide Instruction.\n\n" ++
    "Example: `div $t0, $t1` puts the quotient in `lo` and the remainder in `hi`"
  | .j =>
    "Jump Instruction.\n\n" ++
    "Example: `j loop` is the same as `goto loop`\n\n" ++
    "The target is filled in by the linker."
  | .jal =>
    "Jump and Link Instruction.\n\n" ++
    "Example: `jal func` is the same as `$ra = pc + 4; goto func`\n\n" ++
    "The target is filled in by the linker."
  | .jr =>
    "Jump Register Instruction.\n\n" ++
    "Example: `jr $ra` is the same as `pc = $ra`"
  | .lb =>
    "Load Byte Instruction.\n\n" ++
    "Example: `lb $t0, 4($sp)` is the same as `$t0 = mem[$sp + 4]`, sign extended"
  | .lbu =>
    "Load Byte Unsigned Instruction.\n\n" ++
    "Example: `lbu $t0, 4($sp)` is the same as `$t0 = mem[$sp + 4]`, zero extended"
  | .lui =>
    "Load Upper Immediate Instruction.\n\n" ++
    "Example: `lui $t0, 0x1234` is the same as `$t0 = 0x12340000`"
  | .lw =>
    "Load Word Instruction.\n\n" ++
    "Example: `lw $t0, 4($sp)` is the same as `$t0 = mem[$sp + 4]`"
  | .mfhi =>
    "Move From HI Instruction.\n\n" ++
    "Example: `mfhi $t0` is the same as `$t0 = hi`"
  | .mflo =>
    "Move From LO Instruction.\n\n" ++
    "Example: `mflo $t0` is the same as `$t0 = lo`"
  | .mult =>
    "Multiply Instruction.\n\n" ++
    "Example: `mult $t0, $t1` puts the 64-bit product in `hi` and `lo`"
  | .or =>
    "OR Instruction.\n\n" ++
    "Example: `or $t0, $t1, $t2` is the same as `$t0 = $t1 | $t2`"
  | .ori =>
    "OR Immediate Instruction.\n\n" ++
    "Example: `ori $t0, $t1, 0xFF` is the same as `$t0 = $t1 | 0xFF`\n\n" ++
    "Note that the immediate is an unsigned 16-bit value, so it must be between 0 and " ++
    "65535."
  | .sb =>
    "Store Byte Instruction.\n\n" ++
    "Example: `sb $t0, 4($sp)` is the same as `mem[$sp + 4] = $t0 & 0xFF`"
  | .sll =>
    "Shift Left Logical Instruction.\n\n" ++
    "Example: `sll $t0, $t1, 2` is the same as `$t0 = $t1 << 2`\n\n" ++
    "The shift amount must be between 0 and 31."
  | .slt =>
    "Set Less Than Instruction.\n\n" ++
    "Example: `slt $t0, $t1, $t2` sets `$t0` to `1` if `$t1 < $t2`, otherwise `0`"
  | .sltu =>
    "Set Less Than Unsigned Instruction.\n\n" ++
    "Example: `sltu $t0, $t1, $t2` sets `$t0` to `1` if `$t1 < $t2`, otherwise `0`\n\n" ++
    "Note that this is an unsigned comparison."
  | .sw =>
    "Store Word Instruction.\n\n" ++
    "Example: `sw $t0, 4($sp)` is the same as `mem[$sp + 4] = $t0`"
  | .xor =>
    "XOR Instruction.\n\n" ++
    "Example: `xor $t0, $t1, $t2` is the same as `$t0 = $t1 ^ $t2`"

/-- What a pseudo-instruction does. -/
def Pseudo.description : Pseudo → String
  | .li =>
    "Load Immediate.\n\n" ++
    "Example: `li $t0, 100000` is the same as `$t0 = 100000`"
  | .push =>
    "Push.\n\n" ++
    "Example: `push $t0` decrements `$sp` by 4 and stores `$t0` there"
  | .pop =>
    "Pop.\n\n" ++
    "Example: `pop $t0` loads `$t0` from `$sp` and increments `$sp` by 4"
  | .mod =>
    "Modulo.\n\n" ++
    "Example: `mod $t0, $t1, $t2` is the same as `$t0 = $t1 % $t2`"
  | .subu =>
    "Subtract Unsigned.\n\n" ++
    "Example: `subu $t0, $t1, $t2` is the same as `$t0 = $t1 - $t2`\n\n" ++
    "Note that this clobbers `$at`."

/-- What a register is used for.  Registers without a name have no description. -/
def Register.description (r : Register) : String :=
  if r.val = 0 then "Always evaluates to `0`"
  else if r.val = 1 then "Reserved for the assembler"
  else if r.val = 2 then "Function result"
  else if 4 ≤ r.val ∧ r.val ≤ 7 then "Function argument"
  else if 8 ≤ r.val ∧ r.val ≤ 11 then "Temporary, not preserved across calls"
  else if 16 ≤ r.val ∧ r.val ≤ 19 then "Saved, preserved across calls"
  else if r.val = 29 then "Stack pointer"
  else if r.val = 30 then "Frame pointer"
  else if r.val = 31 then "Return address"
  else ""

end MipsAsm
