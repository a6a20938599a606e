import MipsAsm.Instruction
import MipsAsm.Literal
import MipsAsm.Log
import MipsAsm.Sink
import MipsAsm.Text.Digits

/-!
# Pseudo-instructions

A pseudo-instruction has no word of its own and stands for one to four instructions that have.
`Instruction.expand` replaces it by them and leaves every other instruction alone.  Registers and
labels are not checked here: the encoder does that for the instructions that come out.
-/

set_option autoImplicit false

namespace MipsAsm

/-- The pseudo-instructions. -/
inductive Pseudo where
  /-- Load a constant into a register. -/
  | li
  /-- Store a register at a new top of the stack. -/
  | push
  /-- Load a register from the top of the stack and remove it there. -/
  | pop
  /-- The remainder of a division. -/
  | mod
  /-- The difference of two registers. -/
  | subu
deriving DecidableEq, Repr

namespace Pseudo

/-- All pseudo-instructions. -/
def all : List Pseudo := [li, push, pop, mod, subu]

/-- How a pseudo-instruction is written. -/
def name : Pseudo → String
  | li => "li"
  | push => "push"
  | pop => "pop"
  | mod => "mod"
  | subu => "subu"

/-- The pseudo-instruction that is written `name`. -/
def ofName? (name : String) : Option Pseudo := all.find? (·.name == name)

/-- The number of operands. -/
def arity : Pseudo → Nat
  | push | pop => 1
  | li => 2
  | mod | subu => 3

/-- The instructions that load the constant `value`, written `literal`, into `rd`.  A value below
65536 is left to `addiu`, also where its range is smaller than that. -/
def loadConstant (rd literal : String) (value : Int) : List Instruction :=
  if value < 65536 then
    [{ mnemonic := "addiu", args := [rd, "$0", literal] }]
  else
    [{ mnemonic := "lui", args := ["$at", Text.decimal (value.toNat / 65536)] },
      { mnemonic := "ori", args := [rd, "$at", Text.decimal (value.toNat % 65536)] }]

/-- The instructions a pseudo-instruction with the given operands stands for. -/
def expand : Pseudo → List String → Except Error (List Instruction)
  | .li, [rd, literal] =>
    match Literal.parse literal (-2147483648) 4294967295 with
    | .error e => .error (e.inInstruction "li")
    | .ok value => .ok (loadConstant rd literal value)
  | .push, [r] =>
    .ok [{ mnemonic := "addiu", args := ["$sp", "$sp", "-4"] },
      { mnemonic := "sw", args := [r, "0($sp)"] }]
  | .pop, [r] =>
    .ok [{ mnemonic := "lw", args := [r, "0($sp)"] },
      { mnemonic := "addiu", args := ["$sp", "$sp", "4"] }]
  | .mod, [rd, rs, rt] =>
    .ok [{ mnemonic := "div", args := [rs, rt] },
      { mnemonic := "mfhi", args := [rd] }]
  | .subu, [rd, rs, rt] =>
    -- `rs - rt` is `rs + (not rt + 1)`
    .ok [{ mnemonic := "addiu", args := ["$at", "$0", "-1"] },
      { mnemonic := "xor", args := ["$at", "$at", rt] },
      { mnemonic := "addiu", args := ["$at", "$at", "1"] },
      { mnemonic := "addu", args := [rd, rs, "$at"] }]
  | p, _ =>
    .error
      { kind := .invalidArgumentCount
        mnemonic := p.name
        construct := Text.decimal p.arity ++ " arguments" }

end Pseudo

namespace Instruction

/-- The instructions with words of their own that an instruction stands for.  An instruction that is
no pseudo-instruction stands for itself. -/
def expand (i : Instruction) : Except Error (List Instruction) :=
  if i.mnemonic = "" ∨ "" ∈ i.args then
    .error { kind := .missingArgument, mnemonic := i.mnemonic, construct := "" }
  else
    match Pseudo.ofName? i.mnemonic with
    | none => .ok [i]
    | some p => p.expand i.args

/-- What the log says of an instruction that cannot be expanded. -/
def expansionReport (i : Instruction) (e : Error) : Log.Entry :=
  .report ("Error: could not expand " ++ i.mnemonic ++ ": " ++ e.text)

/-- What became of writing the expansion of an instruction. -/
structure WrittenExpansion where
  /-- The sink afterwards. -/
  sink : Sink
  /-- How many instructions were written.  It is zero unless all of them were. -/
  count : Nat
  /-- The rejection, if the instruction cannot be expanded. -/
  rejection : Option Error
  /-- Whether the sink refused a part of the text. -/
  sinkFull : Bool
  /-- What is logged. -/
  log : List Log.Entry

/-- Write the listing of the expansion of an instruction, in one write. -/
def writeExpansion (i : Instruction) (sink : Sink) : WrittenExpansion :=
  match i.expand with
  | .error e =>
    { sink, count := 0, rejection := some e, sinkFull := false, log := [i.expansionReport e] }
  | .ok is =>
    let written := sink.write (listing is)
    { sink := written.sink
      count := if written.complete then is.length else 0
      rejection := none
      sinkFull := !written.complete
      log := [] }

end Instruction
end MipsAsm
