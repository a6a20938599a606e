import MipsAsm.Assembly.Basic
import MipsAsm.Hover.Description

/-!
# What an editor shows about a position

`Assembly.hover` describes what stands at a position of an assembled source, as markdown: a label
that is defined there, an instruction with the words it became, or an operand.

A line that the first pass did not reach is described as if it had no label, since none was read.
-/

set_option autoImplicit false

namespace MipsAsm

/-- A text with backticks around it. -/
def codeSpan (s : String) : String := "`" ++ s ++ "`"

/-- An address as it is shown in a description. -/
def addressText (address : UInt32) : String := "Address of 0x" ++ Text.hexUpper address.toNat

/-- A field with its highest and its lowest bit. -/
def Field.description (f : Field) : String :=
  codeSpan f.name ++ " [" ++ Text.decimal (f.shift + f.width - 1) ++ ":" ++ Text.decimal f.shift
    ++ "]"

namespace Assembly

/-- The source line with a number, divided into label and body as the first pass did. -/
def line? (a : Assembly) (number : Nat) : Option Line :=
  a.source[number]?.map fun cs ↦
    if number < a.scan.lines then Line.read cs else Line.unlabelled cs

/-- The words that come from a source line, in the order of their addresses. -/
def placementsOnLine (a : Assembly) (number : Nat) : List Placement :=
  a.addressMap.values.filter (·.line == number)

/-- The description of a label where it is defined. -/
def describeLabel (name : String) (address : UInt32) : String :=
  "Definition of label " ++ codeSpan name ++ ".\n\n " ++ addressText address

/-- The description of the label that a line defines. -/
def describeDefinition (a : Assembly) (number : Nat) : Option String :=
  (a.scan.labelOnLine? number).map fun name ↦ describeLabel name ((a.labels.find? name).getD 0)

/-- The description of a pseudo-instruction: what it does, and its expansion if it has one. -/
def describePseudo (p : Pseudo) (args : List String) : String × List Log.Entry :=
  let i : Instruction := { mnemonic := p.name, args }
  match i.expand with
  | .error e => (p.description, [i.expansionReport e])
  | .ok is =>
    (p.description ++ "\n\nPseudo-instruction, expands to:\n\n```\n" ++ Instruction.listing is
      ++ "```", [])

/-- A word at its address. -/
def describePlacement (p : Placement) : String :=
  "\n\n" ++ codeSpan ("0x" ++ Text.hexWord p.address) ++ ": " ++ codeSpan (Text.hexWord p.word)

/-- The description of an instruction: what it does, how it is written and encoded, and the words it
became. -/
def describeInstruction (m : Mnemonic) (words : List Placement) : String :=
  m.description ++ "\n\n" ++ m.family.title ++ " instruction, format " ++ codeSpan m.family.format
    ++ "\n\nFields: " ++ ", ".intercalate (m.family.layout.map Field.description)
    ++ String.join (words.map describePlacement)

/-- The description of a mnemonic with its operands and the words of its line, and what is logged on
the way. -/
def describeMnemonic (name : String) (args : List String) (words : List Placement) :
    Option String × List Log.Entry :=
  match Pseudo.ofName? name with
  | some p =>
    let (text, log) := describePseudo p args
    (some text, log)
  | none => ((Mnemonic.ofName? name).map fun m ↦ describeInstruction m words, [])

/-- The description of a register operand. -/
def describeRegister (name : String) (r : Register) : String :=
  "Register " ++ codeSpan name ++ " (" ++ codeSpan ("$" ++ Text.decimal r.val) ++ "). "
    ++ r.description

/-- The description of an integer operand: its value, and its lowest 32 bits. -/
def describeInteger (value : Int) : String :=
  "Integer Literal " ++ codeSpan (Text.signedDecimal value) ++ " ("
    ++ codeSpan ("0x" ++ Text.hex (value % 4294967296).toNat) ++ ")"

/-- The number of relocation records of a name. -/
def relocationCount (a : Assembly) (name : String) : Nat :=
  a.relocations.entries.countP (·.name == name)

/-- The description of a name: the label that is defined, or the jumps that are left to be filled
in. -/
def describeName (a : Assembly) (name : String) : Option String :=
  let reference := "Reference to label " ++ codeSpan name ++ "\n\n"
  match a.labels.find? name with
  | some address => some (reference ++ addressText address)
  | none =>
    match a.relocationCount name with
    | 0 => none
    | n => some (reference ++ "Left for the linker; " ++ Text.decimal n ++ " relocation record(s)")

/-- The description of an operand. -/
def describeOperand (a : Assembly) (operand : String) : Option String :=
  match Register.ofName? operand with
  | some r => some (describeRegister operand r)
  | none =>
    match Literal.parse operand (-9223372036854775808) 9223372036854775807 with
    | .ok value => some (describeInteger value)
    | .error _ => a.describeName operand

/-- The description of the token that covers a byte of a line, from the words of the line. -/
def describeToken (a : Assembly) (words : List Placement) (tokens : List Text.Token)
    (character : Int) : Option String × List Log.Entry :=
  match tokens with
  | [] => (none, [])
  | first :: rest =>
    let covers (t : Text.Token) : Bool := t.start ≤ character && character < t.stop
    if covers first then
      describeMnemonic first.text (rest.map Text.Token.text) words
    else
      ((rest.find? covers).bind fun t ↦ a.describeOperand t.text, [])

/-- What is shown about a position, and what is logged on the way. -/
def hover (a : Assembly) (p : Position) : Option String × List Log.Entry :=
  match p.line with
  | .negSucc _ => (none, [])
  | .ofNat number =>
    match a.line? number with
    | none => (none, [])
    | some line =>
      if p.character < line.bodyStart then (a.describeDefinition number, [])
      else a.describeToken (a.placementsOnLine number) line.tokens p.character

end Assembly
end MipsAsm
