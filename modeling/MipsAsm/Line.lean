import MipsAsm.Text.Blank
import MipsAsm.Instruction

/-!
# Source lines

A source line is an optional label, an optional instruction and an optional comment:

    label: mnemonic operand, operand  # comment

Everything from the first `#` on is comment.  In what is left, a label is whatever stands before
the first `:`, valid or not, and the body is what follows it.  Tokens of the body are divided by
blanks, commas and parentheses, so that `sw $t0, 0($sp)` has the tokens `sw`, `$t0`, `0`, `$sp`.

`Line.read` keeps the text of the label as it stands, and `Line.label?` and `Statement.parse` trim
it in two different ways: the assembler removes spaces, tabs and carriage returns, a statement read
on its own all blank characters.
-/

set_option autoImplicit false

namespace MipsAsm

/-- A source line without its comment. -/
structure Line where
  /-- What stands before the first colon, if there is a colon. -/
  labelText : Option (List Char)
  /-- What stands after the first colon, or the whole line if there is none. -/
  body : List Char
  /-- The byte offset at which the body starts. -/
  bodyStart : Nat
deriving DecidableEq, Repr, Inhabited

namespace Line

/-- The characters that divide tokens. -/
def isSeparator (c : Char) : Bool :=
  c == ' ' || c == '\t' || c == '\r' || c == '\x0c' || c == '\x0b' || c == ',' || c == '('
    || c == ')'

/-- The characters trimmed from the ends of a label and of the part of a line an error points at. -/
def isMargin (c : Char) : Bool := c == ' ' || c == '\t' || c == '\r'

/-- A line without its comment. -/
def code (cs : List Char) : List Char := cs.takeWhile (· != '#')

/-- A line that is all body, whatever colons it has. -/
def unlabelled (cs : List Char) : Line := { labelText := none, body := code cs, bodyStart := 0 }

/-- Divide a line into label and body. -/
def read (cs : List Char) : Line :=
  match Text.cut ':' (code cs) with
  | (before, some rest) =>
    { labelText := some before, body := rest, bodyStart := Text.byteLength before + 1 }
  | (_, none) => unlabelled cs

/-- The name the label part holds, together with the byte offset at which it starts. -/
def label? (l : Line) : Option Text.Token :=
  l.labelText.map fun cs ↦
    { text := String.ofList (Text.trim isMargin cs)
      start := Text.byteLength (cs.takeWhile isMargin) }

/-- The tokens of the body, with their byte offsets in the line. -/
def tokens (l : Line) : List Text.Token := Text.tokens isSeparator l.bodyStart l.body

/-- The body without margins, with the byte offset at which it starts. -/
def trimmedBody (l : Line) : Text.Token :=
  { text := String.ofList (Text.trim isMargin l.body)
    start := l.bodyStart + Text.byteLength (l.body.takeWhile isMargin) }

end Line

/-- What a single line says. -/
structure Statement where
  /-- The label, or the empty text. -/
  label : String
  /-- The instruction, if there is one. -/
  instruction : Option Instruction
deriving DecidableEq, Repr, Inhabited

/-- Read a line on its own.  The label is trimmed of all blank characters. -/
def Statement.parse (s : String) : Statement :=
  let line := Line.read s.toList
  { label :=
      match line.labelText with
      | some cs => String.ofList (Text.trim Text.isBlank cs)
      | none => ""
    instruction := Instruction.ofTokens? (Text.tokens Line.isSeparator 0 line.body) }

end MipsAsm
