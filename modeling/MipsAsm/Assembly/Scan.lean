import MipsAsm.Assembly.Options
import MipsAsm.Diagnostic
import MipsAsm.Label
import MipsAsm.Line
import MipsAsm.Pseudo

/-!
# The first pass

The first pass reads the source line by line.  It binds each label to the address of the next
instruction and replaces pseudo-instructions, so that what is left is a listing of instructions that
each have one word.  A line that cannot be expanded adds nothing to the listing.

`Scan` is what is known after some of the lines, and `Scan.ofLines` reads all of them.
-/

set_option autoImplicit false

namespace MipsAsm

/-! ## Ranges

An error has the text that caused it, but not where it stands.  It is searched for in the line,
which finds the first occurrence. -/

namespace Line

/-- The range of the body of a line, without its margins. -/
def bodyRange (l : Line) (number : Nat) : Range :=
  Range.onLine number l.trimmedBody.start l.trimmedBody.stop

/-- The range an error points at: the text that caused it where the body has it first, and
otherwise the whole body. -/
def errorRange (l : Line) (number : Nat) (e : Error) : Range :=
  if e.construct = "" then
    l.bodyRange number
  else
    match Text.find? e.construct.toList l.bodyStart l.body with
    | none => l.bodyRange number
    | some start => Range.onLine number start (start + e.construct.utf8ByteSize)

end Line

/-! ## The state of the first pass

The pass is a fold over the lines.  The state has everything that a later line can depend on or add
to: the address of the next instruction, the labels and the listing.  Want of room in the table of
labels ends it, which is why a step gives an `Option`. -/

/-- What the first pass knows after some lines. -/
structure Scan where
  /-- How many lines were read. -/
  lines : Nat
  /-- The address of the next instruction. -/
  address : UInt32
  /-- The labels defined so far. -/
  labels : SymbolTable
  /-- The line of each of them, in the same order. -/
  labelLines : Array (String × Nat)
  /-- The listing of the instructions so far. -/
  listing : String
  /-- The source line of each line of the listing. -/
  origins : Array Nat
  /-- What is wrong with the lines so far. -/
  diagnostics : Array Diagnostic
  /-- What was logged so far. -/
  log : Array Log.Entry

namespace Scan

/-- The state before the first line. -/
def start (base : UInt32) (labels : SymbolTable) : Scan :=
  { lines := 0, address := base, labels, labelLines := #[], listing := "", origins := #[]
    diagnostics := #[], log := #[] }

/-- Whether an error was found. -/
def hasErrors (s : Scan) : Bool := s.diagnostics.any Diagnostic.isError

/-- The line that defines a label. -/
def labelLine? (s : Scan) (name : String) : Option Nat :=
  (s.labelLines.find? (·.1 == name)).map Prod.snd

/-- The label that a line defines. -/
def labelOnLine? (s : Scan) (line : Nat) : Option String :=
  (s.labelLines.find? (·.2 == line)).map Prod.fst

/-- The diagnostic of a label that was not accepted into the table. -/
def labelDiagnostic (name : String) (e : Error) (range : Range) : Diagnostic :=
  if e.kind = .duplicateName then Diagnostic.duplicateLabel name range
  else Diagnostic.ofError e range

/-- Read the label of a line: bind it to the address of the next instruction. -/
def defineLabel (limit : Int) (s : Scan) (line : Line) : Option Scan :=
  match line.label? with
  | none => some s
  | some name =>
    let range := Range.onLine s.lines name.start name.stop
    if Label.isValid name.text then
      match s.labels.insert limit name.text s.address with
      | (labels, .ok ()) =>
        some { s with labels, labelLines := s.labelLines.push (name.text, s.lines) }
      | (labels, .error (.rejected e)) =>
        some { s with
          labels
          diagnostics := s.diagnostics.push (labelDiagnostic name.text e range)
          log := s.log ++ e.insertionReport?.toList }
      | (_, .error .outOfMemory) => none
    else
      some { s with
        diagnostics := s.diagnostics.push (Diagnostic.invalidSymbolName name.text range) }

/-- Whether a token is a directive. -/
def isDirective (token : String) : Bool := token.toList.head? == some '.'

/-- Read the instruction of a line: add its expansion to the listing.  A directive is skipped. -/
def readInstruction (s : Scan) (line : Line) : Scan :=
  match line.tokens with
  | [] => s
  | first :: rest =>
    if isDirective first.text then
      { s with
        diagnostics := s.diagnostics.push
          (Diagnostic.ignoredDirective first.text (Range.onLine s.lines first.start first.stop)) }
    else
      let i : Instruction := { mnemonic := first.text, args := rest.map Text.Token.text }
      match i.expand with
      | .error e =>
        { s with
          diagnostics := s.diagnostics.push (Diagnostic.ofError e (line.errorRange s.lines e))
          log := s.log.push (i.expansionReport e) }
      | .ok is =>
        { s with
          listing := s.listing ++ Instruction.listing is
          origins := s.origins ++ Array.replicate is.length s.lines
          address := s.address + 4 * UInt32.ofNat is.length }

/-- Read the next line, unless an error was found and that is where to stop. -/
def readLine (o : Options) (s : Scan) (cs : List Char) : Option Scan :=
  if o.stopOnFirstError && s.hasErrors then
    some s
  else do
    let line := Line.read cs
    let s ← s.defineLabel o.tableLimit line
    let s := s.readInstruction line
    return { s with lines := s.lines + 1 }

/-- What is traced at the end of the first pass. -/
def summary (s : Scan) : Log.Entry :=
  .trace ("pass one: " ++ Text.decimal s.origins.size ++ " instructions, "
    ++ Text.decimal s.labels.size ++ " labels")

/-- Read the lines of a source.  It is `none` if the table of labels runs out of room. -/
def ofLines (o : Options) (labels : SymbolTable) (lines : List (List Char)) : Option Scan :=
  lines.foldlM (readLine o) (start o.base labels)

end Scan
end MipsAsm
