import MipsAsm.Error

/-!
# Diagnostics

A diagnostic tells the author of a source what is wrong with a range of it.  Positions count lines
from zero and characters in bytes of the UTF-8 form.  They are integers, since clients may ask about
positions that no text has.
-/

set_option autoImplicit false

namespace MipsAsm

/-- A place in a text. -/
structure Position where
  /-- The line, counted from zero. -/
  line : Int
  /-- The byte offset in the line. -/
  character : Int
deriving DecidableEq, Repr, Inhabited

/-- The part of a text from one position up to another. -/
structure Range where
  /-- The position of the first byte. -/
  start : Position
  /-- The position after the last byte. -/
  stop : Position
deriving DecidableEq, Repr, Inhabited

/-- The bytes from `start` up to `stop` of one line. -/
def Range.onLine (line start stop : Nat) : Range :=
  { start := { line, character := start }, stop := { line, character := stop } }

/-- How grave a diagnostic is. -/
inductive Severity where
  /-- The text cannot be assembled. -/
  | error
  /-- A part of the text has no effect. -/
  | warning
deriving DecidableEq, Repr, Inhabited

/-- The number that stands for a severity in messages to clients. -/
def Severity.code : Severity → Nat
  | .error => 1
  | .warning => 2

/-- A message about a range of a text. -/
structure Diagnostic where
  /-- The range. -/
  range : Range
  /-- The message. -/
  message : String
  /-- How grave it is. -/
  severity : Severity
deriving DecidableEq, Repr, Inhabited

namespace Diagnostic

/-- The name diagnostics give as their source. -/
def source : String := "Assembler"

/-- Whether a diagnostic is an error. -/
def isError (d : Diagnostic) : Bool := d.severity == .error

/-- The diagnostic of a message that is an error. -/
def failure (message : String) (range : Range) : Diagnostic :=
  { range, message, severity := .error }

/-- The diagnostic of a rejection. -/
def ofError (e : Error) (range : Range) : Diagnostic := failure e.explanation range

/-- A label that is no label name. -/
def invalidSymbolName (name : String) (range : Range) : Diagnostic :=
  failure ("Invalid symbol name: " ++ Error.quote name ++ ", symbol names must start with a letter "
    ++ "or underscore and contain only alphanumeric characters and underscores") range

/-- A label that an earlier line defines. -/
def duplicateLabel (name : String) (range : Range) : Diagnostic :=
  failure ("Label " ++ Error.quote name ++ " already exists") range

/-- A directive, which has no effect. -/
def ignoredDirective (name : String) (range : Range) : Diagnostic :=
  { range, message := "Directive " ++ Error.quote name ++ " is ignored", severity := .warning }

end Diagnostic
end MipsAsm
