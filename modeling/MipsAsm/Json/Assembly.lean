import MipsAsm.Assembly.Basic
import MipsAsm.Json.Basic

/-!
# JSON forms of what the assembler finds

Clients receive symbols, positions, ranges and diagnostics in these forms.
-/

set_option autoImplicit false

namespace MipsAsm

/-- A symbol as an object. -/
def Symbol.toJson (s : Symbol) : Json :=
  .object [("name", .string s.name), ("addr", .word s.address)]

/-- The entries of a table as an array of objects. -/
def SymbolTable.toJson (t : SymbolTable) : Json :=
  .array (t.entries.toList.map Symbol.toJson)

/-- A position as an object. -/
def Position.toJson (p : Position) : Json :=
  .object [("line", .int p.line), ("character", .int p.character)]

/-- A range as an object. -/
def Range.toJson (r : Range) : Json :=
  .object [("start", r.start.toJson), ("end", r.stop.toJson)]

/-- A diagnostic as an object. -/
def Diagnostic.toJson (d : Diagnostic) : Json :=
  .object
    [("range", d.range.toJson), ("message", .string d.message), ("source", .string source),
      ("severity", .nat d.severity.code)]

/-- All diagnostics of a source as an array of objects. -/
def Assembly.diagnosticsJson (a : Assembly) : Json :=
  .array (a.diagnostics.toList.map Diagnostic.toJson)

end MipsAsm
