import MipsAsm.Json.Assembly
import MipsAsm.Json.Reader
import MipsAsm.Json.Record

/-!
# Messages of the page

The page sends the source as a JSON object and receives what the assembler makes of it.
-/

set_option autoImplicit false

namespace MipsAsm
namespace Web

/-- A message of the page. -/
structure Message where
  /-- What is asked for. -/
  type : String := ""
  /-- The source. -/
  source : String := ""
deriving DecidableEq, Repr, Inhabited

/-- Read a message of the page. -/
def Message.parse? (text : String) : Option Message := do
  let v ← Json.parse? text
  Json.storeRecord
    [{ key := "type", store := Json.storeString fun v m ↦ { m with type := v } },
      { key := "source", store := Json.storeString fun v m ↦ { m with source := v } }] {} v

/-- The answer to a message of the page. -/
inductive Reply where
  /-- What the assembler makes of the source. -/
  | result (assembly : Assembly)
  /-- What is asked for is not known. -/
  | unknownType (type : String)
  /-- The message cannot be read. -/
  | invalid

/-- The answer to a message.  It is `none` if a table of the assembler runs out of room. -/
def reply (o : Options) (text : String) : Option Reply :=
  match Message.parse? text with
  | none => some .invalid
  | some m =>
    if m.type = "assemble" then (assemble o m.source).map .result
    else some (.unknownType m.type)

namespace Reply

/-- The JSON form of a failure. -/
def failure (text : String) : Json :=
  .object [("type", .string "error"), ("text", .string text)]

/-- The JSON form of an answer. -/
def toJson : Reply → Json
  | .result a =>
    .object
      [("type", .string "result"), ("passOne", .string a.listing), ("hex", .string a.hexText),
        ("labels", a.labels.toJson), ("relocations", a.relocations.toJson),
        ("diagnostics", a.diagnosticsJson)]
  | .unknownType type => failure ("unknown message type: " ++ type)
  | .invalid => failure "invalid message"

end Reply
end Web
end MipsAsm
