import MipsAsm.Json.Assembly
import MipsAsm.Server.Request

/-!
# Messages to an editor

A message to an editor is an `Outgoing`.  What an answer holds is kept apart from its JSON form,
which `Outgoing.toJson` gives.
-/

set_option autoImplicit false

namespace MipsAsm
namespace Server

/-- A piece of text to be put in place of a range. -/
structure Edit where
  /-- The range. -/
  range : Range
  /-- The text. -/
  newText : String
deriving DecidableEq, Repr, Inhabited

/-- What an answer holds. -/
inductive Answer where
  /-- Nothing. -/
  | nothing
  /-- What the server can do. -/
  | capabilities
  /-- All diagnostics of a document. -/
  | diagnostics (items : List Diagnostic)
  /-- What to show about a position. -/
  | hover (text : String)
  /-- Edits of a document. -/
  | edits (items : List Edit)
deriving DecidableEq, Repr, Inhabited

/-- Why a request cannot be answered. -/
inductive Refusal where
  /-- The server does not know the method. -/
  | unknownMethod (method : String)
  /-- The parameters are missing or do not fit. -/
  | invalidParams
deriving DecidableEq, Repr, Inhabited

/-- A message to an editor. -/
inductive Outgoing where
  /-- The answer to a request. -/
  | reply (id : Id) (answer : Answer)
  /-- The refusal of a request. -/
  | refuse (id : Id) (refusal : Refusal)
  /-- The diagnostics of a document. -/
  | publish (uri : String) (version : Int) (items : List Diagnostic)
  /-- The request to be asked before a document is saved. -/
  | register (id : Nat)
deriving DecidableEq, Repr, Inhabited

/-- The name under which the server introduces itself. -/
def serverName : String := "mipsasm"

namespace Edit

/-- The JSON form of an edit. -/
def toJson (e : Edit) : Json :=
  .object [("range", e.range.toJson), ("newText", .string e.newText)]

end Edit

namespace Answer

/-- The JSON form of an answer. -/
def toJson : Answer → Json
  | .nothing => .null
  | .capabilities =>
    .object
      [("capabilities",
          .object [("textDocumentSync", .nat 1), ("hoverProvider", .bool true)]),
        ("serverInfo", .object [("name", .string serverName)])]
  | .diagnostics items =>
    .object [("kind", .string "full"), ("items", .array (items.map Diagnostic.toJson))]
  | .hover text =>
    .object
      [("contents", .object [("kind", .string "markdown"), ("value", .string text)])]
  | .edits items => .array (items.map Edit.toJson)

end Answer

namespace Refusal

/-- The JSON form of a refusal. -/
def toJson : Refusal → Json
  | .unknownMethod method =>
    .object
      [("code", .int (-32601)), ("message", .string ("method not supported: " ++ method))]
  | .invalidParams =>
    .object
      [("code", .int (-32602)), ("message", .string ""), ("data", .string "invalid parameters")]

end Refusal

namespace Outgoing

/-- The parameters of the request to be asked before a document is saved. -/
def registration : Json :=
  .object
    [("registrations", .array
      [.object
        [("id", .string "textDocumentSync.willSaveWaitUntil"),
          ("method", .string "textDocument/willSaveWaitUntil"),
          ("registerOptions", .object
            [("documentSelector", .array
              [.object [("language", .string "mips"), ("scheme", .string "file")]])])]])]

/-- The JSON form of a message. -/
def toJson (message : Outgoing) : Json :=
  let members :=
    match message with
    | .reply id answer => [("id", id.toJson), ("result", answer.toJson)]
    | .refuse id refusal => [("id", id.toJson), ("error", refusal.toJson)]
    | .publish uri version items =>
      [("method", .string "textDocument/publishDiagnostics"),
        ("params", .object
          [("uri", .string uri), ("version", .int version),
            ("diagnostics", .array (items.map Diagnostic.toJson))])]
    | .register id =>
      [("id", .nat id), ("method", .string "client/registerCapability"),
        ("params", registration)]
  .object (("jsonrpc", .string "2.0") :: members)

end Outgoing
end Server
end MipsAsm
