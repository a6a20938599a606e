import MipsAsm.Json.Basic

/-!
# Requests of an editor

An editor asks for something or tells something.  Either way the server gets a `Request`: a method,
its parameters, and an identifier.  A notification is a request that is not to be answered.  It has
been given an identifier all the same, whatever it is, so the server has to look at
`Request.notification` to know that no answer is wanted.

How a request is read from a JSON value is no concern of the server; see `Incoming.ofJson`.
-/

set_option autoImplicit false

namespace MipsAsm
namespace Server

/-- The identifier of a request. -/
inductive Id where
  /-- A number. -/
  | number (n : Nat)
  /-- A text. -/
  | text (s : String)
deriving DecidableEq, Repr, Inhabited

/-- The JSON form of an identifier. -/
def Id.toJson : Id → Json
  | .number n => .nat n
  | .text s => .string s

/-- What an editor can ask for or tell. -/
inductive Method where
  /-- The connection begins. -/
  | introduction
  /-- A document was opened. -/
  | didOpen
  /-- A document was closed. -/
  | didClose
  /-- A document was changed. -/
  | didChange
  /-- Asks for the diagnostics of a document. -/
  | diagnostic
  /-- Asks for edits of a document that is about to be saved. -/
  | willSave
  /-- Asks what to show about a position. -/
  | hover
  /-- Asks whether the connection may end. -/
  | shutdown
  /-- The connection ends. -/
  | exit
deriving DecidableEq, Repr

namespace Method

/-- All methods. -/
def all : List Method :=
  [introduction, didOpen, didClose, didChange, diagnostic, willSave, hover, shutdown, exit]

/-- The name of a method. -/
def name : Method → String
  | introduction => "initialize"
  | didOpen => "textDocument/didOpen"
  | didClose => "textDocument/didClose"
  | didChange => "textDocument/didChange"
  | diagnostic => "textDocument/diagnostic"
  | willSave => "textDocument/willSaveWaitUntil"
  | hover => "textDocument/hover"
  | shutdown => "shutdown"
  | exit => "exit"

/-- The method with a name. -/
def ofName? (name : String) : Option Method := all.find? (·.name == name)

end Method

/-- A request or a notification, as the server gets it. -/
structure Request where
  /-- The identifier that an answer goes out under. -/
  id : Id
  /-- Whether it is a notification. -/
  notification : Bool
  /-- The name of the method, which the server may not know. -/
  method : String
  /-- The parameters, which may be missing. -/
  params : Option Json

end Server
end MipsAsm
