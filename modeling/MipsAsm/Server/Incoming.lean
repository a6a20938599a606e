import MipsAsm.Json.Record
import MipsAsm.Literal
import MipsAsm.Server.Request
import MipsAsm.Text.Basic
import MipsAsm.Text.Quoted

/-!
# Reading messages from an editor

On a connection, a JSON value is a request or a notification, which is handed to the server, or a
response to a request of the server.  `Incoming.ofJson` tells them apart.  The rules are those of
the JSON-RPC layer below the server, down to the wording of what is wrong with a value.  The program
needs them to run; what the server does with a request does not depend on them.

A message is read in two rounds.  The first decides its kind: a message with a method is a request
or a notification, and one with a result or an error is a response.  The second reads the parts of
that kind.  The keys of a response count up to case, as they do in the first round, while those of a
request have to be exact.
-/

set_option autoImplicit false

namespace MipsAsm
namespace Server

/-! ## Identifiers

A request and a response do not have the same identifiers: negative numbers are accepted in the one
and not in the other, and only a response may have `null` for one. -/

namespace Id

/-- How an identifier is shown in the log. -/
def shown : Id → String
  | .number n => Text.decimal n
  | .text s => Text.quoted s

/-- The identifier that a number stands for in a request.  Negative numbers count modulo 2 ^ 64. -/
def ofNumber? (literal : String) : Option Id :=
  (Json.int64? literal).map fun i ↦ .number (i % 18446744073709551616).toNat

/-- The identifier of a response. -/
def ofResponse? : Json → Option Id
  | .null => some (.number 0)
  | .string s => some (.text s)
  | .number literal =>
    match Json.digitsValue? literal.toList with
    | some n => if n < 18446744073709551616 then some (.number n) else none
    | none => none
  | _ => none

end Id

/-! ## What is wrong with a message -/

/-- Why a JSON value is no message. -/
inductive Malformed where
  /-- It is of no kind, or of two. -/
  | undecided
  /-- It is a request whose method is not under the exact key. -/
  | methodMissing
  /-- It is a request whose identifier is no integer of 64 bits. -/
  | numberAsId (literal : String)
  /-- It is a request whose identifier is neither a number nor a text. -/
  | unfitId (type : String)
  /-- A part of it does not fit. -/
  | mismatch
deriving DecidableEq, Repr

/-- Why a literal is no integer of 64 bits: it is not written as an integer, or it is too large.
The one that is met first from the left counts. -/
def integerProblem (literal : String) : String :=
  match Literal.readDigits 10 0 (Literal.splitSign literal.toList).2 with
  | .error .unparseable => "invalid syntax"
  | _ => "value out of range"

/-- The wording of what is wrong with a message. -/
def Malformed.text : Malformed → String
  | .undecided => "jsonrpc2: unable to determine message type (request or response)"
  | .methodMissing => "missing method field"
  | .numberAsId literal =>
    "failed to unmarshal ID: strconv.ParseInt: parsing " ++ Text.quoted literal ++ ": "
      ++ integerProblem literal
  | .unfitId type => "unexpected ID type: " ++ type
  | .mismatch => "a value does not fit its field"

/-! ## Messages

The first round collects marks from the members of the value, where one that does not fit ends the
reading. -/

/-- A message from an editor. -/
inductive Incoming where
  /-- A request or a notification. -/
  | call (request : Request)
  /-- A response to a request of the server. -/
  | response (id : Id)

namespace Incoming

/-- What decides the kind of a message. -/
structure Marks where
  /-- The method, if it is not `null`. -/
  method : Option String := none
  /-- Whether there is a result. -/
  hasResult : Bool := false
  /-- Whether there is an error that is not `null`. -/
  hasError : Bool := false
deriving DecidableEq, Repr, Inhabited

namespace Marks

/-- Store the method. -/
def storeMethod : Json → Marks → Option Marks
  | .null, m => some { m with method := none }
  | .string s, m => some { m with method := some s }
  | _, _ => none

/-- Store that there is a result, also if it is `null`. -/
def storeResult (v : Json) (m : Marks) : Option Marks :=
  if v.numbersFit then some { m with hasResult := true } else none

/-- Store whether there is an error. -/
def storeError (v : Json) (m : Marks) : Option Marks :=
  match v with
  | .null => some { m with hasError := false }
  | v => if v.numbersFit then some { m with hasError := true } else none

/-- The members that are looked at to decide the kind of a message. -/
def slots : List (Json.Slot Marks) :=
  [{ key := "id", store := fun v m ↦ if v.numbersFit then some m else none },
    { key := "method", store := storeMethod },
    { key := "result", store := storeResult },
    { key := "error", store := storeError }]

/-- Whether the marks are those of a response. -/
def isResponse (m : Marks) : Bool := m.hasResult || m.hasError

end Marks

/-- How the values of an array or an object are named where their type is reported. -/
def anyValue : String := Text.braced "interface «»"

/-- The identifier of a request that has one.  It may also be `null`, as if it were missing. -/
def requestId : Option Json → Except Malformed (Option Id)
  | none | some .null => .ok none
  | some (.bool _) => .error (.unfitId "bool")
  | some (.array _) => .error (.unfitId ("[]" ++ anyValue))
  | some (.object _) => .error (.unfitId ("map[string]" ++ anyValue))
  | some (.string s) => .ok (some (.text s))
  | some (.number literal) =>
    match Id.ofNumber? literal with
    | some id => .ok (some id)
    | none => .error (.numberAsId literal)

/-- Read a request or a notification.  A notification has the identifier zero.  The members of the
parameters are taken in the order of their keys. -/
def readCall (v : Json) : Except Malformed Incoming :=
  match v.member? "method" with
  | some (.string method) =>
    (requestId (v.member? "id")).map fun id ↦
      .call
        { id := id.getD (.number 0)
          notification := id.isNone
          method
          params := (v.member? "params").map Json.sorted }
  | _ => .error .methodMissing

/-- The members of the error of a response that have to fit. -/
def errorSlots : List (Json.Slot Unit) :=
  [{ key := "code", store := Json.storeInt fun _ u ↦ u },
    { key := "message", store := Json.storeString fun _ u ↦ u }]

/-- The members of a response that have to fit.  Of what is stored, only the identifier is kept. -/
def responseSlots : List (Json.Slot Id) :=
  [{ key := "id", store := fun v _ ↦ Id.ofResponse? v },
    { key := "error", store := fun v id ↦ (Json.storeRecord errorSlots () v).map fun _ ↦ id }]

/-- Read a response.  One without an identifier has the identifier zero. -/
def readResponse (v : Json) : Except Malformed Incoming :=
  match Json.storeRecord responseSlots (.number 0) v with
  | some id => .ok (.response id)
  | none => .error .mismatch

/-- The message that a JSON value stands for. -/
def ofJson (v : Json) : Except Malformed Incoming :=
  match Json.storeRecord Marks.slots {} v with
  | none => .error .mismatch
  | some marks =>
    match marks.method.isSome, marks.isResponse with
    | true, false => readCall v
    | false, true => readResponse v
    | _, _ => .error .undecided

end Incoming
end Server
end MipsAsm
