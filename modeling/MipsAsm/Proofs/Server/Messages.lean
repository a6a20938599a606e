import MipsAsm.Proofs.Json
import MipsAsm.Proofs.Lists
import MipsAsm.Server.Handler

/-!
# Messages read back

The server says what it sends in terms of `Outgoing`, and an editor gets the JSON form of that.
Here is the editor's side: `Outgoing.ofJson?` reads the JSON form, member by member and without
regard to how it was made.  It gives back the message, so nothing of an answer, an edit or a
diagnostic is lost or mixed up on the way.

* `Position.ofJson?_toJson`, `Range.ofJson?_toJson`, `Diagnostic.ofJson?_toJson` — the parts.
* `Server.Answer.ofJson?_toJson`, `Server.Refusal.ofJson?_toJson` — what an answer holds.
* `Server.Outgoing.ofJson?_toJson` — a whole message.
* `Server.Step.received`, `Server.Step.received_eq` — what an editor reads after a step.
-/

set_option autoImplicit false

namespace MipsAsm

/-! ## Values of one kind

A member of a message is looked up by its key, and then has to be a number, a text or a list. -/

namespace Json

/-- The integer that a value is. -/
def integerOf? : Json → Option Int
  | .number literal => integer? literal
  | _ => none

/-- The text that a value is. -/
def stringOf? : Json → Option String
  | .string s => some s
  | _ => none

/-- The items that a value has, each read in the same way. -/
def itemsOf? {α : Type} (read : Json → Option α) : Json → Option (List α)
  | .array items => items.mapM read
  | _ => none

@[simp]
theorem integerOf?_int (i : Int) : integerOf? (.int i) = some i := integer?_signedDecimal i

@[simp]
theorem integerOf?_nat (n : Nat) : integerOf? (.nat n) = some (n : Int) := integer?_decimal n

@[simp]
theorem stringOf?_string (s : String) : stringOf? (.string s) = some s := rfl

/-- A list is read back if each of its items is. -/
theorem itemsOf?_array {α : Type} {read : Json → Option α} {write : α → Json}
    (h : ∀ x, read (write x) = some x) (xs : List α) :
    itemsOf? read (.array (xs.map write)) = some xs := by
  have hall : xs.mapM (fun x ↦ read (write x)) = some (xs.map id) :=
    mapM_eq_some_map fun x _ ↦ h x
  rw [itemsOf?, List.mapM_map]
  rwa [List.map_id] at hall

end Json

/-! ## Diagnostics

Columns and lines are numbers of the JSON form, read with their sign, and a severity is one of two
codes. -/

/-- Read a position. -/
def Position.ofJson? (v : Json) : Option Position := do
  let line ← v.member? "line" >>= Json.integerOf?
  let character ← v.member? "character" >>= Json.integerOf?
  return { line, character }

/-- Read a range. -/
def Range.ofJson? (v : Json) : Option Range := do
  let start ← v.member? "start" >>= Position.ofJson?
  let stop ← v.member? "end" >>= Position.ofJson?
  return { start, stop }

/-- The severity that a number stands for. -/
def Severity.ofCode? (code : Int) : Option Severity :=
  if code = 1 then some .error else if code = 2 then some .warning else none

/-- Read a diagnostic. -/
def Diagnostic.ofJson? (v : Json) : Option Diagnostic := do
  let range ← v.member? "range" >>= Range.ofJson?
  let message ← v.member? "message" >>= Json.stringOf?
  let severity ← v.member? "severity" >>= Json.integerOf? >>= Severity.ofCode?
  return { range, message, severity }

@[simp]
theorem Position.ofJson?_toJson (p : Position) : ofJson? p.toJson = some p := by
  simp [ofJson?, toJson, Json.member?]

@[simp]
theorem Range.ofJson?_toJson (r : Range) : ofJson? r.toJson = some r := by
  simp [ofJson?, toJson, Json.member?]

@[simp]
theorem Severity.ofCode?_code (s : Severity) : ofCode? s.code = some s := by cases s <;> rfl

@[simp]
theorem Diagnostic.ofJson?_toJson (d : Diagnostic) : ofJson? d.toJson = some d := by
  simp [ofJson?, toJson, Json.member?]

namespace Server

/-! ## Answers

An answer has no mark that says to which request it belongs, so it is recognised by its form.  A
refusal has a code, and for an unknown method the name is behind a fixed text. -/

/-- Read an edit. -/
def Edit.ofJson? (v : Json) : Option Edit := do
  let range ← v.member? "range" >>= Range.ofJson?
  let newText ← v.member? "newText" >>= Json.stringOf?
  return { range, newText }

/-- Read what an answer holds.  The kinds of answers have no member in common. -/
def Answer.ofJson? (v : Json) : Option Answer :=
  match v with
  | .null => some .nothing
  | .array _ => (Json.itemsOf? Edit.ofJson? v).map .edits
  | v =>
    ((v.member? "contents" >>= Json.member? "value" >>= Json.stringOf?).map .hover).or
      (((v.member? "items" >>= Json.itemsOf? Diagnostic.ofJson?).map .diagnostics).or
        ((v.member? "capabilities").map fun _ ↦ .capabilities))

/-- What stands in front of the name of a method that the server does not know. -/
def unknownMethodText : List Char := "method not supported: ".toList

/-- Read why a request cannot be answered. -/
def Refusal.ofJson? (v : Json) : Option Refusal := do
  let code ← v.member? "code" >>= Json.integerOf?
  let message ← v.member? "message" >>= Json.stringOf?
  if code = -32601 ∧ unknownMethodText.isPrefixOf message.toList = true then
    return .unknownMethod (String.ofList (message.toList.drop unknownMethodText.length))
  else if code = -32602 then
    return .invalidParams
  else
    none

@[simp]
theorem Edit.ofJson?_toJson (e : Edit) : ofJson? e.toJson = some e := by
  simp [ofJson?, toJson, Json.member?]

/-- **What an answer holds is read back.** -/
@[simp]
theorem Answer.ofJson?_toJson (a : Answer) : ofJson? a.toJson = some a := by
  cases a with
  | nothing => rfl
  | capabilities => rfl
  | diagnostics items =>
    have hitems := Json.itemsOf?_array Diagnostic.ofJson?_toJson items
    simp [ofJson?, toJson, Json.member?, hitems]
  | hover text => simp [ofJson?, toJson, Json.member?]
  | edits items =>
    have hitems := Json.itemsOf?_array Edit.ofJson?_toJson items
    simp [ofJson?, toJson, hitems]

@[simp]
theorem Refusal.ofJson?_toJson (r : Refusal) : ofJson? r.toJson = some r := by
  cases r with
  | invalidParams => rfl
  | unknownMethod method =>
    have htext : ("method not supported: " ++ method).toList = unknownMethodText ++ method.toList :=
      String.toList_append
    simp [ofJson?, toJson, Json.member?, htext]

/-! ## Messages

Three kinds of messages are sent: responses, published diagnostics and the one request of the
server.  Those with a method are told apart by its name. -/

/-- Read an identifier. -/
def Id.ofJson? : Json → Option Id
  | .number literal => (Json.digitsValue? literal.toList).map .number
  | .string s => some (.text s)
  | _ => none

/-- Read the diagnostics of a document that are published. -/
def Outgoing.publishOfJson? (v : Json) : Option Outgoing := do
  let uri ← v.member? "uri" >>= Json.stringOf?
  let version ← v.member? "version" >>= Json.integerOf?
  let items ← v.member? "diagnostics" >>= Json.itemsOf? Diagnostic.ofJson?
  return .publish uri version items

/-- Read a message.  One with a method is the request of the server or tells something, and one
without is a response. -/
def Outgoing.ofJson? (v : Json) : Option Outgoing :=
  match v.member? "method" with
  | some method =>
    if method.stringOf? = some "textDocument/publishDiagnostics" then
      v.member? "params" >>= publishOfJson?
    else if method.stringOf? = some "client/registerCapability" then
      (v.member? "id" >>= Json.integerOf?).map fun n ↦ .register n.toNat
    else
      none
  | none => do
    let id ← v.member? "id" >>= Id.ofJson?
    match v.member? "result" with
    | some result => (Answer.ofJson? result).map (.reply id)
    | none => (v.member? "error" >>= Refusal.ofJson?).map (.refuse id)

@[simp]
theorem Id.ofJson?_toJson (id : Id) : ofJson? id.toJson = some id := by
  cases id with
  | number n => simp [ofJson?, toJson, Json.nat, Text.decimal, Json.digitsValue?_toDigits]
  | text s => rfl

/-- **A message is read back from its JSON form.** -/
theorem Outgoing.ofJson?_toJson (m : Outgoing) : ofJson? m.toJson = some m := by
  cases m with
  | reply id answer => simp [ofJson?, toJson, Json.member?]
  | refuse id refusal => simp [ofJson?, toJson, Json.member?]
  | publish uri version items =>
    have hitems := Json.itemsOf?_array Diagnostic.ofJson?_toJson items
    simp [ofJson?, publishOfJson?, toJson, Json.member?, hitems]
  | register n => simp [ofJson?, toJson, Json.member?]

/-- What an editor reads in the messages of a step. -/
def Step.received (step : Step) : List (Option Outgoing) :=
  step.messages.map fun m ↦ Outgoing.ofJson? m.toJson

theorem Step.received_eq (step : Step) : step.received = step.messages.map some :=
  List.map_congr_left fun m _ ↦ m.ofJson?_toJson

end Server
end MipsAsm
