import MipsAsm.Hover.Basic
import MipsAsm.Layout
import MipsAsm.Server.Outgoing
import MipsAsm.Server.Params
import MipsAsm.Text.Quoted

/-!
# The server for editors

The server keeps the text of each open document together with what the assembler makes of it.
`Server.receive` is one step: a request comes in, the documents change, and messages go out.
`Server.run` is a sequence of steps.

A document that was never opened, or that was closed, counts as empty.  Diagnostics are made anew
whenever they are asked for; what is shown about a position comes from the last time.

The server does not see JSON values on a stream but requests that have been read from them, and it
does not number or frame what it sends.  That is done by the connection it runs on, in
`MipsAsm.Server.Basic`.
-/

set_option autoImplicit false

namespace MipsAsm
namespace Server

/-- An open document. -/
structure Document where
  /-- Its text. -/
  text : String
  /-- What the assembler makes of it. -/
  assembly : Assembly

/-- What the server knows. -/
structure State where
  /-- The open documents by what identifies them. -/
  documents : Std.TreeMap String Document
  /-- How many requests the server has made. -/
  requests : Nat
  /-- Whether the editor has ended the connection. -/
  closed : Bool

/-- What the server knows at first. -/
def State.start : State := { documents := ∅, requests := 0, closed := false }

/-- What comes of a step. -/
structure Step where
  /-- What the server knows afterwards. -/
  state : State
  /-- The messages that go out. -/
  messages : List Outgoing
  /-- What is logged. -/
  log : List Log.Entry

namespace State

/-- The text of a document. -/
def textOf (s : State) (uri : String) : String :=
  match s.documents[uri]? with
  | some d => d.text
  | none => ""

/-- Assemble a text and keep it as the text of a document. -/
def keep (o : Options) (s : State) (uri text : String) : Option (State × Assembly) :=
  (assemble o text).map fun assembly ↦
    ({ s with documents := s.documents.insert uri { text, assembly } }, assembly)

end State

/-- A trace of the server. -/
def trace (text : String) : Log.Entry := .trace ("MIPS Language Server: " ++ text)

namespace Request

/-- The answer to a request.  A notification is answered as well. -/
def answer (r : Request) (a : Answer) : List Outgoing := [.reply r.id a]

/-- The refusal of a request.  A notification is not refused. -/
def refuse (r : Request) (refusal : Refusal) : List Outgoing :=
  if r.notification then [] else [.refuse r.id refusal]

end Request

/-! ## Steps for each method

Only two of these steps keep a document: taking over a new text, and being asked for diagnostics.
The layout before a save is made from a new assembly that is not kept, and what is shown about a
position from the one that was kept last. -/

/-- Introduce the server, and ask the editor to be asked before a document is saved.  The editor
gets that request after the answer; it may be sent on its own later, between other messages, and is
in the same step here. -/
def introduce (s : State) (r : Request) (client : ClientParams) : Step :=
  { state := { s with requests := s.requests + 1 }
    messages := r.answer .capabilities ++ [.register s.requests]
    log :=
      [trace ("client process " ++ Text.signedDecimal client.processId ++ ", root "
          ++ Text.quoted client.rootUri),
        trace "registering remaining capabilities"] }

/-- Take over a new text of a document and publish its diagnostics. -/
def update (o : Options) (s : State) (uri text : String) (version : Int) : Option Step :=
  (s.keep o uri text).map fun (s, assembly) ↦
    { state := s
      messages := [.publish uri version assembly.diagnostics.toList]
      log := assembly.log }

/-- Take over the last of the changes of a document.  Without a change there is nothing to do. -/
def change (o : Options) (s : State) (p : Params) : Option Step :=
  match p.contentChanges.items.getLast? with
  | none => some { state := s, messages := [], log := [] }
  | some text => update o s p.textDocument.uri text p.textDocument.version

/-- Forget a document. -/
def close (s : State) (uri : String) : Step :=
  { state := { s with documents := s.documents.erase uri }, messages := [], log := [] }

/-- Answer with the diagnostics of a document. -/
def diagnose (o : Options) (s : State) (r : Request) (uri : String) : Option Step :=
  (s.keep o uri (s.textOf uri)).map fun (s, assembly) ↦
    { state := s
      messages := r.answer (.diagnostics assembly.diagnostics.toList)
      log := assembly.log }

/-- Answer with what is shown about a position of a document. -/
def hover (s : State) (r : Request) (uri : String) (p : Position) : Step :=
  let (text, log) :=
    match s.documents[uri]? with
    | some d => d.assembly.hover p
    | none => (none, [])
  { state := s
    messages := r.answer ((text.map Answer.hover).getD .nothing)
    log }

/-- Answer with the edit that gives a document its uniform layout. -/
def beforeSave (o : Options) (s : State) (r : Request) (uri : String) : Option Step :=
  let text := s.textOf uri
  (assemble o text).map fun assembly ↦
    let edit : Edit :=
      { range := { start := { line := 0, character := 0 }, stop := endOfText text }
        newText := assembly.reformat }
    { state := s
      messages := r.answer (.edits [edit])
      log := assembly.log ++ [trace "reformatted document"] }

/-! ## One request

Parameters are read only once the method is known, and each method reads its own.  A request that
cannot be answered changes nothing. -/

/-- Refuse parameters that are missing or do not fit, and otherwise go on with them. -/
def withParams {α : Type} (s : State) (r : Request) (params : Option α)
    (next : α → Option Step) : Option Step :=
  match params with
  | none => some { state := s, messages := r.refuse .invalidParams, log := [] }
  | some p => next p

/-- The step for a request with a method the server knows. -/
def perform (o : Options) (s : State) (method : Method) (r : Request) : Option Step :=
  match method with
  | .introduction =>
    withParams s r (ClientParams.ofJson? r.params) fun p ↦ some (introduce s r p)
  | .didOpen =>
    withParams s r (Params.ofJson? Params.openSlots r.params) fun p ↦
      update o s p.textDocument.uri p.textDocument.text p.textDocument.version
  | .didClose =>
    withParams s r (Params.ofJson? Params.nameSlots r.params) fun p ↦
      some (close s p.textDocument.uri)
  | .didChange =>
    withParams s r (Params.ofJson? Params.changeSlots r.params) fun p ↦ change o s p
  | .diagnostic =>
    withParams s r (Params.ofJson? Params.nameSlots r.params) fun p ↦
      diagnose o s r p.textDocument.uri
  | .willSave =>
    withParams s r (Params.ofJson? Params.saveSlots r.params) fun p ↦
      beforeSave o s r p.textDocument.uri
  | .hover =>
    withParams s r (Params.ofJson? Params.positionSlots r.params) fun p ↦
      some (hover s r p.textDocument.uri p.position)
  | .shutdown => some { state := s, messages := r.answer .nothing, log := [] }
  | .exit => some { state := { s with closed := true }, messages := [], log := [] }

/-- The step for a request, but for the trace that it came in. -/
def handle (o : Options) (s : State) (r : Request) : Option Step :=
  match Method.ofName? r.method with
  | some m => perform o s m r
  | none => some { state := s, messages := r.refuse (.unknownMethod r.method), log := [] }

/-- The step for a request.  It is `none` if a table of the assembler runs out of room. -/
def receive (o : Options) (s : State) (r : Request) : Option Step :=
  (handle o s r).map fun step ↦
    { step with log := trace ("received request: " ++ r.method) :: step.log }

/-- The steps for a sequence of requests, one after the other. -/
def run (o : Options) (s : State) : List Request → Option (List Step)
  | [] => some []
  | r :: rest => do
    let step ← receive o s r
    let steps ← run o step.state rest
    return step :: steps

end Server
end MipsAsm
