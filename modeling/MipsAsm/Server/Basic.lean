import MipsAsm.Server.Handler
import MipsAsm.Server.Incoming

/-!
# The server on a connection

A connection reads JSON values, hands the requests among them to the server and keeps track of the
responses to the requests of the server.  A value that is no message ends it, and after its end
nothing happens any more.

All of that is done by the JSON-RPC layer below the server and is here for the program to run on.
What the server answers is said of `Server.receive`, whatever the connection does besides.
-/

set_option autoImplicit false

namespace MipsAsm
namespace Server

/-- A connection to an editor. -/
structure Connection where
  /-- What the server knows. -/
  state : State
  /-- The requests of the server that are not yet answered. -/
  pending : List Nat

namespace Connection

/-- A connection on which nothing was said. -/
def start : Connection := { state := State.start, pending := [] }

/-- What comes of a value that is not handed to the server. -/
def pass (c : Connection) (log : List Log.Entry) : Connection × Step :=
  (c, { state := c.state, messages := [], log })

/-- Accept a response to a request of the server.  A response to no request is logged and otherwise
ignored. -/
def acceptResponse (c : Connection) (id : Id) : Connection × Step :=
  match id with
  | .number n =>
    if n ∈ c.pending then { c with pending := c.pending.erase n }.pass [] else unexpected
  | .text _ => unexpected
where
  /-- What comes of a response to no request. -/
  unexpected : Connection × Step :=
    c.pass [.report ("jsonrpc2: ignoring response #" ++ id.shown
      ++ " with no corresponding request")]

/-- End the connection over a value that is no message. -/
def reject (c : Connection) (problem : Malformed) : Connection × Step :=
  { c with state := { c.state with closed := true } }.pass
    [.report ("jsonrpc2: protocol error: " ++ problem.text)]

/-- The number of a request of the server. -/
def numberOf? : Outgoing → Option Nat
  | .register n => some n
  | _ => none

/-- The step for a JSON value.  It is `none` if a table of the assembler runs out of room. -/
def receive (o : Options) (c : Connection) (v : Json) : Option (Connection × Step) :=
  if c.state.closed then some (c.pass [])
  else
    match Incoming.ofJson v with
    | .ok (.call request) =>
      (Server.receive o c.state request).map fun step ↦
        ({ state := step.state, pending := step.messages.filterMap numberOf? ++ c.pending }, step)
    | .ok (.response id) => some (c.acceptResponse id)
    | .error problem => some (c.reject problem)

/-- The steps for a sequence of JSON values, one after the other. -/
def receiveAll (o : Options) (c : Connection) : List Json → Option (List Step)
  | [] => some []
  | v :: rest => do
    let (c, step) ← c.receive o v
    let steps ← receiveAll o c rest
    return step :: steps

end Connection

/-- The steps for a sequence of JSON values on a new connection. -/
def receiveAll (o : Options) (s : State) (vs : List Json) : Option (List Step) :=
  Connection.receiveAll o { state := s, pending := [] } vs

end Server
end MipsAsm
