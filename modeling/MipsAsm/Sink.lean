/-!
# Sinks

A `Sink` takes in text as bytes, up to an optional limit.  A write that would pass the limit stores
the part that fits and fails.
-/

set_option autoImplicit false

namespace MipsAsm

/-- A place to write to. -/
structure Sink where
  /-- How many bytes are accepted in all, if there is a limit. -/
  limit : Option Nat
  /-- The bytes taken in so far. -/
  content : Array UInt8
deriving DecidableEq

namespace Sink

/-- An empty sink. -/
def empty (limit : Option Nat) : Sink := { limit, content := #[] }

/-- The bytes of a text. -/
def bytes (s : String) : Array UInt8 := s.toUTF8.data

/-- How many of `n` more bytes are accepted. -/
def accepted (sink : Sink) (n : Nat) : Nat :=
  match sink.limit with
  | none => n
  | some limit => min n (limit - sink.content.size)

/-- What became of a write. -/
structure Write where
  /-- The sink afterwards. -/
  sink : Sink
  /-- How many bytes were stored. -/
  stored : Nat
  /-- Whether everything was stored. -/
  complete : Bool

/-- Write a text. -/
def write (sink : Sink) (s : String) : Write :=
  let input := bytes s
  let stored := sink.accepted input.size
  { sink := { sink with content := sink.content ++ input.take stored }
    stored
    complete := stored == input.size }

/-- Write the given texts one by one, up to the first that fails. -/
def writeAll (sink : Sink) : List String → Write
  | [] => { sink, stored := 0, complete := true }
  | s :: rest =>
    let first := sink.write s
    if first.complete then
      let others := first.sink.writeAll rest
      { others with stored := first.stored + others.stored }
    else first

/-- The bytes taken in, read as text.  It is `none` if they end inside a character. -/
def text? (sink : Sink) : Option String := String.fromUTF8? ⟨sink.content⟩

end Sink
end MipsAsm
