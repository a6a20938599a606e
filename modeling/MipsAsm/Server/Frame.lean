import MipsAsm.Json.Reader
import MipsAsm.Json.Record
import MipsAsm.Text.Basic

/-!
# Frames

On a stream, a message is framed by a header that says how many bytes it has.  The header is made of
lines that end in a carriage return and a line feed, and an empty line ends it.
-/

set_option autoImplicit false

namespace MipsAsm
namespace Server
namespace Frame

/-- The name of the header line with the number of bytes. -/
def lengthName : String := "Content-Length"

/-- A message in its frame. -/
def render (v : Json) : String :=
  let body := v.render
  lengthName ++ ": " ++ Text.decimal body.utf8ByteSize ++ "\r\n\r\n" ++ body

/-- A header line without what ends it. -/
def withoutEnd (line : String) : List Char :=
  Text.trimRight (fun c ↦ c == '\r' || c == '\n') line.toList

/-- The number of bytes that a header line gives, if it is the one that does. -/
def length? (line : String) : Option Nat :=
  match Text.cut ':' (withoutEnd line) with
  | (name, some value) =>
    if String.ofList name = lengthName then Json.digitsValue? (Text.trim (· == ' ') value) else none
  | _ => none

/-- Whether a line ends the header. -/
def isEnd (line : String) : Bool := (withoutEnd line).isEmpty

end Frame
end Server
end MipsAsm
