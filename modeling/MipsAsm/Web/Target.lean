import MipsAsm.Text.Digits

/-!
# Targets of requests

A request names what it is for by a target: a path, and after a question mark a query.  A server may
stand in front of the path, which then may be empty.

The path is a text of bytes, in which a percent sign and two digits of base sixteen stand for one
byte.  Its parts stand each behind a slash.  A path is tidy if no part is a dot, two dots or, unless
it is the last, empty.

* `Web.Target.parse?` — read a target.
* `Web.tidy` — the tidy path that leads to the same place.
* `Web.Target.text` — a target without a server, as it is written.
-/

set_option autoImplicit false

namespace MipsAsm
namespace Web

/-! ## Bytes and escapes

A path need not be valid UTF-8, so it is bytes once its escapes are resolved.  It is escaped again
in a fixed way, whatever was escaped before. -/

/-- The bytes of a text. -/
def bytesOf (s : String) : List UInt8 := s.toUTF8.data.toList

/-- The bytes that a text with escapes stands for.  A percent sign that starts no escape has no
meaning. -/
def unescape? : List Char → Option (List UInt8)
  | [] => some []
  | '%' :: high :: low :: rest => do
    let high ← Text.hexDigit? high
    let low ← Text.hexDigit? low
    let bytes ← unescape? rest
    return UInt8.ofNat (high * 16 + low) :: bytes
  | '%' :: _ => none
  | c :: rest => (unescape? rest).map (bytesOf (String.singleton c) ++ ·)

/-- Whether the character of a byte may stand in a path as it is. -/
def isPlain (b : UInt8) : Bool :=
  let c := Char.ofUInt8 b
  c.isAlphanum || "-_.~$&+,/:;=@".toList.contains c

/-- A byte as it is written in a path. -/
def escapeByte (b : UInt8) : String :=
  if isPlain b then String.singleton (Char.ofUInt8 b)
  else
    String.ofList ('%' :: [b.toNat / 16, b.toNat % 16].map fun d ↦ (Nat.digitChar d).toUpper)

/-! ## Paths

Paths are lists of parts, and the empty part at the end of one stands for the slash that it ends
in. -/

/-- A path: its parts, each of which stands behind a slash. -/
abbrev Path := List (List UInt8)

/-- The parts of a path.  What stands in front of the first slash is none. -/
def Path.ofBytes (bytes : List UInt8) : Path :=
  (bytes.foldr (fun b parts ↦
    if b = '/'.toUInt8 then [] :: parts else parts.modifyHead (b :: ·)) [[]]).tail

/-- A path as it is written. -/
def Path.text (path : Path) : String :=
  String.join (path.map fun part ↦ "/" ++ String.join (part.map escapeByte))

/-- Follow one part of a path from the place that the parts before it lead to. -/
def followPart (place : Path) (part : List UInt8) : Path :=
  if part = [] ∨ part = bytesOf "." then place
  else if part = bytesOf ".." then place.dropLast
  else place ++ [part]

/-- The tidy path that leads to the same place.  It ends in a slash if the path does, and the root
always has one. -/
def tidy (path : Path) : Path :=
  let place := path.foldl followPart []
  if place = [] ∨ path.getLast? = some [] then place ++ [[]] else place

/-! ## Targets

The query is handed on as it is.  Which server is named in front of the path makes no difference. -/

/-- What a request is for. -/
structure Target where
  /-- The path. -/
  path : Path
  /-- The query, as it is written. -/
  query : String
deriving DecidableEq, Repr, Inhabited

/-- What follows the name of a protocol and its colon, if a text starts with one. -/
def afterProtocol? (cs : List Char) : Option (List Char) :=
  let isMark (c : Char) : Bool := c.isDigit || c == '+' || c == '-' || c == '.'
  match cs.head?, cs.dropWhile (fun c ↦ c.isAlpha || isMark c) with
  | some first, ':' :: rest => if first.isAlpha then some rest else none
  | _, _ => none

/-- The path of what follows a protocol.  A server is introduced by two slashes, and without one
there is no path. -/
def afterServer : List Char → List Char
  | '/' :: '/' :: rest => rest.dropWhile (· != '/')
  | '/' :: rest => '/' :: rest
  | _ => []

namespace Target

/-- Read a target.  Without a server it starts with a slash.  Controls and the space belong to no
target. -/
def parse? (s : String) : Option Target :=
  let cs := s.toList
  let query := String.ofList (cs.dropWhile (· != '?')).tail
  if cs.any fun c ↦ c ≤ ' ' || c == '\x7f' then none
  else
    match afterProtocol? cs with
    | some rest =>
      (unescape? (afterServer (rest.takeWhile (· != '?')))).map fun bytes ↦
        { path := Path.ofBytes bytes, query }
    | none =>
      if cs.head? = some '/' then
        (unescape? (cs.takeWhile (· != '?'))).map fun bytes ↦
          { path := Path.ofBytes bytes, query }
      else none

/-- A target as it is written. -/
def text (t : Target) : String :=
  t.path.text ++ if t.query = "" then "" else "?" ++ t.query

end Target
end Web
end MipsAsm
