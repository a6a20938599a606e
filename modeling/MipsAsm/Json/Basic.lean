import MipsAsm.Text.Digits

/-!
# JSON values and their text

A `Json` value keeps what the text of a value says: numbers as they are written and the members of
an object in order, also those with the same key.  `Json.render` writes a value without any blank.

`Json.sorted` is the value with the members of every object sorted by key, of which the last counts
if there are several with the same key.
-/

set_option autoImplicit false

namespace MipsAsm

/-- A JSON value. -/
inductive Json where
  /-- The value `null`. -/
  | null
  /-- A truth value. -/
  | bool (b : Bool)
  /-- A number, as it is written. -/
  | number (literal : String)
  /-- A text. -/
  | string (s : String)
  /-- A list of values. -/
  | array (items : List Json)
  /-- Keys with values, in order. -/
  | object (members : List (String × Json))
deriving Inhabited, Repr

namespace Json

/-! ## Building values -/

/-- A natural number. -/
def nat (n : Nat) : Json := .number (Text.decimal n)

/-- An integer. -/
def int (i : Int) : Json := .number (Text.signedDecimal i)

/-- A 32-bit word as a number. -/
def word (w : UInt32) : Json := nat w.toNat

/-- The last member of an object with a key. -/
def member? (key : String) : Json → Option Json
  | .object members => (members.reverse.find? (·.1 == key)).map Prod.snd
  | _ => none

/-! ## Writing

Controls are written as escapes with four digits, also those that have a shorter escape.  Everything
beyond ASCII is written as it is. -/

/-- A character of a text as it is written between the quotes. -/
def escapeChar (c : Char) : List Char :=
  if c == '\"' then ['\\', '\"']
  else if c == '\\' then ['\\', '\\']
  else if c.toNat < 0x20 then
    ['\\', 'u', '0', '0', Nat.digitChar (c.toNat / 16), Nat.digitChar (c.toNat % 16)]
  else [c]

/-- A text between quotes. -/
def renderString (s : String) : String :=
  "\"" ++ String.ofList (s.toList.flatMap escapeChar) ++ "\""

mutual

/-- The text of a value. -/
def render : Json → String
  | .null => "null"
  | .bool true => "true"
  | .bool false => "false"
  | .number literal => literal
  | .string s => renderString s
  | .array items => "[" ++ ",".intercalate (renderItems items) ++ "]"
  | .object members => "\x7b" ++ ",".intercalate (renderMembers members) ++ "\x7d"

/-- The texts of the items of an array. -/
def renderItems : List Json → List String
  | [] => []
  | v :: rest => render v :: renderItems rest

/-- The texts of the members of an object. -/
def renderMembers : List (String × Json) → List String
  | [] => []
  | (key, v) :: rest => (renderString key ++ ":" ++ render v) :: renderMembers rest

end

/-! ## Sorting members -/

/-- Add a member to members that are sorted by key, in place of one with the same key. -/
def insertMember (key : String) (v : Json) : List (String × Json) → List (String × Json)
  | [] => [(key, v)]
  | (k, w) :: rest =>
    if key < k then (key, v) :: (k, w) :: rest
    else if key = k then (key, v) :: rest
    else (k, w) :: insertMember key v rest

mutual

/-- The value with the members of all objects sorted by key. -/
def sorted : Json → Json
  | .array items => .array (sortedItems items)
  | .object members => .object (sortedMembers members [])
  | v => v

/-- The items of an array, each sorted. -/
def sortedItems : List Json → List Json
  | [] => []
  | v :: rest => sorted v :: sortedItems rest

/-- The members of an object, each sorted, added to members that are already sorted by key. -/
def sortedMembers : List (String × Json) → List (String × Json) → List (String × Json)
  | [], done => done
  | (key, v) :: rest, done => sortedMembers rest (insertMember key (sorted v) done)

end

end Json
end MipsAsm
