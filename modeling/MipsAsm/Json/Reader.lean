import MipsAsm.Json.Basic

/-!
# Reading JSON

`Json.parse?` reads a text that is exactly one JSON value, with blanks around it and nothing else.
Arrays and objects may be nested ten thousand deep.

In a string, half a surrogate pair without its other half stands for the replacement character.
-/

set_option autoImplicit false

namespace MipsAsm
namespace Json
namespace Reader

/-- How deep arrays and objects may be nested. -/
def maxDepth : Nat := 10000

/-- The characters that may stand between the parts of a value. -/
def isSpace (c : Char) : Bool := c == ' ' || c == '\t' || c == '\r' || c == '\n'

/-- What follows the blanks at the start of a text. -/
def skipSpace (cs : List Char) : List Char := cs.dropWhile isSpace

/-! ## Strings

Two escapes can make up one character, so a string is read into pieces first and the pieces are
joined afterwards. -/

/-- A piece of a string: a character as it stands, or a code unit written as an escape. -/
inductive Piece where
  /-- A character. -/
  | char (c : Char)
  /-- A code unit of 16 bits. -/
  | unit (n : Nat)

/-- The value of four digits of base sixteen. -/
def hexUnit? (a b c d : Char) : Option Nat := do
  let a ← Text.hexDigit? a
  let b ← Text.hexDigit? b
  let c ← Text.hexDigit? c
  let d ← Text.hexDigit? d
  return a * 4096 + b * 256 + c * 16 + d

/-- The character an escape of one letter stands for. -/
def simpleEscape? (c : Char) : Option Char :=
  match c with
  | '\"' => some '\"'
  | '\\' => some '\\'
  | '/' => some '/'
  | 'b' => some '\x08'
  | 'f' => some '\x0c'
  | 'n' => some '\n'
  | 'r' => some '\r'
  | 't' => some '\t'
  | _ => none

/-- The pieces of a string up to its closing quote, and what follows it.  The pieces read so far are
in `done`, the last first. -/
def readPieces (done : List Piece) : List Char → Option (List Piece × List Char)
  | [] => none
  | '\"' :: rest => some (done.reverse, rest)
  | '\\' :: 'u' :: a :: b :: c :: d :: rest =>
    match hexUnit? a b c d with
    | some n => readPieces (.unit n :: done) rest
    | none => none
  | '\\' :: c :: rest =>
    match simpleEscape? c with
    | some c => readPieces (.char c :: done) rest
    | none => none
  | c :: rest => if c.toNat < 0x20 then none else readPieces (.char c :: done) rest

/-- Whether a code unit is the first half of a surrogate pair. -/
def isHighSurrogate (n : Nat) : Bool := 0xD800 ≤ n && n < 0xDC00

/-- Whether a code unit is the second half of a surrogate pair. -/
def isLowSurrogate (n : Nat) : Bool := 0xDC00 ≤ n && n < 0xE000

/-- The character of a code unit that stands alone. -/
def unitChar (n : Nat) : Char :=
  if isHighSurrogate n || isLowSurrogate n then '�' else Char.ofNat n

/-- The characters that pieces stand for.  The characters found so far are in `done`, the last
first. -/
def joinPieces (done : List Char) : List Piece → List Char
  | [] => done.reverse
  | .char c :: rest => joinPieces (c :: done) rest
  | .unit high :: .unit low :: rest =>
    if isHighSurrogate high && isLowSurrogate low then
      joinPieces (Char.ofNat (0x10000 + (high - 0xD800) * 0x400 + (low - 0xDC00)) :: done) rest
    else joinPieces (unitChar high :: done) (.unit low :: rest)
  | .unit n :: rest => joinPieces (unitChar n :: done) rest

/-- The string after an opening quote, and what follows it. -/
def readString (cs : List Char) : Option (String × List Char) := do
  let (pieces, rest) ← readPieces [] cs
  return (String.ofList (joinPieces [] pieces), rest)

/-! ## Numbers

A number is checked for its form and kept as it is written. -/

/-- Whether a character is a digit of base ten. -/
def isDigit (c : Char) : Bool := '0' ≤ c && c ≤ '9'

/-- The digits at the start of a text, at least one, and what follows them. -/
def readDigits (cs : List Char) : Option (List Char × List Char) :=
  match cs.takeWhile isDigit with
  | [] => none
  | ds => some (ds, cs.dropWhile isDigit)

/-- The whole part of a number: a zero, or digits that do not start with one. -/
def readWhole (cs : List Char) : Option (List Char × List Char) :=
  match cs with
  | '0' :: rest => some (['0'], rest)
  | _ => readDigits cs

/-- The fraction of a number, if there is one. -/
def readFraction (cs : List Char) : Option (List Char × List Char) :=
  match cs with
  | '.' :: rest => do
    let (ds, rest) ← readDigits rest
    return ('.' :: ds, rest)
  | _ => some ([], cs)

/-- The sign of an exponent, if there is one. -/
def readExponentSign (cs : List Char) : List Char × List Char :=
  match cs with
  | '+' :: rest => (['+'], rest)
  | '-' :: rest => (['-'], rest)
  | _ => ([], cs)

/-- The exponent of a number, if there is one. -/
def readExponent (cs : List Char) : Option (List Char × List Char) :=
  match cs with
  | mark :: rest =>
    if mark = 'e' ∨ mark = 'E' then do
      let (sign, rest) := readExponentSign rest
      let (ds, rest) ← readDigits rest
      return (mark :: sign ++ ds, rest)
    else some ([], cs)
  | [] => some ([], [])

/-- The number at the start of a text, and what follows it. -/
def readNumber (cs : List Char) : Option (String × List Char) := do
  let (sign, cs) :=
    match cs with
    | '-' :: rest => (['-'], rest)
    | _ => ([], cs)
  let (whole, cs) ← readWhole cs
  let (fraction, cs) ← readFraction cs
  let (exponent, cs) ← readExponent cs
  return (String.ofList (sign ++ whole ++ fraction ++ exponent), cs)

/-! ## Values

The three functions call each other.  Arrays and objects are read in a loop over their items, with
what was read so far as an argument, so that the stack grows with the depth of a value and not with
its length. -/

mutual

/-- The value at the start of a text, and what follows it.  Arrays and objects may be nested
`depth` deep; `fuel` bounds the number of steps. -/
def readValue (fuel depth : Nat) (cs : List Char) : Option (Json × List Char) :=
  match fuel with
  | 0 => none
  | fuel + 1 =>
    match skipSpace cs with
    | 'n' :: 'u' :: 'l' :: 'l' :: rest => some (.null, rest)
    | 't' :: 'r' :: 'u' :: 'e' :: rest => some (.bool true, rest)
    | 'f' :: 'a' :: 'l' :: 's' :: 'e' :: rest => some (.bool false, rest)
    | '\"' :: rest => (readString rest).map fun (s, rest) ↦ (.string s, rest)
    | '[' :: rest =>
      match depth with
      | 0 => none
      | depth + 1 =>
        match skipSpace rest with
        | ']' :: rest => some (.array [], rest)
        | rest => readItems fuel depth [] rest
    | '\x7b' :: rest =>
      match depth with
      | 0 => none
      | depth + 1 =>
        match skipSpace rest with
        | '\x7d' :: rest => some (.object [], rest)
        | rest => readMembers fuel depth [] rest
    | cs => (readNumber cs).map fun (literal, rest) ↦ (.number literal, rest)

/-- The items of an array from the next one to its closing bracket.  The items read so far are in
`done`, the last first. -/
def readItems (fuel depth : Nat) (done : List Json) (cs : List Char) :
    Option (Json × List Char) :=
  match fuel with
  | 0 => none
  | fuel + 1 =>
    match readValue fuel depth cs with
    | none => none
    | some (v, rest) =>
      match skipSpace rest with
      | ',' :: rest => readItems fuel depth (v :: done) rest
      | ']' :: rest => some (.array (v :: done).reverse, rest)
      | _ => none

/-- The members of an object from the next one to its closing bracket.  The members read so far are
in `done`, the last first. -/
def readMembers (fuel depth : Nat) (done : List (String × Json)) (cs : List Char) :
    Option (Json × List Char) :=
  match fuel with
  | 0 => none
  | fuel + 1 =>
    match skipSpace cs with
    | '\"' :: rest =>
      match readString rest with
      | none => none
      | some (key, rest) =>
        match skipSpace rest with
        | ':' :: rest =>
          match readValue fuel depth rest with
          | none => none
          | some (v, rest) =>
            match skipSpace rest with
            | ',' :: rest => readMembers fuel depth ((key, v) :: done) rest
            | '\x7d' :: rest => some (.object ((key, v) :: done).reverse, rest)
            | _ => none
        | _ => none
    | _ => none

end

end Reader

/-- The value a text stands for, if it is exactly one JSON value.  Every step reads at least one
character, of a value or of an item, so twice the length of the text is enough of them. -/
def parse? (s : String) : Option Json := do
  let cs := s.toList
  let (v, rest) ← Reader.readValue (2 * cs.length + 2) Reader.maxDepth cs
  if Reader.skipSpace rest = [] then some v else none

end Json
end MipsAsm
