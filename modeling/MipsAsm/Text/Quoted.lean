import MipsAsm.Text.Digits
import MipsAsm.Text.Printable

/-!
# Quoted text

`Text.quoted` writes a text between double quotes and `Text.quotedChar` a character between single
quotes.  Printable characters stand for themselves.  The quote itself, the backslash and whatever is
not printable become escapes, so that the result is printable and fits on one line.
-/

set_option autoImplicit false

namespace MipsAsm
namespace Text

/-- A number in base sixteen with zeros in front up to a width. -/
def hexPadded (width n : Nat) : List Char :=
  let digits := Nat.toDigits 16 n
  List.replicate (width - digits.length) '0' ++ digits

/-- The letter of a control character that has an escape of its own. -/
def controlLetter? (c : Char) : Option Char :=
  match c with
  | '\x07' => some 'a'
  | '\x08' => some 'b'
  | '\x0c' => some 'f'
  | '\n' => some 'n'
  | '\r' => some 'r'
  | '\t' => some 't'
  | '\x0b' => some 'v'
  | _ => none

/-- A character as it is written between two of the given quotes. -/
def escaped (quote c : Char) : List Char :=
  if c = quote ∨ c = '\\' then ['\\', c]
  else if isPrintable c then [c]
  else
    match controlLetter? c with
    | some letter => ['\\', letter]
    | none =>
      if c.toNat < 0x20 ∨ c.toNat = 0x7F then '\\' :: 'x' :: hexPadded 2 c.toNat
      else if c.toNat < 0x10000 then '\\' :: 'u' :: hexPadded 4 c.toNat
      else '\\' :: 'U' :: hexPadded 8 c.toNat

/-- A text between double quotes. -/
def quoted (s : String) : String :=
  "\"" ++ String.ofList (s.toList.flatMap (escaped '\"')) ++ "\""

/-- A character between single quotes. -/
def quotedChar (c : Char) : String := "'" ++ String.ofList (escaped '\x27' c) ++ "'"

end Text
end MipsAsm
