import MipsAsm.Error
import MipsAsm.Text.Digits

/-!
# Integer literals

A literal is an optional sign and then digits: base sixteen after `0x` or `0X`, base ten otherwise.
The mark of base sixteen counts only if something follows it, so `0x` alone is read in base ten
and rejected at the `x`.

Digits are read from the left.  A character that is no digit and a value of 2 ^ 64 or more are two
different rejections, and the one met first wins: a literal that is already too large is out of
range whatever comes after.
-/

set_option autoImplicit false

namespace MipsAsm

/-- The parts of an integer literal. -/
structure Literal where
  /-- Whether a minus sign stands in front. -/
  negative : Bool
  /-- The base of the digits. -/
  base : Nat
  /-- What follows the sign and the mark of the base. -/
  digits : List Char
deriving DecidableEq, Repr

namespace Literal

/-- The sign of a literal and the rest: whether it is a minus, and what follows it. -/
def splitSign : List Char → Bool × List Char
  | '-' :: rest => (true, rest)
  | '+' :: rest => (false, rest)
  | cs => (false, cs)

/-- The base of an unsigned literal and its digits. -/
def splitBase : List Char → Nat × List Char
  | '0' :: mark :: c :: rest =>
    if mark = 'x' ∨ mark = 'X' then (16, c :: rest) else (10, '0' :: mark :: c :: rest)
  | cs => (10, cs)

/-- Divide a text into the parts of a literal. -/
def ofChars (cs : List Char) : Literal :=
  let (negative, unsigned) := splitSign cs
  let (base, digits) := splitBase unsigned
  { negative, base, digits }

/-- The value of a digit in a base of at most sixteen. -/
def digitValue? (base : Nat) (c : Char) : Option Nat :=
  (Text.hexDigit? c).filter (· < base)

/-- Read digits after a part whose value is `acc`. -/
def readDigits (base acc : Nat) : List Char → Except Error.Kind Nat
  | [] => .ok acc
  | c :: rest =>
    match digitValue? base c with
    | none => .error .unparseable
    | some d =>
      if acc * base + d < 0x10000000000000000 then readDigits base (acc * base + d) rest
      else .error .numberOutOfRange

/-- The value of a literal without its sign. -/
def magnitude (l : Literal) : Except Error.Kind Nat :=
  if l.digits = [] then .error .unparseable else readDigits l.base 0 l.digits

/-- The value of a literal. -/
def value (l : Literal) : Except Error.Kind Int :=
  l.magnitude.map fun n ↦ if l.negative then -(n : Int) else n

/-- The value of the literal `s` if it lies between `lower` and `upper`, both included. -/
def parse (s : String) (lower upper : Int) : Except Error Int :=
  match (ofChars s.toList).value with
  | .error kind => .error { kind, mnemonic := "", construct := s }
  | .ok v =>
    if lower ≤ v ∧ v ≤ upper then .ok v
    else .error { kind := .numberOutOfRange, mnemonic := "", construct := s }

end Literal
end MipsAsm
