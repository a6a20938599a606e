import MipsAsm.Json.Basic

/-!
# Numbers in JSON

A number keeps its literal, and what it is worth depends on where it stands.  Where an integer is
wanted, the literal has to be one: without fraction and exponent, and in the range of the integer.
Where any number may stand, it only has to be small enough for a floating-point number of 64 bits.

* `Json.int64?`, `Json.uint32?` — the integer that a literal stands for.
* `Json.fitsFloat` — whether a literal is within the range of floating-point numbers.
* `Json.numbersFit` — whether all numbers in a value are.
-/

set_option autoImplicit false

namespace MipsAsm
namespace Json

/-! ## Integers -/

/-- The value of a text that is digits of base ten only. -/
def digitsValue? (cs : List Char) : Option Nat :=
  if cs.isEmpty || cs.any (fun c ↦ c < '0' || '9' < c) then none
  else some (cs.foldl (fun n c ↦ n * 10 + (c.toNat - '0'.toNat)) 0)

/-- The value of a number that is written as an integer, without fraction and exponent. -/
def integer? (literal : String) : Option Int :=
  match literal.toList with
  | '-' :: ds => (digitsValue? ds).map fun n ↦ -(n : Int)
  | ds => (digitsValue? ds).map fun n ↦ (n : Int)

/-- The value of a number that is written as an integer of 64 bits. -/
def int64? (literal : String) : Option Int :=
  (integer? literal).filter fun i ↦ -9223372036854775808 ≤ i && i ≤ 9223372036854775807

/-- The value of a number that is written as a natural number of 32 bits, without a sign. -/
def uint32? (literal : String) : Option UInt32 :=
  match digitsValue? literal.toList with
  | some n => if n < 4294967296 then some (UInt32.ofNat n) else none
  | none => none

/-! ## Floating-point numbers

A literal can have any number of digits and any exponent, so it is not evaluated.  The place of its
first digit settles almost every case. -/

/-- A number without its sign: digits, and the power of ten that they are to be multiplied by. -/
structure Decimal where
  /-- The digits, the first of which is not zero. -/
  digits : List Char
  /-- The exponent of the power of ten. -/
  exponent : Int
deriving DecidableEq, Repr

namespace Decimal

/-- The number that a literal stands for, without its sign. -/
def ofLiteral (literal : String) : Decimal :=
  let unsigned := literal.toList.dropWhile (· == '-')
  let isMark (c : Char) : Bool := c == 'e' || c == 'E'
  let mantissa := unsigned.takeWhile (!isMark ·)
  let exponent := (unsigned.dropWhile (!isMark ·)).tail.dropWhile (· == '+')
  let fraction := (mantissa.dropWhile (· != '.')).tail
  { digits := (mantissa.filter (· != '.')).dropWhile (· == '0')
    exponent := (integer? (String.ofList exponent)).getD 0 - fraction.length }

/-- The first natural number that is too large for a floating-point number of 64 bits.  It lies
halfway between the largest of them and the next power of two. -/
def floatBound : Nat := (1 <<< 1024) - (1 <<< 970)

/-- Whether the number is below the bound.  If it has at most 308 digits in front of the point it
is, if it has more than 309 it is not, and otherwise the two are compared. -/
def isBelowFloatBound (d : Decimal) : Bool :=
  let size := d.digits.length + d.exponent
  let value := (digitsValue? d.digits).getD 0
  d.digits.isEmpty || size ≤ 308 ||
    (size ≤ 309 &&
      value * Nat.pow 10 d.exponent.toNat < floatBound * Nat.pow 10 (-d.exponent).toNat)

end Decimal

/-- Whether a number is within the range of floating-point numbers of 64 bits. -/
def fitsFloat (literal : String) : Bool := (Decimal.ofLiteral literal).isBelowFloatBound

mutual

/-- Whether all numbers in a value are within the range of floating-point numbers. -/
def numbersFit : Json → Bool
  | .number literal => fitsFloat literal
  | .array items => itemsFit items
  | .object members => membersFit members
  | _ => true

/-- Whether all numbers in the items of an array are. -/
def itemsFit : List Json → Bool
  | [] => true
  | v :: rest => numbersFit v && itemsFit rest

/-- Whether all numbers in the members of an object are. -/
def membersFit : List (String × Json) → Bool
  | [] => true
  | (_, v) :: rest => numbersFit v && membersFit rest

end

end Json
end MipsAsm
