/-!
# Digits and numbers written out

* `Text.decimal` — a natural number in base ten.
* `Text.hex` and `Text.hexUpper` — a natural number in base sixteen, with no leading zero.
* `Text.hexWord` — a 32-bit word as exactly eight lowercase digits.
* `Text.hexDigit?` — the value of a digit of base sixteen.
-/

set_option autoImplicit false

namespace MipsAsm
namespace Text

/-- A natural number in base ten. -/
def decimal (n : Nat) : String := String.ofList (Nat.toDigits 10 n)

/-- An integer in base ten, with a minus sign in front if it is negative. -/
def signedDecimal : Int → String
  | .ofNat n => decimal n
  | .negSucc n => "-" ++ decimal (n + 1)

/-- A natural number in base sixteen with lowercase digits. -/
def hex (n : Nat) : String := String.ofList (Nat.toDigits 16 n)

/-- A natural number in base sixteen with uppercase digits. -/
def hexUpper (n : Nat) : String := String.ofList ((Nat.toDigits 16 n).map Char.toUpper)

/-- The eight base-sixteen digits of a 32-bit word, the most significant first. -/
def hexWordDigits (w : UInt32) : List Char :=
  [28, 24, 20, 16, 12, 8, 4, 0].map fun shift ↦ Nat.digitChar ((w.toNat >>> shift) % 16)

/-- A 32-bit word as exactly eight lowercase base-sixteen digits. -/
def hexWord (w : UInt32) : String := String.ofList (hexWordDigits w)

/-- The value of a digit of base sixteen, in either case. -/
def hexDigit? (c : Char) : Option Nat :=
  if '0' ≤ c ∧ c ≤ '9' then some (c.toNat - '0'.toNat)
  else if 'a' ≤ c ∧ c ≤ 'f' then some (c.toNat - 'a'.toNat + 10)
  else if 'A' ≤ c ∧ c ≤ 'F' then some (c.toNat - 'A'.toNat + 10)
  else none

end Text
end MipsAsm
