/-!
# Blank characters

`Text.isBlank` is the white space of Unicode: the twenty-five code points with the property
`White_Space`.  `Char.isWhitespace` of the core library covers only some of the first six of them.
-/

set_option autoImplicit false

namespace MipsAsm
namespace Text

/-- The code points with the Unicode property `White_Space`, as inclusive ranges in order. -/
def blankRanges : List (Nat × Nat) :=
  [(0x09, 0x0D), (0x20, 0x20), (0x85, 0x85), (0xA0, 0xA0), (0x1680, 0x1680), (0x2000, 0x200A),
    (0x2028, 0x2029), (0x202F, 0x202F), (0x205F, 0x205F), (0x3000, 0x3000)]

/-- Whether a character is white space. -/
def isBlank (c : Char) : Bool := blankRanges.any fun (lo, hi) ↦ lo ≤ c.toNat && c.toNat ≤ hi

/-- There are twenty-five blank characters. -/
example : (blankRanges.map fun (lo, hi) ↦ hi + 1 - lo).sum = 25 := by decide

end Text
end MipsAsm
