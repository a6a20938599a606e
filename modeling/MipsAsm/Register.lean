import MipsAsm.Error

/-!
# Registers

A register is a number below thirty-two.  Only the names below are accepted, and two of them name
the same register.
-/

set_option autoImplicit false

namespace MipsAsm

/-- The number of a register. -/
abbrev Register := Fin 32

namespace Register

/-- The accepted names, each with its number. -/
def names : List (String × Register) :=
  [("$zero", 0), ("$0", 0), ("$at", 1), ("$v0", 2),
    ("$a0", 4), ("$a1", 5), ("$a2", 6), ("$a3", 7),
    ("$t0", 8), ("$t1", 9), ("$t2", 10), ("$t3", 11),
    ("$s0", 16), ("$s1", 17), ("$s2", 18), ("$s3", 19),
    ("$sp", 29), ("$fp", 30), ("$ra", 31)]

/-- The register of a name. -/
def ofName? (name : String) : Option Register := names.lookup name

/-- The register of a name, or the rejection of the name. -/
def parse (name : String) : Except Error Register :=
  match ofName? name with
  | some r => .ok r
  | none => .error { kind := .invalidRegister, mnemonic := "", construct := name }

/-- The number of a register as a word. -/
def toWord (r : Register) : UInt32 := UInt32.ofNat r.val

end Register
end MipsAsm
