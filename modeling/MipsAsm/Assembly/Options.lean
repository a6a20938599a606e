import MipsAsm.SymbolTable

/-!
# Options of a run of the assembler
-/

set_option autoImplicit false

namespace MipsAsm

/-- What a run of the assembler depends on besides the source. -/
structure Options where
  /-- The address of the first instruction. -/
  base : UInt32 := 0
  /-- Whether to stop at the first line with an error. -/
  stopOnFirstError : Bool := false
  /-- The most room a table may have. -/
  tableLimit : Int := SymbolTable.defaultLimit
deriving DecidableEq, Repr, Inhabited

end MipsAsm
