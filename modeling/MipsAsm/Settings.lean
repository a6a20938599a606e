import MipsAsm.Assembly.Options
import MipsAsm.Json.Reader
import MipsAsm.Json.Record

/-!
# Settings

The settings are read from a JSON object over the defaults.  Without a file the defaults count.
-/

set_option autoImplicit false

namespace MipsAsm

/-- What the user can set. -/
structure Settings where
  /-- Where the server for editors listens. -/
  languageServerAddr : String := ":2035"
  /-- Where the server of the page listens. -/
  webServerAddr : String := ":2036"
  /-- Whether traces are shown. -/
  loggingEnabled : Bool := false
  /-- Where traces are sent instead of being shown, or the empty text. -/
  logEndpoint : String := ""
  /-- The address of the first instruction. -/
  textBaseAddress : UInt32 := 0
  /-- Whether the assembler stops at the first line with an error. -/
  stopOnFirstError : Bool := false
deriving DecidableEq, Repr, Inhabited

namespace Settings

/-- What can be wrong with the text of settings. -/
inductive Problem where
  /-- The text is no JSON value. -/
  | malformed
  /-- A value does not fit. -/
  | mismatch
  /-- The base address is no multiple of four. -/
  | misalignedBase
deriving DecidableEq, Repr

/-- The wording of a problem. -/
def Problem.message : Problem → String
  | .malformed => "invalid JSON"
  | .mismatch => "a value does not fit its field"
  | .misalignedBase => "textBaseAddress must be a multiple of 4"

/-- The name under which settings are looked for unless it is said otherwise. -/
def defaultPath : String := "mipsasmConfig.json"

/-- The members of settings. -/
def slots : List (Json.Slot Settings) :=
  [{ key := "languageServerAddr"
     store := Json.storeString fun v s ↦ { s with languageServerAddr := v } },
    { key := "webServerAddr", store := Json.storeString fun v s ↦ { s with webServerAddr := v } },
    { key := "loggingEnabled", store := Json.storeBool fun v s ↦ { s with loggingEnabled := v } },
    { key := "logEndpoint", store := Json.storeString fun v s ↦ { s with logEndpoint := v } },
    { key := "textBaseAddress"
      store := Json.storeUInt32 fun v s ↦ { s with textBaseAddress := v } },
    { key := "stopOnFirstError"
      store := Json.storeBool fun v s ↦ { s with stopOnFirstError := v } }]

/-- The settings that a JSON value stands for. -/
def ofJson (v : Json) : Except Problem Settings :=
  match Json.storeRecord slots {} v with
  | none => .error .mismatch
  | some s => if s.textBaseAddress % 4 = 0 then .ok s else .error .misalignedBase

/-- Read the text of settings. -/
def parse (text : String) : Except Problem Settings :=
  match Json.parse? text with
  | none => .error .malformed
  | some v => ofJson v

/-- The part of the settings that the assembler depends on. -/
def options (s : Settings) : Options :=
  { base := s.textBaseAddress, stopOnFirstError := s.stopOnFirstError }

/-- Whether traces are shown with the reports. -/
def traced (s : Settings) : Bool := s.loggingEnabled && s.logEndpoint == ""

end Settings
end MipsAsm
