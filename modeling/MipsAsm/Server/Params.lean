import MipsAsm.Diagnostic
import MipsAsm.Json.Record

/-!
# Parameters of the messages from an editor

Each kind of parameters is a record that starts out blank and is read from a JSON object.
-/

set_option autoImplicit false

namespace MipsAsm
namespace Server

/-- A document as an editor names it.  Messages about a document give some of these members. -/
structure DocumentParams where
  /-- What identifies the document. -/
  uri : String := ""
  /-- Its language. -/
  languageId : String := ""
  /-- The version of its text. -/
  version : Int := 0
  /-- Its text. -/
  text : String := ""
deriving DecidableEq, Repr, Inhabited

/-- The parameters of a message about a document. -/
structure Params where
  /-- The document. -/
  textDocument : DocumentParams := {}
  /-- The texts that replace its text one after the other. -/
  contentChanges : Json.Records String := .empty
  /-- A position in it. -/
  position : Position := { line := 0, character := 0 }
  /-- Why it is saved. -/
  reason : Int := 0
deriving DecidableEq, Repr, Inhabited

/-- The parameters of the first message of an editor. -/
structure ClientParams where
  /-- The number of the process of the editor. -/
  processId : Int := 0
  /-- The folder it works in. -/
  rootUri : String := ""
deriving DecidableEq, Repr, Inhabited

namespace DocumentParams

/-- The member that identifies a document. -/
def uriSlot : Json.Slot DocumentParams :=
  { key := "uri", store := Json.storeString fun v d ↦ { d with uri := v } }

/-- The member with the version of a document. -/
def versionSlot : Json.Slot DocumentParams :=
  { key := "version", store := Json.storeInt fun v d ↦ { d with version := v } }

/-- The members of a document that is opened. -/
def fullSlots : List (Json.Slot DocumentParams) :=
  [uriSlot,
    { key := "languageId", store := Json.storeString fun v d ↦ { d with languageId := v } },
    versionSlot,
    { key := "text", store := Json.storeString fun v d ↦ { d with text := v } }]

end DocumentParams

namespace Params

/-- The member with a document of which the given members are read. -/
def documentSlot (slots : List (Json.Slot DocumentParams)) : Json.Slot Params :=
  { key := "textDocument"
    store := Json.storeInner slots Params.textDocument fun v p ↦ { p with textDocument := v } }

/-- The member with the texts that replace the text of a document. -/
def changesSlot : Json.Slot Params :=
  { key := "contentChanges"
    store :=
      Json.storeInnerList [{ key := "text", store := Json.storeString fun v _ ↦ v }] ""
        Params.contentChanges fun v p ↦ { p with contentChanges := v } }

/-- The member with a position. -/
def positionSlot : Json.Slot Params :=
  { key := "position"
    store :=
      Json.storeInner
        [{ key := "line", store := Json.storeInt fun v p ↦ { p with line := v } },
          { key := "character", store := Json.storeInt fun v p ↦ { p with character := v } }]
        Params.position fun v p ↦ { p with position := v } }

/-- The member that says why a document is saved. -/
def reasonSlot : Json.Slot Params :=
  { key := "reason", store := Json.storeInt fun v p ↦ { p with reason := v } }

/-- The members of a message that only names a document. -/
def nameSlots : List (Json.Slot Params) := [documentSlot [DocumentParams.uriSlot]]

/-- The members of a message about an opened document. -/
def openSlots : List (Json.Slot Params) := [documentSlot DocumentParams.fullSlots]

/-- The members of a message about a changed document. -/
def changeSlots : List (Json.Slot Params) :=
  [documentSlot [DocumentParams.uriSlot, DocumentParams.versionSlot], changesSlot]

/-- The members of a message about a document that is about to be saved. -/
def saveSlots : List (Json.Slot Params) := [documentSlot [DocumentParams.uriSlot], reasonSlot]

/-- The members of a question about a position. -/
def positionSlots : List (Json.Slot Params) :=
  [documentSlot [DocumentParams.uriSlot], positionSlot]

/-- Read the given members. -/
def ofJson? (slots : List (Json.Slot Params)) (params : Option Json) : Option Params :=
  params.bind (Json.storeRecord slots {})

end Params

/-- Read the parameters of the first message of an editor. -/
def ClientParams.ofJson? (params : Option Json) : Option ClientParams :=
  params.bind (Json.storeRecord
    [{ key := "processId", store := Json.storeInt fun v p ↦ { p with processId := v } },
      { key := "rootUri", store := Json.storeString fun v p ↦ { p with rootUri := v } }] {})

end Server
end MipsAsm
