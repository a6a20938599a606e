import MipsAsm.Json.Number

/-!
# Reading records from JSON

A record is read from an object member by member.  `Json.Slot` describes one member: its key and
what its value does to the record.  A key matches a slot if they are the same, or failing that if
they are the same up to case.  Members that match no slot are skipped, and of several that match one
slot the last counts.  The value `null` leaves everything but a list as it is.

A list that is read a second time is read over what it held: each item goes over the item at its
position, also if that item is one that a list read in between was too short for.  Only a list that
is given as empty forgets them all.  `Json.Records` holds both parts.

A value that does not fit its slot makes the whole record unreadable.
-/

set_option autoImplicit false

namespace MipsAsm
namespace Json

/-! ## Keys up to case -/

/-- The lowercase form of a character for the comparison of keys.  Besides the capital letters of
ASCII, two more characters have an ASCII letter as their lowercase form: the long s and the
sign of kelvin. -/
def foldChar (c : Char) : Char :=
  if c = 'ſ' then 's' else if c = 'K' then 'k' else c.toLower

/-- Whether two keys are the same up to case. -/
def sameUpToCase (a b : String) : Bool := a.toList.map foldChar == b.toList.map foldChar

/-! ## Slots

A record that is being read is a value of the record type from the start, with defaults for what was
not given.  Reading it is a fold over the members of the object, each of which changes it or is
skipped. -/

/-- A member of a record: its key, and how its value changes the record.  The result is `none` if
the value does not fit. -/
structure Slot (α : Type) where
  /-- The key. -/
  key : String
  /-- The record after the value was stored. -/
  store : Json → α → Option α

/-- The slot that a key matches. -/
def slotFor? {α : Type} (slots : List (Slot α)) (key : String) : Option (Slot α) :=
  (slots.find? (·.key == key)).or (slots.find? fun slot ↦ sameUpToCase slot.key key)

/-- Store one member in a record. -/
def storeMember {α : Type} (slots : List (Slot α)) (record : α) (member : String × Json) :
    Option α :=
  match slotFor? slots member.1 with
  | none => some record
  | some slot => slot.store member.2 record

/-- Store the members of an object in a record. -/
def storeRecord {α : Type} (slots : List (Slot α)) (record : α) : Json → Option α
  | .null => some record
  | .object members => members.foldlM (storeMember slots) record
  | _ => none

/-! ## Values that fit

One function for each type that a field can have.  Each is handed the function that sets the
field. -/

/-- Store a text. -/
def storeString {α : Type} (set : String → α → α) : Json → α → Option α
  | .null, record => some record
  | .string s, record => some (set s record)
  | _, _ => none

/-- Store a truth value. -/
def storeBool {α : Type} (set : Bool → α → α) : Json → α → Option α
  | .null, record => some record
  | .bool b, record => some (set b record)
  | _, _ => none

/-- Store an integer of 64 bits. -/
def storeInt {α : Type} (set : Int → α → α) : Json → α → Option α
  | .null, record => some record
  | .number literal, record => (int64? literal).map fun i ↦ set i record
  | _, _ => none

/-- Store a natural number of 32 bits. -/
def storeUInt32 {α : Type} (set : UInt32 → α → α) : Json → α → Option α
  | .null, record => some record
  | .number literal, record => (uint32? literal).map fun n ↦ set n record
  | _, _ => none

/-- Store a record inside a record.  The members of the inner record are stored over what it
already holds. -/
def storeInner {α β : Type} (slots : List (Slot β)) (get : α → β) (set : β → α → α) (v : Json)
    (record : α) : Option α :=
  (storeRecord slots (get record) v).map fun inner ↦ set inner record

/-- A list of records that is read from JSON. -/
structure Records (β : Type) where
  /-- The records of the list. -/
  items : List β
  /-- The records that follow them in the longest list read before. -/
  beyond : List β
deriving DecidableEq, Repr, Inhabited

/-- The list without a record. -/
def Records.empty {β : Type} : Records β := { items := [], beyond := [] }

/-- Read the items of an array as records, each over the one at its position if there is one and
over `blank` otherwise. -/
def readRecords {β : Type} (slots : List (Slot β)) (blank : β) :
    List β → List Json → Option (List β)
  | _, [] => some []
  | old, v :: rest => do
    let first ← storeRecord slots (old.headD blank) v
    let others ← readRecords slots blank old.tail rest
    return first :: others

/-- The list after it is read from an array. -/
def Records.read {β : Type} (slots : List (Slot β)) (blank : β) (old : Records β) :
    List Json → Option (Records β)
  | [] => some Records.empty
  | vs =>
    let held := old.items ++ old.beyond
    (readRecords slots blank held vs).map fun items ↦
      { items, beyond := held.drop items.length }

/-- Store a list of records inside a record.  The value `null` leaves the list empty. -/
def storeInnerList {α β : Type} (slots : List (Slot β)) (blank : β) (get : α → Records β)
    (set : Records β → α → α) : Json → α → Option α
  | .null, record => some (set Records.empty record)
  | .array vs, record => ((get record).read slots blank vs).map fun inner ↦ set inner record
  | _, _ => none

end Json
end MipsAsm
