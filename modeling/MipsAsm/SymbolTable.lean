import Std.Data.TreeMap
import MipsAsm.Error
import MipsAsm.Log
import MipsAsm.Sink
import MipsAsm.Text.Digits

/-!
# Symbol tables

A symbol table keeps names with their addresses in the order they were inserted.  It is used for the
labels of a source, where a name occurs once, and for relocation records, where the same name occurs
once for every instruction that refers to it.

Addresses are multiples of four.  The room of a table is explicit: it starts at five entries and
doubles when it is used up, and what cannot be given more room fails with `Fault.outOfMemory`.  The
most room any table may have is an argument of the operations that ask for room.

A lookup answers with the first entry of a name, which an index keeps at hand.
-/

set_option autoImplicit false

namespace MipsAsm

/-- A name and its address. -/
structure Symbol where
  /-- The name. -/
  name : String
  /-- The address. -/
  address : UInt32
deriving DecidableEq, Repr, Inhabited

/-- Whether a table accepts a name again. -/
inductive SymbolTable.Mode where
  /-- A name occurs at most once. -/
  | unique
  /-- A name may occur any number of times. -/
  | repeatable
deriving DecidableEq, Repr, Inhabited

/-- Names with their addresses, in the order they were inserted. -/
structure SymbolTable where
  /-- Whether a name may occur again. -/
  mode : SymbolTable.Mode
  /-- The entries in the order they were inserted. -/
  entries : Array Symbol
  /-- The position of the first entry of each name. -/
  firstIndex : Std.TreeMap String Nat
  /-- How many entries there is room for. -/
  capacity : Nat

namespace SymbolTable

/-- The room of a new table. -/
def initialCapacity : Nat := 5

/-- The most room a table may have, unless it is said otherwise. -/
def defaultLimit : Int := 0x7fffffff

/-- A new table without entries. -/
def new (limit : Int) (mode : Mode) : Except Fault SymbolTable :=
  if limit < initialCapacity then
    .error .outOfMemory
  else
    .ok { mode, entries := #[], firstIndex := ∅, capacity := initialCapacity }

/-- The number of entries. -/
def size (t : SymbolTable) : Nat := t.entries.size

/-- Whether a table that is full can be given twice the room it has. -/
def canGrow (limit : Int) (t : SymbolTable) : Bool := t.capacity != 0 && 2 * t.capacity ≤ limit

/-- A table with room for one more entry: twice the room if there was none left. -/
def makeRoom (t : SymbolTable) : SymbolTable :=
  if t.size = t.capacity then { t with capacity := 2 * t.capacity } else t

/-- Why an entry cannot be added.  The address has to be a multiple of four, in a table of unique
names the name has to be new, and there has to be room or more room to get. -/
def insertFault? (limit : Int) (t : SymbolTable) (name : String) (address : UInt32) :
    Option Fault :=
  if address % 4 ≠ 0 then
    some <| .rejected
      { kind := .misalignedAddress, mnemonic := "", construct := Text.decimal address.toNat }
  else if t.mode = .unique ∧ name ∈ t.firstIndex then
    some <| .rejected { kind := .duplicateName, mnemonic := "", construct := name }
  else if t.size = t.capacity ∧ ¬t.canGrow limit then
    some .outOfMemory
  else
    none

/-- Add an entry at the end, or leave the table as it is and say why. -/
def insert (limit : Int) (t : SymbolTable) (name : String) (address : UInt32) :
    SymbolTable × Except Fault Unit :=
  match t.insertFault? limit name address with
  | some fault => (t, .error fault)
  | none =>
    let t := t.makeRoom
    let position := t.size
    ({ t with
        entries := t.entries.push { name, address }
        firstIndex := t.firstIndex.insertIfNew name position }, .ok ())

/-- The address of the first entry of a name. -/
def find? (t : SymbolTable) (name : String) : Option UInt32 := do
  let i ← t.firstIndex[name]?
  let s ← t.entries[i]?
  return s.address

/-- Give up all entries and all room.  Nothing can be inserted afterwards. -/
def release (t : SymbolTable) : SymbolTable :=
  { t with entries := #[], firstIndex := ∅, capacity := 0 }

/-! ## Writing a table

A table is written as lines that other programs read: an address in base ten, a tab and a name. -/

/-- The line of an entry: address, tab, name. -/
def entryLine (s : Symbol) : String := Text.decimal s.address.toNat ++ "\t" ++ s.name ++ "\n"

/-- The lines of all entries. -/
def lines (t : SymbolTable) : List String := t.entries.toList.map entryLine

/-- The lines of all entries as one text. -/
def dump (t : SymbolTable) : String := String.join t.lines

/-- Write the lines of all entries, one write for each. -/
def writeTo (t : SymbolTable) (sink : Sink) : Sink.Write := sink.writeAll t.lines

end SymbolTable

/-- What the log says of an insertion that was rejected. -/
def Error.insertionReport? (e : Error) : Option Log.Entry :=
  match e.kind with
  | .misalignedAddress => some <| .report "Error: address is not a multiple of 4."
  | .duplicateName =>
    some <| .report ("Error: name '" ++ e.construct ++ "' already exists in table.")
  | _ => none

end MipsAsm
