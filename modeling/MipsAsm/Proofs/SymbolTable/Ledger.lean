import Mathlib.Algebra.Group.Nat.Defs
import Mathlib.Data.Nat.Log
import Mathlib.Order.Bounds.Basic
import MipsAsm.Proofs.SymbolTable

/-!
# Tables as plain lists

A symbol table keeps an index beside its entries and doubles its room when it is used up.  Neither
shows in its answers.  A `Ledger` is a table without them: a list of names with addresses, searched
from the front.  Its room follows from its length.

Room is the one thing in which a list and a table could differ, since a list needs none.  A ledger
therefore asks for room too, and fails where a table does.  How much it asks for is computed from
the number of its entries, and not from a record of how often it grew.

* `SymbolTable.isLeast_roomFor` — the room of a table of a given length.
* `SymbolTable.Represents` — what a table has to do with its ledger.  It holds of new tables.
* `SymbolTable.Represents.insert`, `SymbolTable.Represents.find?` — insertions have the same outcome
  on both and keep them alike, and lookups find the same.
-/

set_option autoImplicit false

namespace MipsAsm

/-! ## Room

The room of a table is a number of its state, and grows when it is used up.  It could be computed
from the number of entries instead, since entries are added one at a time: it is the least of the
numbers 5, 10, 20 and so on that is no less. -/

namespace SymbolTable

/-- The room of a table of `n` entries: the initial room, doubled as often as needed. -/
def roomFor (n : Nat) : Nat := initialCapacity * 2 ^ Nat.clog 2 ((n + 4) / 5)

/-- What a table of `n` entries may have as its room. -/
def Rooms (n : Nat) : Set Nat := { c | ∃ j, c = 5 * 2 ^ j ∧ max 5 n ≤ c }

/-- **The room of a table** is the least that suffices. -/
theorem isLeast_roomFor (n : Nat) : IsLeast (Rooms n) (roomFor n) := by
  have hpos : ∀ j, 0 < 2 ^ j := fun j ↦ Nat.pow_pos Nat.two_pos
  refine ⟨⟨Nat.clog 2 ((n + 4) / 5), rfl, ?_⟩, ?_⟩
  · have hle := Nat.le_pow_clog Nat.one_lt_two ((n + 4) / 5)
    have := hpos (Nat.clog 2 ((n + 4) / 5))
    rw [roomFor, initialCapacity]
    omega
  · rintro c ⟨j, rfl, hj⟩
    have hclog : Nat.clog 2 ((n + 4) / 5) ≤ j := Nat.clog_le_of_le_pow (by omega)
    exact Nat.mul_le_mul_left 5 (Nat.pow_le_pow_right Nat.two_pos hclog)

theorem roomFor_zero : roomFor 0 = initialCapacity := by simp [roomFor]

theorem le_roomFor (n : Nat) : n ≤ roomFor n := by
  obtain ⟨⟨j, -, hle⟩, -⟩ := isLeast_roomFor n
  omega

/-- Where there is room left, one more entry needs no other room. -/
theorem roomFor_succ_of_lt {n : Nat} (h : n < roomFor n) : roomFor (n + 1) = roomFor n := by
  obtain ⟨⟨j, hj, hle⟩, hleast⟩ := isLeast_roomFor n
  refine (isLeast_roomFor (n + 1)).unique ⟨⟨j, hj, by omega⟩, ?_⟩
  rintro c ⟨i, hi, hc⟩
  exact hleast ⟨i, hi, by omega⟩

/-- Where the room is used up, one more entry needs twice the room. -/
theorem roomFor_succ_of_eq {n : Nat} (h : n = roomFor n) : roomFor (n + 1) = 2 * n := by
  obtain ⟨⟨j, hj, hle⟩, -⟩ := isLeast_roomFor n
  refine (isLeast_roomFor (n + 1)).unique ⟨⟨j + 1, ?_, by omega⟩, ?_⟩
  · rw [h, hj]
    omega
  · rintro c ⟨i, rfl, hc⟩
    have hlt : 2 ^ j < 2 ^ i := by omega
    have hpow : 2 ^ (j + 1) ≤ 2 ^ i :=
      Nat.pow_le_pow_right Nat.two_pos ((Nat.pow_lt_pow_iff_right Nat.one_lt_two).mp hlt)
    omega

end SymbolTable

/-! ## Ledgers

All operations on tables once more, in the simplest way.  A ledger that was given up is marked, as
it has as many entries as a new one. -/

/-- A table as a plain list of names with their addresses. -/
structure Ledger where
  /-- Whether a name may occur again. -/
  mode : SymbolTable.Mode
  /-- The entries in the order they were inserted. -/
  entries : List Symbol
  /-- Whether the ledger was given up. -/
  released : Bool

namespace Ledger

/-- A new ledger without entries. -/
def new (limit : Int) (mode : SymbolTable.Mode) : Except Fault Ledger :=
  if limit < SymbolTable.roomFor 0 then .error .outOfMemory
  else .ok { mode, entries := [], released := false }

/-- Why an entry cannot be added. -/
def insertFault? (limit : Int) (l : Ledger) (name : String) (address : UInt32) : Option Fault :=
  let n := l.entries.length
  if address % 4 ≠ 0 then
    some <| .rejected
      { kind := .misalignedAddress, mnemonic := "", construct := Text.decimal address.toNat }
  else if l.mode = .unique ∧ name ∈ l.entries.map Symbol.name then
    some <| .rejected { kind := .duplicateName, mnemonic := "", construct := name }
  else if l.released ∨ SymbolTable.roomFor n < SymbolTable.roomFor (n + 1) ∧
      limit < SymbolTable.roomFor (n + 1) then
    some .outOfMemory
  else
    none

theorem released_of_insertFault? {limit : Int} {l : Ledger} {name : String} {address : UInt32}
    (h : l.insertFault? limit name address = none) : l.released = false := by
  cases hreleased : l.released with
  | false => rfl
  | true =>
    simp only [insertFault?, hreleased, true_or, ↓reduceIte] at h
    split at h
    · cases h
    · split at h <;> cases h

/-- Add an entry at the end, or leave the ledger as it is and say why. -/
def insert (limit : Int) (l : Ledger) (name : String) (address : UInt32) :
    Ledger × Except Fault Unit :=
  match l.insertFault? limit name address with
  | some fault => (l, .error fault)
  | none => ({ l with entries := l.entries ++ [{ name, address }] }, .ok ())

/-- The address of the first entry of a name. -/
def find? (l : Ledger) (name : String) : Option UInt32 :=
  (l.entries.find? (·.name == name)).map Symbol.address

/-- Write the lines of all entries, one write for each. -/
def writeTo (l : Ledger) (sink : Sink) : Sink.Write :=
  sink.writeAll (l.entries.map SymbolTable.entryLine)

/-- Give up all entries.  Nothing can be inserted afterwards. -/
def release (l : Ledger) : Ledger := { l with entries := [], released := true }

end Ledger

/-! ## Tables and their ledgers

Both have the same entries, the index of the table is right, and its room is what follows from the
number of entries.  Each operation is shown to respect that, and an insertion needs all of it: the
index for a name that is there already, and the room for the question of whether to grow. -/

namespace SymbolTable

/-- An insertion takes no room away. -/
theorem capacity_le_insert {limit : Int} {name : String} {address : UInt32} (t : SymbolTable) :
    t.capacity ≤ (t.insert limit name address).1.capacity := by
  rw [insert]
  split
  · exact Nat.le_refl _
  · show t.capacity ≤ t.makeRoom.capacity
    rw [makeRoom]
    split
    · exact Nat.le_mul_of_pos_left _ Nat.two_pos
    · exact Nat.le_refl _

/-- The table has the entries of the ledger, and an index and room that fit them. -/
structure Represents (t : SymbolTable) (l : Ledger) : Prop where
  /-- Both accept the same names. -/
  mode : t.mode = l.mode
  /-- Both have the same entries. -/
  entries : t.entries.toList = l.entries
  /-- The index is right. -/
  wellFormed : t.WellFormed
  /-- The room follows from the number of entries. -/
  capacity : t.capacity = if l.released then 0 else roomFor l.entries.length
  /-- Nothing is left of what was given up. -/
  released : l.released = true → l.entries = []

variable {t : SymbolTable} {l : Ledger} {limit : Int} {name : String} {address : UInt32}

namespace Represents

theorem size_eq (h : t.Represents l) : t.size = l.entries.length := by
  rw [← h.entries, Array.length_toList, size]

theorem find? (h : t.Represents l) (name : String) : t.find? name = l.find? name := by
  rw [find?_eq h.wellFormed, h.entries, Ledger.find?]

theorem writeTo (h : t.Represents l) (sink : Sink) : t.writeTo sink = l.writeTo sink := by
  rw [SymbolTable.writeTo, lines, h.entries, Ledger.writeTo]

theorem release (h : t.Represents l) : t.release.Represents l.release where
  mode := h.mode
  entries := rfl
  wellFormed := t.wellFormed_release
  capacity := rfl
  released _ := rfl

/-- A table is full if one more entry needs more room, and can grow if there may be so much. -/
theorem full_iff (h : t.Represents l) :
    t.size = t.capacity ∧ ¬t.canGrow limit ↔
      l.released = true ∨ roomFor l.entries.length < roomFor (l.entries.length + 1) ∧
        limit < roomFor (l.entries.length + 1) := by
  rw [h.size_eq, h.capacity, canGrow, h.capacity]
  cases hreleased : l.released with
  | true => simp [h.released hreleased]
  | false =>
    have hle := le_roomFor l.entries.length
    simp only [Bool.false_eq_true, ↓reduceIte, false_or]
    rcases Nat.lt_or_eq_of_le hle with hlt | heq
    · rw [roomFor_succ_of_lt hlt]
      omega
    · have hpos : 0 < roomFor l.entries.length := by
        obtain ⟨⟨j, -, hmax⟩, -⟩ := isLeast_roomFor l.entries.length
        omega
      rw [roomFor_succ_of_eq heq, ← heq]
      simp only [Bool.and_eq_true, bne_iff_ne, decide_eq_true_eq, true_and]
      omega

theorem insertFault? (h : t.Represents l) :
    t.insertFault? limit name address = l.insertFault? limit name address := by
  have hduplicate : t.mode = .unique ∧ name ∈ t.firstIndex ↔
      l.mode = .unique ∧ name ∈ l.entries.map Symbol.name := by
    rw [h.mode, mem_firstIndex_iff h.wellFormed, h.entries]
  simp only [SymbolTable.insertFault?, Ledger.insertFault?, hduplicate, h.full_iff]

theorem new {mode : Mode} (h : SymbolTable.new limit mode = .ok t) :
    t.Represents { mode, entries := [], released := false } := by
  have hwell := wellFormed_new h
  obtain rfl := new_eq_ok h
  exact ⟨rfl, rfl, hwell, roomFor_zero.symm, fun _ ↦ rfl⟩

/-- The room after an insertion fits the entries after it. -/
theorem capacity_insert (h : t.Represents l) (hfault : l.insertFault? limit name address = none) :
    (t.insert limit name address).1.capacity = roomFor (l.entries.length + 1) := by
  have hnone : t.insertFault? limit name address = none := h.insertFault?.trans hfault
  have hreleased : l.released = false := Ledger.released_of_insertFault? hfault
  have hcapacity := h.capacity
  rw [hreleased, if_neg Bool.false_ne_true] at hcapacity
  rw [SymbolTable.insert, hnone]
  show t.makeRoom.capacity = _
  rw [makeRoom, h.size_eq, hcapacity]
  rcases Nat.lt_or_eq_of_le (le_roomFor l.entries.length) with hlt | heq
  · rw [if_neg (Nat.ne_of_lt hlt), roomFor_succ_of_lt hlt, hcapacity]
  · rw [if_pos heq, roomFor_succ_of_eq heq, ← heq]

/-- **An insertion** has the same outcome on both and keeps them alike. -/
theorem insert (h : t.Represents l) (limit : Int) (name : String) (address : UInt32) :
    (t.insert limit name address).2 = (l.insert limit name address).2 ∧
      (t.insert limit name address).1.Represents (l.insert limit name address).1 := by
  have hinsert := (Prod.eta (t.insert limit name address)).symm
  obtain ⟨fault, hfault, houtcome, hsame⟩ | ⟨hfault, houtcome, hmode, hentries, -⟩ :=
    insert_cases hinsert
  · rw [h.insertFault?] at hfault
    rw [Ledger.insert, hfault, hsame]
    exact ⟨houtcome, h⟩
  · rw [h.insertFault?] at hfault
    have hreleased := Ledger.released_of_insertFault? hfault
    have hcapacity := h.capacity_insert hfault
    rw [Ledger.insert, hfault]
    refine ⟨houtcome, hmode.trans h.mode, ?_, wellFormed_insert h.wellFormed hinsert, ?_, ?_⟩
    · rw [hentries, Array.toList_push, h.entries]
    · rw [hcapacity, if_neg (by simp [hreleased]), List.length_append, List.length_singleton]
    · simp [hreleased]

/-- Nothing can be found in a table that was given up, nor added to it. -/
theorem of_released (h : t.Represents l) (hreleased : l.released = true) :
    t.capacity = 0 ∧ (∀ name, t.find? name = none) ∧
      ∀ limit name address, ∃ fault, t.insert limit name address = (t, .error fault) := by
  have hempty := h.released hreleased
  refine ⟨?_, fun name ↦ ?_, fun limit name address ↦ ?_⟩
  · rw [h.capacity, if_pos hreleased]
  · rw [h.find?, Ledger.find?, hempty]
    rfl
  · obtain ⟨fault, -, houtcome, hsame⟩ | ⟨hfault, -⟩ :=
      insert_cases (Prod.eta (t.insert limit name address)).symm
    · exact ⟨fault, Prod.ext hsame houtcome⟩
    · rw [h.insertFault?] at hfault
      rw [Ledger.released_of_insertFault? hfault] at hreleased
      cases hreleased

end Represents
end SymbolTable

end MipsAsm
