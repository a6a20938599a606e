import Std.Data.TreeMap.Lemmas
import MipsAsm.SymbolTable

/-!
# The index of a symbol table

A symbol table keeps an index of the first entry of each name.  A table is well formed if the index
is right, the names of a table of unique names are different, and all addresses are multiples of
four.  New tables are well formed and insertions keep them so.

* `SymbolTable.find?_eq` — a lookup in a well-formed table answers as a search through its entries
  from the first on would.
* `SymbolTable.insert_cases` — what an insertion can do: add one entry at the end, or nothing.
* `SymbolTable.Reachable` — the states that a table can be in.  All of them are well formed.
-/

set_option autoImplicit false

namespace MipsAsm
namespace SymbolTable

/-- What lookups in a table rely on and insertions keep. -/
structure WellFormed (t : SymbolTable) : Prop where
  /-- The index leads to the first entry of each name. -/
  index : ∀ name, t.firstIndex[name]? = t.entries.toList.findIdx? (·.name == name)
  /-- Where names are unique, none is there twice. -/
  unique : t.mode = .unique → (t.entries.toList.map Symbol.name).Nodup
  /-- Addresses are multiples of four. -/
  aligned : ∀ s ∈ t.entries.toList, s.address % 4 = 0

/-- **A lookup finds the first entry of a name.** -/
theorem find?_eq {t : SymbolTable} (h : t.WellFormed) (name : String) :
    t.find? name = (t.entries.toList.find? (·.name == name)).map Symbol.address := by
  rw [find?, h.index, List.find?_eq_bind_findIdx?_getElem?]
  cases t.entries.toList.findIdx? (·.name == name) with
  | none => rfl
  | some i =>
    simp only [Option.bind_eq_bind, Option.bind_some, Array.getElem?_toList]
    cases t.entries[i]? <;> rfl

theorem mem_firstIndex_iff {t : SymbolTable} (h : t.WellFormed) {name : String} :
    name ∈ t.firstIndex ↔ name ∈ t.entries.toList.map Symbol.name := by
  rw [Std.TreeMap.mem_iff_isSome_getElem?, h.index, List.findIdx?_isSome, List.any_eq_true,
    List.mem_map]
  simp only [beq_iff_eq]

/-! ## New tables

There are two ways to a table without entries, making one and giving one up.  A new table has room
and a table that was given up has none, which makes no difference here. -/

/-- A table without entries. -/
def empty (mode : Mode) : SymbolTable :=
  { mode, entries := #[], firstIndex := ∅, capacity := initialCapacity }

theorem new_eq_ok {limit : Int} {mode : Mode} {t : SymbolTable} (h : new limit mode = .ok t) :
    t = empty mode := by
  rw [new] at h
  split at h
  · cases h
  · cases h
    rfl

theorem wellFormed_empty (mode : Mode) : (empty mode).WellFormed :=
  ⟨fun name ↦ by simp [empty], fun _ ↦ List.nodup_nil, fun s hs ↦ absurd hs List.not_mem_nil⟩

theorem wellFormed_new {limit : Int} {mode : Mode} {t : SymbolTable} (h : new limit mode = .ok t) :
    t.WellFormed := by
  obtain rfl := new_eq_ok h
  exact wellFormed_empty mode

theorem wellFormed_release (t : SymbolTable) : t.release.WellFormed :=
  ⟨fun name ↦ by simp [release], fun _ ↦ List.nodup_nil, fun s hs ↦ absurd hs List.not_mem_nil⟩

/-! ## Insertions

Everything that is said of insertions, here and elsewhere, is derived from
`SymbolTable.insert_cases`.  An entry is added at the end, so the first entry of each name stays the
first. -/

theorem insertFault?_eq_none {limit : Int} {t : SymbolTable} {name : String} {address : UInt32}
    (h : t.insertFault? limit name address = none) :
    address % 4 = 0 ∧ (t.mode = .unique → name ∉ t.firstIndex) := by
  rw [insertFault?] at h
  split at h
  · cases h
  · rename_i haligned
    split at h
    · cases h
    · rename_i hnew
      exact ⟨Classical.not_not.mp haligned, fun hmode hmem ↦ hnew ⟨hmode, hmem⟩⟩

/-- At a multiple of four, only a name that is there already is rejected. -/
theorem duplicate_of_insertFault? {limit : Int} {t : SymbolTable} {name : String}
    {address : UInt32} {e : Error} (haddress : address % 4 = 0)
    (h : t.insertFault? limit name address = some (.rejected e)) :
    e = { kind := .duplicateName, mnemonic := "", construct := name } ∧ name ∈ t.firstIndex := by
  rw [insertFault?, if_neg (not_not_intro haddress)] at h
  split at h
  · rename_i hduplicate
    cases h
    exact ⟨rfl, hduplicate.2⟩
  · split at h <;> cases h

/-- What an insertion can do: nothing, or add one entry at the end. -/
theorem insert_cases {limit : Int} {t t' : SymbolTable} {name : String} {address : UInt32}
    {outcome : Except Fault Unit} (h : t.insert limit name address = (t', outcome)) :
    (∃ fault, t.insertFault? limit name address = some fault ∧ outcome = .error fault ∧ t' = t) ∨
      t.insertFault? limit name address = none ∧ outcome = .ok () ∧
        t'.mode = t.mode ∧ t'.entries = t.entries.push { name, address } ∧
        t'.firstIndex = t.firstIndex.insertIfNew name t.size := by
  rw [insert] at h
  split at h
  · rename_i fault hfault
    cases h
    exact .inl ⟨fault, hfault, rfl, rfl⟩
  · rename_i hfault
    cases h
    refine .inr ⟨hfault, rfl, ?_⟩
    rw [makeRoom]
    split <;> exact ⟨rfl, rfl, rfl⟩

/-- **Insertions keep a table well formed.** -/
theorem wellFormed_insert {limit : Int} {t t' : SymbolTable} {name : String} {address : UInt32}
    {outcome : Except Fault Unit} (ht : t.WellFormed)
    (h : t.insert limit name address = (t', outcome)) : t'.WellFormed := by
  obtain ⟨fault, -, -, rfl⟩ | ⟨hfault, -, hmode, hentries, hindex⟩ := insert_cases h
  · exact ht
  · obtain ⟨haligned, hnew⟩ := insertFault?_eq_none hfault
    have hlist : t'.entries.toList = t.entries.toList ++ [⟨name, address⟩] := by
      rw [hentries, Array.toList_push]
    refine ⟨fun other ↦ ?_, fun hunique ↦ ?_, fun s hs ↦ ?_⟩
    · -- the new entry is the first of its name exactly if the name was not in the index
      rw [hindex, Std.TreeMap.getElem?_insertIfNew, hlist, List.findIdx?_append, ht.index]
      by_cases hother : name = other
      · subst hother
        have hmem : name ∈ t.firstIndex ↔
            (t.entries.toList.findIdx? (·.name == name)).isSome = true := by
          rw [Std.TreeMap.mem_iff_isSome_getElem?, ht.index]
        cases hfind : t.entries.toList.findIdx? (·.name == name) with
        | none => simp [hmem, hfind, size]
        | some i => simp [hmem, hfind]
      · simp [hother]
    · rw [hmode] at hunique
      rw [hlist, List.map_append, List.nodup_append]
      refine ⟨ht.unique hunique, by simp, ?_⟩
      intro a ha b hb
      simp only [List.map_cons, List.map_nil, List.mem_singleton] at hb
      rw [hb]
      rintro rfl
      exact hnew hunique ((mem_firstIndex_iff ht).mpr ha)
    · rw [hlist] at hs
      rcases List.mem_append.mp hs with hs | hs
      · exact ht.aligned s hs
      · rw [List.mem_singleton] at hs
        rw [hs]
        exact haligned

/-- The states that a table can be in: what comes of a new table by insertions, which may be allowed
any room at any time, and by giving it up. -/
inductive Reachable : SymbolTable → Prop where
  /-- A new table. -/
  | new {limit : Int} {mode : Mode} {t : SymbolTable} (h : SymbolTable.new limit mode = .ok t) :
    Reachable t
  /-- A table after an insertion, whatever became of that. -/
  | insert {t : SymbolTable} (h : Reachable t) (limit : Int) (name : String) (address : UInt32) :
    Reachable (t.insert limit name address).1
  /-- A table that was given up. -/
  | release {t : SymbolTable} (h : Reachable t) : Reachable t.release

theorem Reachable.wellFormed {t : SymbolTable} (h : t.Reachable) : t.WellFormed := by
  induction h with
  | new h => exact wellFormed_new h
  | @insert t _ limit name address ih =>
    exact wellFormed_insert ih (Prod.eta (t.insert limit name address)).symm
  | release => exact wellFormed_release _

/-! ## Outcomes

The assembler needs to know which of the faults can occur.  In a table of unique names at a multiple
of four it is the repeated name, and in one of names that may be repeated it is the address; apart
from the want of room. -/

theorem insert_snd (limit : Int) (t : SymbolTable) (name : String) (address : UInt32) :
    (t.insert limit name address).2 =
      match t.insertFault? limit name address with
      | some fault => .error fault
      | none => .ok () := by
  rw [insert]
  cases t.insertFault? limit name address <;> rfl

/-- There is always room in a new table. -/
theorem insertFault?_empty_ne_outOfMemory (limit : Int) (mode : Mode) (name : String)
    (address : UInt32) : (empty mode).insertFault? limit name address ≠ some .outOfMemory := by
  have hroom : ¬((empty mode).size = (empty mode).capacity ∧ ¬(empty mode).canGrow limit) :=
    fun h ↦ absurd h.1 (Nat.ne_of_beq_eq_false rfl)
  rw [insertFault?, if_neg hroom]
  split
  · simp
  · split <;> simp

/-- Where names may be repeated and there is room, only the address can be wrong. -/
theorem insertFault?_repeatable {limit : Int} {t : SymbolTable} {name : String} {address : UInt32}
    (hmode : t.mode = .repeatable) (h : t.insertFault? limit name address ≠ some .outOfMemory) :
    t.insertFault? limit name address =
      if address % 4 ≠ 0 then
        some <| .rejected
          { kind := .misalignedAddress, mnemonic := "", construct := Text.decimal address.toNat }
      else none := by
  have hrepeat : ¬(t.mode = .unique ∧ name ∈ t.firstIndex) := by
    rw [hmode]
    rintro ⟨hunique, -⟩
    cases hunique
  rw [insertFault?, if_neg hrepeat] at h ⊢
  by_cases haddress : address % 4 ≠ 0
  · rw [if_pos haddress, if_pos haddress]
  · rw [if_neg haddress] at h
    rw [if_neg haddress, if_neg haddress]
    split
    · rename_i hfull
      exact absurd (if_pos hfull) h
    · rfl

/-- What becomes of an insertion into a table of names that may be repeated does not depend on its
entries, as long as there is room. -/
theorem insert_empty {limit : Int} {t : SymbolTable} {name : String} {address : UInt32}
    (hmode : t.mode = .repeatable) (h : (t.insert limit name address).2 ≠ .error .outOfMemory) :
    ((empty .repeatable).insert limit name address).2 = (t.insert limit name address).2 := by
  rw [insert_snd] at h
  have hroom : t.insertFault? limit name address ≠ some .outOfMemory := by
    intro hfault
    rw [hfault] at h
    exact h rfl
  rw [insert_snd, insert_snd, insertFault?_repeatable hmode hroom,
    insertFault?_repeatable rfl (insertFault?_empty_ne_outOfMemory limit .repeatable name address)]

theorem insert_empty_ne_outOfMemory (limit : Int) (mode : Mode) (name : String)
    (address : UInt32) : ((empty mode).insert limit name address).2 ≠ .error .outOfMemory := by
  rw [insert_snd]
  split
  · rename_i fault hfault
    intro h
    obtain rfl := Except.error.inj h
    exact insertFault?_empty_ne_outOfMemory limit mode name address hfault
  · simp

end SymbolTable
end MipsAsm
