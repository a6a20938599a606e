import MipsAsm.Proofs.Lists
import MipsAsm.Proofs.SymbolTable.Ledger

/-!
# Sessions with tables

A `Session` is any number of tables with the most room one may have.  Actions are taken one after
the other, each with an answer, and the same actions can be taken on symbol tables and on ledgers.

Two tables may be used side by side, and a table may be given up and asked again, so the statement
is about sessions and not about one table.  All that can be observed is in the answers: entries,
addresses, what was written to a sink and the causes of failures.  That they are the same for tables
and for ledgers says that the index and the doubling cannot be noticed, except through the room that
runs out.

A ledger is simpler than a table, but it is still a state with operations of its own.  So there is a
second step, from ledgers to transcripts.  The entries of a table are those symbols for which the
transcript has an insertion with success, after the last time the table was given up.  Both steps
are invariants of one action and inductions over the actions.

* `Session.Represents.step` — an action has the same answer on both and keeps them alike.
* `Session.run_represents` — so do any number of actions.
* `Session.run_recorded` — the entries of a ledger are the symbols that were added to it, as the
  transcript of a session tells.
* `symbol_table_refines_list` — what both say of symbol tables.
-/

set_option autoImplicit false

namespace MipsAsm

/-! ## Sessions

A session is a state machine over any kind of table.  The operations come as a record, so that the
same actions can be run with tables and with ledgers.  The room that a table may have can be changed
between any two actions. -/

/-- The operations on tables, whatever a table is. -/
structure TableOperations (T : Type) where
  /-- A new table, given the most room it may have. -/
  new : Int → SymbolTable.Mode → Except Fault T
  /-- Add an entry. -/
  insert : Int → T → String → UInt32 → T × Except Fault Unit
  /-- The address of a name. -/
  find? : T → String → Option UInt32
  /-- The entries in order. -/
  entries : T → List Symbol
  /-- Write the lines of all entries. -/
  writeTo : T → Sink → Sink.Write
  /-- Give up all entries. -/
  release : T → T

/-- The operations on symbol tables. -/
def SymbolTable.operations : TableOperations SymbolTable :=
  { new := SymbolTable.new, insert := SymbolTable.insert, find? := SymbolTable.find?
    entries := fun t ↦ t.entries.toList, writeTo := SymbolTable.writeTo
    release := SymbolTable.release }

/-- The operations on ledgers. -/
def Ledger.operations : TableOperations Ledger :=
  { new := Ledger.new, insert := Ledger.insert, find? := Ledger.find?, entries := Ledger.entries
    writeTo := Ledger.writeTo, release := Ledger.release }

deriving instance DecidableEq for Sink.Write

/-- Some tables, in the order they were made. -/
structure Session (T : Type) where
  /-- The most room a table may have. -/
  limit : Int
  /-- The tables. -/
  tables : List T

namespace Session

/-- What can be done in a session.  Tables are known by their positions. -/
inductive Action where
  /-- Make a table. -/
  | new (mode : SymbolTable.Mode)
  /-- Add an entry to a table. -/
  | insert (table : Nat) (name : String) (address : UInt32)
  /-- Look a name up. -/
  | find (table : Nat) (name : String)
  /-- List the entries of a table. -/
  | list (table : Nat)
  /-- Write a table to a sink. -/
  | write (table : Nat) (sink : Sink)
  /-- Give a table up. -/
  | release (table : Nat)
  /-- Change the most room a table may have. -/
  | allow (limit : Int)
deriving DecidableEq

/-- What comes back from an action. -/
inductive Answer where
  /-- It was done, and there is nothing to tell. -/
  | done
  /-- It failed. -/
  | failed (fault : Fault)
  /-- The address of a name, if it has one. -/
  | found (address : Option UInt32)
  /-- The entries of a table. -/
  | listed (entries : List Symbol)
  /-- What became of a write. -/
  | written (write : Sink.Write)
  /-- There is no such table. -/
  | noTable
deriving DecidableEq

/-- The answer to an action that may fail. -/
def Answer.ofOutcome : Except Fault Unit → Answer
  | .ok () => .done
  | .error fault => .failed fault

variable {T : Type}

/-- Do something with one of the tables. -/
def withTable (s : Session T) (k : Nat) (f : T → T × Answer) : Session T × Answer :=
  match s.tables[k]? with
  | none => (s, .noTable)
  | some t => ({ s with tables := s.tables.set k (f t).1 }, (f t).2)

/-- Take an action. -/
def step (ops : TableOperations T) (s : Session T) : Action → Session T × Answer
  | .new mode =>
    match ops.new s.limit mode with
    | .ok t => ({ s with tables := s.tables ++ [t] }, .done)
    | .error fault => (s, .failed fault)
  | .insert k name address =>
    s.withTable k fun t ↦
      let (t', outcome) := ops.insert s.limit t name address
      (t', .ofOutcome outcome)
  | .find k name => s.withTable k fun t ↦ (t, .found (ops.find? t name))
  | .list k => s.withTable k fun t ↦ (t, .listed (ops.entries t))
  | .write k sink => s.withTable k fun t ↦ (t, .written (ops.writeTo t sink))
  | .release k => s.withTable k fun t ↦ (ops.release t, .done)
  | .allow limit => ({ s with limit }, .done)

/-- Take the given actions one by one, from a session without tables.  The result comes with a
transcript: the actions, each with its answer. -/
def run (ops : TableOperations T) (limit : Int) (actions : List Action) :
    Session T × List (Action × Answer) :=
  actions.foldl
    (fun (s, transcript) action ↦
      let (s', answer) := s.step ops action
      (s', transcript ++ [(action, answer)]))
    ({ limit, tables := [] }, [])

theorem run_concat (ops : TableOperations T) (limit : Int) (actions : List Action)
    (action : Action) :
    run ops limit (actions ++ [action]) =
      (((run ops limit actions).1.step ops action).1,
        (run ops limit actions).2 ++
          [(action, ((run ops limit actions).1.step ops action).2)]) := by
  rw [run, List.foldl_append]
  rfl

/-! ## Sessions with tables and with ledgers

One step of the simulation for each action, and an induction over the actions, from the last. -/

/-- The tables of one session have the ledgers of the other. -/
structure Represents (s : Session SymbolTable) (s' : Session Ledger) : Prop where
  /-- Tables may have as much room in both. -/
  limit : s.limit = s'.limit
  /-- Each table has its ledger. -/
  tables : List.Forall₂ SymbolTable.Represents s.tables s'.tables

variable {s : Session SymbolTable} {s' : Session Ledger}

theorem Represents.exists_ledger (h : s.Represents s') {k : Nat} {t : SymbolTable}
    (hk : s.tables[k]? = some t) : ∃ l, s'.tables[k]? = some l ∧ t.Represents l := by
  have hrel := getElem?_rel h.tables k
  rw [hk] at hrel
  generalize s'.tables[k]? = l? at hrel ⊢
  obtain htl | _ := hrel
  exact ⟨_, rfl, htl⟩

/-- What is done alike to a table and to its ledger. -/
theorem Represents.withTable (h : s.Represents s') {f : SymbolTable → SymbolTable × Answer}
    {g : Ledger → Ledger × Answer} (k : Nat)
    (hfg : ∀ t l, t.Represents l → (f t).2 = (g l).2 ∧ (f t).1.Represents (g l).1) :
    (s.withTable k f).2 = (s'.withTable k g).2 ∧
      (s.withTable k f).1.Represents (s'.withTable k g).1 := by
  rw [Session.withTable, Session.withTable]
  have hk := getElem?_rel h.tables k
  cases ht : s.tables[k]? <;> cases hl : s'.tables[k]? <;> rw [ht, hl] at hk
  case none.none => exact ⟨rfl, h⟩
  case none.some => cases hk
  case some.none => cases hk
  case some.some t l =>
    obtain htl | _ := hk
    obtain ⟨hanswer, hnext⟩ := hfg t l htl
    exact ⟨hanswer, h.limit, forall₂_set h.tables hnext k⟩

/-- **An action has the same answer** on tables and on ledgers and keeps them alike. -/
theorem Represents.step (h : s.Represents s') (action : Action) :
    (s.step SymbolTable.operations action).2 = (s'.step Ledger.operations action).2 ∧
      (s.step SymbolTable.operations action).1.Represents (s'.step Ledger.operations action).1 := by
  cases action with
  | new mode =>
    have hledger : Ledger.new s'.limit mode = if s.limit < SymbolTable.initialCapacity then
        .error .outOfMemory else .ok { mode, entries := [], released := false } := by
      rw [Ledger.new, SymbolTable.roomFor_zero, h.limit]
    simp only [Session.step, SymbolTable.operations, Ledger.operations, hledger]
    by_cases hlimit : s.limit < SymbolTable.initialCapacity
    · rw [SymbolTable.new, if_pos hlimit, if_pos hlimit]
      exact ⟨rfl, h⟩
    · have hnew : SymbolTable.new s.limit mode = .ok (.empty mode) := if_neg hlimit
      rw [hnew, if_neg hlimit]
      exact ⟨rfl, h.limit, List.rel_append h.tables (.cons (.new hnew) .nil)⟩
  | insert k name address =>
    refine h.withTable k fun t l htl ↦ ?_
    obtain ⟨houtcome, hnext⟩ := htl.insert s.limit name address
    simp only [SymbolTable.operations, Ledger.operations, ← h.limit]
    exact ⟨congrArg _ houtcome, hnext⟩
  | find k name => exact h.withTable k fun t l htl ↦ ⟨congrArg _ (htl.find? name), htl⟩
  | list k => exact h.withTable k fun t l htl ↦ ⟨congrArg _ htl.entries, htl⟩
  | write k sink => exact h.withTable k fun t l htl ↦ ⟨congrArg _ (htl.writeTo sink), htl⟩
  | release k => exact h.withTable k fun t l htl ↦ ⟨rfl, htl.release⟩
  | allow limit => exact ⟨rfl, rfl, h.tables⟩

/-- **Any number of actions have the same answers** on tables and on ledgers. -/
theorem run_represents (limit : Int) (actions : List Action) :
    (run SymbolTable.operations limit actions).2 = (run Ledger.operations limit actions).2 ∧
      (run SymbolTable.operations limit actions).1.Represents
        (run Ledger.operations limit actions).1 := by
  induction actions using List.reverseRecOn with
  | nil => exact ⟨rfl, rfl, .nil⟩
  | append_singleton actions action ih =>
    obtain ⟨hanswer, hnext⟩ := ih.2.step action
    rw [run_concat, run_concat, ih.1, hanswer]
    exact ⟨rfl, hnext⟩

/-! ## What a transcript tells

A ledger is still a state.  What its entries are can also be read off the actions and their answers:
they are the symbols whose insertion was answered with success.  With this the contents of a table
are described without any state at all. -/

/-- The symbols added to a table since it was given up last, after one more action. -/
def addedBy (k : Nat) (symbols : List Symbol) : Action × Answer → List Symbol
  | (.insert j name address, .done) => if j = k then symbols ++ [{ name, address }] else symbols
  | (.release j, .done) => if j = k then [] else symbols
  | _ => symbols

/-- The symbols that were added to a table since it was given up last. -/
def added (k : Nat) (transcript : List (Action × Answer)) : List Symbol :=
  transcript.foldl (addedBy k) []

/-- A table was given up. -/
def Released (k : Nat) (transcript : List (Action × Answer)) : Prop :=
  (.release k, .done) ∈ transcript

instance (k : Nat) (transcript : List (Action × Answer)) : Decidable (Released k transcript) :=
  inferInstanceAs (Decidable (_ ∈ transcript))

theorem added_concat (k : Nat) (transcript : List (Action × Answer)) (entry : Action × Answer) :
    added k (transcript ++ [entry]) = addedBy k (added k transcript) entry := by
  rw [added, List.foldl_append]
  rfl

theorem released_concat {k : Nat} {transcript : List (Action × Answer)} {entry : Action × Answer} :
    Released k (transcript ++ [entry]) ↔ Released k transcript ∨ entry = (.release k, .done) := by
  rw [Released, List.mem_append, List.mem_singleton, eq_comm (a := entry)]
  rfl

/-- The ledger at a position, or one without entries if there is none. -/
def ledgerAt (s : Session Ledger) (k : Nat) : Ledger :=
  s.tables[k]?.getD { mode := .unique, entries := [], released := false }

theorem ledgerAt_set {j : Nat} {l : Ledger} (hj : s'.tables[j]? = some l) (limit : Int)
    (l' : Ledger) (k : Nat) :
    ledgerAt { limit, tables := s'.tables.set j l' } k = if j = k then l' else s'.ledgerAt k := by
  obtain ⟨hlt, -⟩ := List.getElem?_eq_some_iff.mp hj
  simp only [ledgerAt, List.getElem?_set, hlt, ↓reduceIte]
  split <;> rfl

/-- The ledgers hold what the transcript tells. -/
structure Recorded (s : Session Ledger) (transcript : List (Action × Answer)) : Prop where
  /-- The entries are the symbols that were added. -/
  entries : ∀ k, added k transcript = (s.ledgerAt k).entries
  /-- A ledger is given up if that was done. -/
  released : ∀ k, Released k transcript ↔ (s.ledgerAt k).released = true

variable {transcript : List (Action × Answer)}

/-- Actions that neither add an entry nor give up a table are not recorded. -/
theorem Recorded.of_eq (h : Recorded s' transcript) {next : Session Ledger}
    {entry : Action × Answer} (hnext : ∀ k, (next.ledgerAt k).entries = (s'.ledgerAt k).entries ∧
      (next.ledgerAt k).released = (s'.ledgerAt k).released)
    (hentry : ∀ k symbols, addedBy k symbols entry = symbols ∧ entry ≠ (.release k, .done)) :
    Recorded next (transcript ++ [entry]) := by
  refine ⟨fun k ↦ ?_, fun k ↦ ?_⟩
  · rw [added_concat, (hentry k _).1, h.entries, (hnext k).1]
  · rw [released_concat, or_iff_left (hentry k []).2, h.released, (hnext k).2]

/-- Looking at a table is not recorded. -/
theorem Recorded.look (h : Recorded s' transcript) (j : Nat) (answer : Ledger → Answer)
    {action : Action} (haction : ∀ k symbols answer,
      addedBy k symbols (action, answer) = symbols ∧ (action, answer) ≠ (.release k, .done)) :
    Recorded (s'.withTable j fun l ↦ (l, answer l)).1
      (transcript ++ [(action, (s'.withTable j fun l ↦ (l, answer l)).2)]) := by
  refine h.of_eq (fun k ↦ ?_) fun k symbols ↦ haction k symbols _
  cases hj : s'.tables[j]? with
  | none => simp [withTable, hj]
  | some l =>
    rw [withTable, hj, ledgerAt_set hj]
    split
    · rename_i hjk
      simp [ledgerAt, ← hjk, hj]
    · exact ⟨rfl, rfl⟩

theorem Recorded.new (h : Recorded s' transcript) (mode : SymbolTable.Mode) :
    Recorded (s'.step Ledger.operations (.new mode)).1
      (transcript ++ [(.new mode, (s'.step Ledger.operations (.new mode)).2)]) := by
  refine h.of_eq (fun k ↦ ?_) fun k symbols ↦ ⟨rfl, by simp⟩
  simp only [step, Ledger.operations, Ledger.new]
  split
  · rename_i l hl
    split at hl
    · cases hl
    · cases hl
      -- a new ledger is as good as none
      rw [ledgerAt, ledgerAt, List.getElem?_append]
      split
      · exact ⟨rfl, rfl⟩
      · rename_i hge
        rw [List.getElem?_eq_none (Nat.not_lt.mp hge), List.getElem?_singleton]
        split <;> exact ⟨rfl, rfl⟩
  · exact ⟨rfl, rfl⟩

theorem Recorded.insert (h : Recorded s' transcript) (j : Nat) (name : String) (address : UInt32) :
    Recorded (s'.step Ledger.operations (.insert j name address)).1
      (transcript ++ [(.insert j name address,
        (s'.step Ledger.operations (.insert j name address)).2)]) := by
  rw [step, withTable]
  cases hj : s'.tables[j]? with
  | none => exact h.of_eq (fun k ↦ ⟨rfl, rfl⟩) fun k symbols ↦ ⟨rfl, by simp⟩
  | some l =>
    have hl : s'.ledgerAt j = l := by rw [ledgerAt, hj, Option.getD_some]
    simp only [Ledger.operations, Ledger.insert]
    cases l.insertFault? s'.limit name address with
    | some fault =>
      refine h.of_eq (fun k ↦ ?_) fun k symbols ↦ ⟨rfl, by simp⟩
      rw [ledgerAt_set hj]
      split
      · rename_i hjk
        rw [← hjk, hl]
        exact ⟨rfl, rfl⟩
      · exact ⟨rfl, rfl⟩
    | none =>
      refine ⟨fun k ↦ ?_, fun k ↦ ?_⟩
      · rw [added_concat, ledgerAt_set hj, h.entries]
        simp only [addedBy, Answer.ofOutcome]
        split
        · rename_i hjk
          rw [← hjk, hl]
        · rfl
      · rw [released_concat, or_iff_left (by simp), ledgerAt_set hj, h.released]
        split
        · rename_i hjk
          rw [← hjk, hl]
        · rfl

theorem Recorded.release (h : Recorded s' transcript) (j : Nat) :
    Recorded (s'.step Ledger.operations (.release j)).1
      (transcript ++ [(.release j, (s'.step Ledger.operations (.release j)).2)]) := by
  rw [step, withTable]
  cases hj : s'.tables[j]? with
  | none => exact h.of_eq (fun k ↦ ⟨rfl, rfl⟩) fun k symbols ↦ ⟨rfl, by simp⟩
  | some l =>
    refine ⟨fun k ↦ ?_, fun k ↦ ?_⟩
    · rw [added_concat, ledgerAt_set hj, h.entries]
      simp only [addedBy]
      split <;> rfl
    · rw [released_concat, ledgerAt_set hj, h.released]
      by_cases hjk : j = k
      · simp [hjk, Ledger.operations, Ledger.release]
      · simp [hjk]

/-- **What an action does is recorded.** -/
theorem Recorded.step (h : Recorded s' transcript) (action : Action) :
    Recorded (s'.step Ledger.operations action).1
      (transcript ++ [(action, (s'.step Ledger.operations action).2)]) := by
  cases action with
  | new mode => exact h.new mode
  | insert j name address => exact h.insert j name address
  | release j => exact h.release j
  | find j name => exact h.look j _ fun k symbols answer ↦ ⟨rfl, by simp⟩
  | list j => exact h.look j _ fun k symbols answer ↦ ⟨rfl, by simp⟩
  | write j sink => exact h.look j _ fun k symbols answer ↦ ⟨rfl, by simp⟩
  | allow limit => exact h.of_eq (fun k ↦ ⟨rfl, rfl⟩) fun k symbols ↦ ⟨rfl, by simp⟩

theorem run_recorded (limit : Int) (actions : List Action) :
    Recorded (run Ledger.operations limit actions).1 (run Ledger.operations limit actions).2 := by
  induction actions using List.reverseRecOn with
  | nil => exact ⟨fun k ↦ rfl, fun k ↦ by simp [Released, run, ledgerAt]⟩
  | append_singleton actions action ih =>
    rw [run_concat]
    exact ih.step action

/-! ## What becomes of one table

Actions on other tables leave a table as it is.  Its room does not shrink but when it is given up,
and an insertion that fails changes nothing. -/

theorem tables_withTable {s : Session T} {k : Nat} {t : T} (hk : s.tables[k]? = some t) (j : Nat)
    (f : T → T × Answer) :
    ∃ t', (s.withTable j f).1.tables[k]? = some t' ∧ (t' = t ∨ j = k ∧ t' = (f t).1) := by
  rw [withTable]
  cases hj : s.tables[j]? with
  | none => exact ⟨t, hk, .inl rfl⟩
  | some u =>
    obtain ⟨hlt, -⟩ := List.getElem?_eq_some_iff.mp hj
    by_cases hjk : j = k
    · subst hjk
      obtain rfl := Option.some.inj (hj.symm.trans hk)
      exact ⟨(f u).1, by simp [hlt], .inr ⟨rfl, rfl⟩⟩
    · exact ⟨t, by simp [hjk, hk], .inl rfl⟩

/-- Only giving a table up takes room away from it. -/
theorem capacity_le_step {k : Nat} {t : SymbolTable} (hk : s.tables[k]? = some t) {action : Action}
    (haction : action ≠ .release k) :
    ∃ t', (s.step SymbolTable.operations action).1.tables[k]? = some t' ∧
      t.capacity ≤ t'.capacity := by
  -- looking at a table leaves it as it is
  have hlook : ∀ j (answer : SymbolTable → Answer),
      ∃ t', (s.withTable j fun t ↦ (t, answer t)).1.tables[k]? = some t' ∧
        t.capacity ≤ t'.capacity := by
    intro j answer
    obtain ⟨t', ht', rfl | ⟨-, rfl⟩⟩ := tables_withTable hk j fun t ↦ (t, answer t)
    · exact ⟨_, ht', Nat.le_refl _⟩
    · exact ⟨_, ht', Nat.le_refl _⟩
  cases action with
  | new mode =>
    simp only [step]
    split
    · obtain ⟨hlt, -⟩ := List.getElem?_eq_some_iff.mp hk
      exact ⟨t, by rw [List.getElem?_append_left hlt, hk], Nat.le_refl _⟩
    · exact ⟨t, hk, Nat.le_refl _⟩
  | insert j name address =>
    obtain ⟨t', ht', rfl | ⟨-, rfl⟩⟩ := tables_withTable hk j fun t ↦
      ((t.insert s.limit name address).1, .ofOutcome (t.insert s.limit name address).2)
    · exact ⟨_, ht', Nat.le_refl _⟩
    · exact ⟨_, ht', t.capacity_le_insert⟩
  | find j name => exact hlook j _
  | list j => exact hlook j _
  | write j sink => exact hlook j _
  | allow limit => exact ⟨t, hk, Nat.le_refl _⟩
  | release j =>
    obtain ⟨t', ht', rfl | ⟨rfl, -⟩⟩ := tables_withTable hk j fun t ↦ (t.release, .done)
    · exact ⟨_, ht', Nat.le_refl _⟩
    · exact absurd rfl haction

theorem capacity_le_run {limit : Int} {actions : List Action} {k : Nat} {t : SymbolTable}
    (hk : (run SymbolTable.operations limit actions).1.tables[k]? = some t) {later : List Action}
    (hlater : .release k ∉ later) :
    ∃ t', (run SymbolTable.operations limit (actions ++ later)).1.tables[k]? = some t' ∧
      t.capacity ≤ t'.capacity := by
  induction later using List.reverseRecOn with
  | nil => exact ⟨t, by rwa [List.append_nil], Nat.le_refl _⟩
  | append_singleton later action ih =>
    rw [List.mem_append, not_or, List.mem_singleton] at hlater
    obtain ⟨t', ht', hle⟩ := ih hlater.1
    obtain ⟨t'', ht'', hle'⟩ := capacity_le_step ht' (Ne.symm hlater.2)
    rw [← List.append_assoc, run_concat]
    exact ⟨t'', ht'', Nat.le_trans hle hle'⟩

/-- An insertion that fails changes nothing. -/
theorem step_insert_of_failed {k : Nat} {name : String} {address : UInt32} {fault : Fault}
    (h : (s.step SymbolTable.operations (.insert k name address)).2 = .failed fault) :
    (s.step SymbolTable.operations (.insert k name address)).1 = s := by
  rw [step, withTable] at h ⊢
  cases hk : s.tables[k]? with
  | none => rfl
  | some t =>
    rw [hk] at h
    simp only [SymbolTable.operations] at h ⊢
    obtain ⟨fault', -, -, hsame⟩ | ⟨-, houtcome, -⟩ :=
      SymbolTable.insert_cases (Prod.eta (t.insert s.limit name address)).symm
    · obtain ⟨hlt, rfl⟩ := List.getElem?_eq_some_iff.mp hk
      rw [hsame, List.set_getElem_self]
    · rw [houtcome] at h
      cases h

end Session

/-- **Symbol tables refine plain lists.**  Whatever is done with any number of tables, and whatever
room they may have at each time, the answers are those of plain lists.  The entries of a table are
the symbols that were added to it and not given up since, at addresses that are multiples of four,
and a lookup finds the first of a name.  Where names are unique, none is there twice.  The room of a
table is the least of the form `5 * 2 ^ j` that suffices, and it never gets less, until the table is
given up.  From then on it has no room, finds no name and takes no entry.  An insertion that fails
leaves everything as it was. -/
theorem symbol_table_refines_list (limit : Int) (actions : List Session.Action) :
    let after := Session.run SymbolTable.operations limit actions
    after.2 = (Session.run Ledger.operations limit actions).2 ∧
    ∀ k t, after.1.tables[k]? = some t →
      t.entries.toList = Session.added k after.2 ∧
      (∀ name, t.find? name = (t.entries.toList.find? (·.name == name)).map Symbol.address) ∧
      (∀ symbol ∈ t.entries.toList, symbol.address % 4 = 0) ∧
      (t.mode = .unique → (t.entries.toList.map Symbol.name).Nodup) ∧
      (¬Session.Released k after.2 → IsLeast (SymbolTable.Rooms t.size) t.capacity) ∧
      (Session.Released k after.2 → t.capacity = 0 ∧ (∀ name, t.find? name = none) ∧
        ∀ limit name address, ∃ fault, t.insert limit name address = (t, .error fault)) ∧
      (∀ later, .release k ∉ later →
        ∃ t', (Session.run SymbolTable.operations limit (actions ++ later)).1.tables[k]? = some t' ∧
          t.capacity ≤ t'.capacity) ∧
      ∀ name address fault,
        (after.1.step SymbolTable.operations (.insert k name address)).2 = .failed fault →
          (after.1.step SymbolTable.operations (.insert k name address)).1 = after.1 := by
  intro after
  obtain ⟨hanswers, hrepresents⟩ := Session.run_represents limit actions
  have hrecorded := Session.run_recorded limit actions
  rw [← hanswers] at hrecorded
  refine ⟨hanswers, fun k t hk ↦ ?_⟩
  obtain ⟨l, hl, htl⟩ := hrepresents.exists_ledger hk
  have hledger : (Session.run Ledger.operations limit actions).1.ledgerAt k = l := by
    rw [Session.ledgerAt, hl, Option.getD_some]
  have hreleased := hrecorded.released k
  rw [hledger] at hreleased
  refine ⟨?_, SymbolTable.find?_eq htl.wellFormed, htl.wellFormed.aligned, htl.wellFormed.unique,
    fun hkept ↦ ?_, fun hgone ↦ htl.of_released (hreleased.mp hgone),
    fun later hlater ↦ Session.capacity_le_run hk hlater,
    fun name address fault ↦ Session.step_insert_of_failed⟩
  · rw [htl.entries, hrecorded.entries, hledger]
  · rw [htl.capacity, if_neg (mt hreleased.mpr hkept), htl.size_eq]
    exact SymbolTable.isLeast_roomFor _

/-- A table that rejects a name and an address and is given up, and one that is refused more room,
gets it when it may have more, and then rejects an address. -/
theorem symbol_table_refines_list_growing :
    let after := Session.run SymbolTable.operations 9
      [.new .unique, .insert 0 "a" 4, .insert 0 "a" 8, .insert 0 "b" 2, .new .repeatable,
        .insert 1 "x" 8, .insert 1 "y" 4, .insert 1 "x" 0, .insert 1 "x" 4, .insert 1 "z" 0,
        .insert 1 "x" 12, .allow 10, .insert 1 "x" 16, .release 0, .insert 0 "c" 4]
    ∃ gone kept, after.1.tables = [gone, kept] ∧
      Session.Released 0 after.2 ∧ gone.capacity = 0 ∧ gone.find? "a" = none ∧
      ¬Session.Released 1 after.2 ∧ IsLeast (SymbolTable.Rooms kept.size) kept.capacity ∧
      kept.entries.toList = [⟨"x", 8⟩, ⟨"y", 4⟩, ⟨"x", 0⟩, ⟨"x", 4⟩, ⟨"z", 0⟩, ⟨"x", 16⟩] ∧
      kept.find? "x" = some 8 ∧
      (after.1.step SymbolTable.operations (.insert 1 "w" 1)).1 = after.1 := by
  intro after
  have hreleased : Session.Released 0 after.2 := by decide
  have hkept : ¬Session.Released 1 after.2 := by decide
  have hadded : Session.added 1 after.2 =
      [⟨"x", 8⟩, ⟨"y", 4⟩, ⟨"x", 0⟩, ⟨"x", 4⟩, ⟨"z", 0⟩, ⟨"x", 16⟩] := by
    decide
  have hfailed : (after.1.step SymbolTable.operations (.insert 1 "w" 1)).2 =
      .failed (.rejected ⟨.misalignedAddress, "", "1"⟩) := by
    decide
  obtain ⟨gone, kept, htables⟩ : ∃ gone kept, after.1.tables = [gone, kept] :=
    List.length_eq_two.mp (by decide)
  obtain ⟨-, hall⟩ : after.2 = _ ∧ _ := symbol_table_refines_list 9 _
  obtain ⟨-, -, -, -, -, hgone, -⟩ := hall 0 gone (congrArg (·[0]?) htables)
  obtain ⟨hentries, hfind, -, -, hleast, -, -, hsame⟩ := hall 1 kept (congrArg (·[1]?) htables)
  rw [hadded] at hentries
  refine ⟨gone, kept, htables, hreleased, (hgone hreleased).1, (hgone hreleased).2.1 "a", hkept,
    hleast hkept, hentries, ?_, hsame "w" 1 _ hfailed⟩
  rw [hfind, hentries]
  decide

end MipsAsm
