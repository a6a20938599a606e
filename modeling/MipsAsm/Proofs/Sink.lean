import MipsAsm.Proofs.Encoding.Jumps
import MipsAsm.Proofs.Text.Digits
import MipsAsm.Proofs.Text.Slices
import MipsAsm.Pseudo

/-!
# Writes that fail

The word of an instruction and its expansion are each written in one write.  A sink that has too
little room stores the part that fits, and nothing takes that back; nor is the record of a jump
removed from the relocations when its word cannot be written.

Two kinds of traces are distinguished.  What is in a sink cannot be taken back, and neither
operation tries to.  The tables could be kept as they were by writing first and recording
afterwards, and are not, so a jump whose word did not fit is recorded although it is nowhere to be
found.  The result says for each of the two when there is such a trace, as an equivalence.

* `Sink.HasRoom` — a sink has room for a number of bytes.
* `Sink.write_complete_iff`, `Sink.write_sink_eq_iff` — when a write succeeds, and when one that
  fails leaves the sink as it was.
* `Instruction.writeWord_of_ok`, `Instruction.writeExpansion_of_ok` — both operations write as much
  as there is room for.
* `Instruction.encode_fst_eq_iff` — only a jump changes the tables.
* `failed_writes_leave_nothing_iff` — when an operation that fails leaves nothing behind.
-/

set_option autoImplicit false

namespace MipsAsm

/-! ## Sinks

Whether a write succeeds and whether it leaves something behind are both questions of room: room for
all bytes of the text, and room for one byte. -/

namespace Sink

variable {sink : Sink} {s : String}

/-- There is room for `n` more bytes. -/
def HasRoom (sink : Sink) (n : Nat) : Prop :=
  ∀ limit, sink.limit = some limit → n ≤ limit - sink.content.size

theorem size_bytes (s : String) : (bytes s).size = s.utf8ByteSize := rfl

theorem accepted_eq_iff {n : Nat} : sink.accepted n = n ↔ sink.HasRoom n := by
  rw [accepted, HasRoom]
  cases sink.limit with
  | none => simp
  | some limit =>
    simp only [Option.some.injEq, forall_eq']
    omega

theorem accepted_eq_zero_iff {n : Nat} (hn : 0 < n) : sink.accepted n = 0 ↔ ¬sink.HasRoom 1 := by
  rw [accepted, HasRoom]
  cases sink.limit with
  | none => simpa using Nat.ne_of_gt hn
  | some limit =>
    simp only [Option.some.injEq, forall_eq']
    omega

/-- A write succeeds if there is room for all of the text. -/
theorem write_complete_iff : (sink.write s).complete = true ↔ sink.HasRoom s.utf8ByteSize := by
  rw [← accepted_eq_iff, ← size_bytes, write]
  exact beq_iff_eq

/-- A write that fails leaves the sink as it was if there is no room at all. -/
theorem write_sink_eq_iff (h : ¬sink.HasRoom s.utf8ByteSize) :
    (sink.write s).sink = sink ↔ ¬sink.HasRoom 1 := by
  have hpos : 0 < (bytes s).size := by
    rw [size_bytes]
    refine Nat.pos_of_ne_zero fun hzero ↦ h fun limit _ ↦ ?_
    omega
  have hle : sink.accepted (bytes s).size ≤ (bytes s).size := by
    rw [accepted]
    split <;> omega
  rw [← accepted_eq_zero_iff hpos, write]
  constructor
  · intro hsame
    have hsize := congrArg (fun t : Sink ↦ t.content.size) hsame
    simp only [Array.size_append, Array.take_eq_extract, Array.size_extract, Nat.sub_zero] at hsize
    omega
  · intro hzero
    simp [hzero]

end Sink

/-! ## Words

Two things can be left behind when the word of an instruction cannot be written, a part of it in the
sink and a record in the tables.  The second is independent of the sink: the record is made when the
word is computed, which is before it is written. -/

/-- A word is written in nine bytes: its digits and a line feed. -/
theorem Text.utf8ByteSize_hexWord (w : UInt32) : (hexWord w ++ "\n").utf8ByteSize = 9 := by
  have hdigits : lowerHexDigits.all (·.utf8Size == 1) = true := by decide
  simp only [List.all_eq_true, beq_iff_eq] at hdigits
  have hlength : (hexWord w).utf8ByteSize = 8 := by
    rw [hexWord, ← byteLength_eq, byteLength_eq_length fun c hc ↦ hdigits c (hexWordDigits_mem hc),
      length_hexWordDigits]
  rw [String.utf8ByteSize_append, hlength]
  rfl

namespace Instruction

variable {limit : Int} {i : Instruction} {address : UInt32} {tables : Tables} {sink : Sink}

/-- There is no word, or it could not be written. -/
def WrittenWord.Failed (r : WrittenWord) : Prop := r.fault.isSome = true ∨ r.sinkFull = true

/-- An instruction without a word writes nothing. -/
theorem writeWord_of_error (sink : Sink) {fault : Fault}
    (h : (i.encode limit address tables).2 = .error fault) :
    (i.writeWord limit address tables sink).Failed ∧
      (i.writeWord limit address tables sink).sink = sink := by
  rw [writeWord]
  split <;> simp_all [WrittenWord.Failed]

/-- A word is written as far as there is room. -/
theorem writeWord_of_ok (sink : Sink) {w : UInt32}
    (h : (i.encode limit address tables).2 = .ok w) :
    ((i.writeWord limit address tables sink).Failed ↔ ¬sink.HasRoom 9) ∧
      (i.writeWord limit address tables sink).sink =
        (sink.write (Text.hexWord w ++ "\n")).sink := by
  rw [← Text.utf8ByteSize_hexWord w, ← Sink.write_complete_iff, writeWord]
  split <;> simp_all [WrittenWord.Failed]

/-- The tables are those that looking for the word leaves, whether or not it can be written. -/
theorem writeWord_tables (limit : Int) (i : Instruction) (address : UInt32) (tables : Tables)
    (sink : Sink) :
    (i.writeWord limit address tables sink).tables = (i.encode limit address tables).1 := by
  rw [writeWord]
  split <;> simp_all

/-- An instruction without a word leaves the tables as they are. -/
theorem encode_fst_of_error {fault : Fault}
    (h : (i.encode limit address tables).2 = .error fault) :
    (i.encode limit address tables).1 = tables := by
  obtain ⟨hsame, -⟩ | ⟨label, r, r', w, -, -, -, -, hencode⟩ := encode_cases limit i address tables
  · exact hsame
  · rw [hencode] at h
    cases h

/-- An instruction with a word leaves the tables as they are if it is no jump. -/
theorem encode_fst_eq_iff {w : UInt32} (h : (i.encode limit address tables).2 = .ok w) :
    (i.encode limit address tables).1 = tables ↔ ¬i.IsJump := by
  obtain ⟨hsame, hnone⟩ | ⟨label, r, r', w', hjump, hargs, hr, hinsert, hencode⟩ :=
    encode_cases limit i address tables
  · exact ⟨fun _ hjump ↦ hnone ⟨hjump, w, h⟩, fun _ ↦ hsame⟩
  · refine ⟨fun hsame ↦ ?_, fun hnot ↦ absurd hjump hnot⟩
    -- the table with the record has one entry more
    obtain ⟨fault, -, hfault, -⟩ | ⟨-, -, -, hentries, -⟩ := SymbolTable.insert_cases hinsert
    · cases hfault
    · rw [hencode] at hsame
      have hrelocations : some r' = some r := (congrArg Tables.relocations hsame).trans hr
      rw [Option.some.inj hrelocations] at hentries
      have hsize := congrArg Array.size hentries
      rw [Array.size_push] at hsize
      omega

variable (limit : Int) (i : Instruction) (address : UInt32) (tables : Tables) (sink : Sink)

theorem writeWord_failed_iff :
    (i.writeWord limit address tables sink).Failed ↔
      ∀ w, (i.encode limit address tables).2 = .ok w → ¬sink.HasRoom 9 := by
  cases houtcome : (i.encode limit address tables).2 with
  | error fault => simp [(writeWord_of_error sink houtcome).1]
  | ok w => simp [(writeWord_of_ok sink houtcome).1]

/-- Writing a word that fails leaves the sink as it was unless a part of the word fits. -/
theorem writeWord_keeps_sink_iff :
    ((i.writeWord limit address tables sink).Failed →
        (i.writeWord limit address tables sink).sink = sink) ↔
      ∀ w, (i.encode limit address tables).2 = .ok w → sink.HasRoom 9 ∨ ¬sink.HasRoom 1 := by
  cases houtcome : (i.encode limit address tables).2 with
  | error fault => simp [(writeWord_of_error sink houtcome).2]
  | ok w =>
    obtain ⟨hfailed, hsink⟩ := writeWord_of_ok sink houtcome
    have hkept : ¬sink.HasRoom 9 →
        ((i.writeWord limit address tables sink).sink = sink ↔ ¬sink.HasRoom 1) := by
      intro hroom
      rw [← Text.utf8ByteSize_hexWord w] at hroom
      rw [hsink, Sink.write_sink_eq_iff hroom]
    rw [hfailed, imp_congr_right hkept, ← or_iff_not_imp_left]
    simp

/-- Writing a word that fails leaves the tables as they were unless it is the word of a jump. -/
theorem writeWord_keeps_tables_iff :
    ((i.writeWord limit address tables sink).Failed →
        (i.writeWord limit address tables sink).tables = tables) ↔
      ∀ w, (i.encode limit address tables).2 = .ok w → sink.HasRoom 9 ∨ ¬i.IsJump := by
  rw [writeWord_tables]
  cases houtcome : (i.encode limit address tables).2 with
  | error fault => simp [encode_fst_of_error houtcome]
  | ok w =>
    rw [(writeWord_of_ok sink houtcome).1, encode_fst_eq_iff houtcome, ← or_iff_not_imp_left]
    simp

/-! ## Expansions

An expansion changes no tables, but may have several instructions.  They are written as one text, so
that the number of instructions that were written is all of them or none. -/

/-- The instruction cannot be expanded, or its expansion could not be written. -/
def WrittenExpansion.Failed (r : WrittenExpansion) : Prop :=
  r.rejection.isSome = true ∨ r.sinkFull = true

/-- An instruction without an expansion writes nothing. -/
theorem writeExpansion_of_error {e : Error} (h : i.expand = .error e) :
    (i.writeExpansion sink).Failed ∧ (i.writeExpansion sink).count = 0 ∧
      (i.writeExpansion sink).sink = sink := by
  simp [writeExpansion, h, WrittenExpansion.Failed]

/-- An expansion is written as far as there is room, and none of it counts unless all of it is. -/
theorem writeExpansion_of_ok {is : List Instruction} (h : i.expand = .ok is) :
    ((i.writeExpansion sink).Failed ↔ ¬sink.HasRoom (listing is).utf8ByteSize) ∧
      ((i.writeExpansion sink).Failed → (i.writeExpansion sink).count = 0) ∧
      (i.writeExpansion sink).sink = (sink.write (listing is)).sink := by
  rw [← Sink.write_complete_iff]
  simp only [writeExpansion, h, WrittenExpansion.Failed]
  cases (sink.write (listing is)).complete <;> simp

theorem writeExpansion_failed_iff :
    (i.writeExpansion sink).Failed ↔
      ∀ is, i.expand = .ok is → ¬sink.HasRoom (listing is).utf8ByteSize := by
  cases hexpand : i.expand with
  | error e => simp [(writeExpansion_of_error i sink hexpand).1]
  | ok is => simp [(writeExpansion_of_ok i sink hexpand).1]

theorem count_writeExpansion_of_failed (h : (i.writeExpansion sink).Failed) :
    (i.writeExpansion sink).count = 0 := by
  cases hexpand : i.expand with
  | error e => exact (writeExpansion_of_error i sink hexpand).2.1
  | ok is => exact (writeExpansion_of_ok i sink hexpand).2.1 h

/-- Writing an expansion that fails leaves the sink as it was unless a part of the listing fits. -/
theorem writeExpansion_keeps_sink_iff :
    ((i.writeExpansion sink).Failed → (i.writeExpansion sink).sink = sink) ↔
      ∀ is, i.expand = .ok is →
        sink.HasRoom (listing is).utf8ByteSize ∨ ¬sink.HasRoom 1 := by
  cases hexpand : i.expand with
  | error e => simp [(writeExpansion_of_error i sink hexpand).2.2]
  | ok is =>
    obtain ⟨hfailed, -, hsink⟩ := writeExpansion_of_ok i sink hexpand
    rw [hfailed, hsink, imp_congr_right Sink.write_sink_eq_iff, ← or_iff_not_imp_left]
    simp

end Instruction

/-- **When an operation that fails leaves nothing behind.**  The word of an instruction cannot be
written if it has none or there is no room for nine bytes.  Nothing is in the sink then unless there
is a word and room for a part of it, and the tables are as they were unless there is a word and it
is a jump's.  The expansion of an instruction cannot be written if it has none or there is no room
for its listing.  The count is zero then, and nothing is in the sink unless there is an expansion
and room for a part of its listing. -/
theorem failed_writes_leave_nothing_iff (limit : Int) (i : Instruction) (address : UInt32)
    (tables : Tables) (sink : Sink) :
    let outcome := (i.encode limit address tables).2
    let word := i.writeWord limit address tables sink
    let expansion := i.writeExpansion sink
    ((word.Failed ↔ ∀ w, outcome = .ok w → ¬sink.HasRoom 9) ∧
      ((word.Failed → word.sink = sink) ↔
        ∀ w, outcome = .ok w → sink.HasRoom 9 ∨ ¬sink.HasRoom 1) ∧
      ((word.Failed → word.tables = tables) ↔
        ∀ w, outcome = .ok w → sink.HasRoom 9 ∨ ¬i.IsJump) ∧
      word.tables.symbols = tables.symbols) ∧
    (expansion.Failed ↔
      ∀ is, i.expand = .ok is → ¬sink.HasRoom (Instruction.listing is).utf8ByteSize) ∧
    (expansion.Failed → expansion.count = 0) ∧
    ((expansion.Failed → expansion.sink = sink) ↔
      ∀ is, i.expand = .ok is →
        sink.HasRoom (Instruction.listing is).utf8ByteSize ∨ ¬sink.HasRoom 1) := by
  intro outcome word expansion
  have htables : word.tables = (i.encode limit address tables).1 :=
    i.writeWord_tables limit address tables sink
  refine ⟨⟨?_, ?_, ?_, ?_⟩, ?_, ?_, ?_⟩
  · exact i.writeWord_failed_iff limit address tables sink
  · exact i.writeWord_keeps_sink_iff limit address tables sink
  · exact i.writeWord_keeps_tables_iff limit address tables sink
  · rw [htables, Instruction.encode_symbols]
  · exact i.writeExpansion_failed_iff sink
  · exact i.count_writeExpansion_of_failed sink
  · exact i.writeExpansion_keeps_sink_iff sink

/-- The record of a jump whose word finds no room stays in the relocations, four digits of a word
stay in a sink with room for four bytes, and the first mnemonic of an expansion stays in one with
room for five. -/
theorem failed_writes_leave_records_and_text :
    let tables : Tables := { symbols := none, relocations := some (.empty .repeatable) }
    let jump := Instruction.writeWord 10 ⟨"j", ["x"]⟩ 0 tables (.empty (some 0))
    let word := Instruction.writeWord 10 ⟨"jr", ["$ra"]⟩ 0 tables (.empty (some 4))
    let expansion := Instruction.writeExpansion ⟨"push", ["$t0"]⟩ (.empty (some 5))
    (jump.Failed ∧ jump.tables.relocations.map (fun r ↦ r.entries.toList) = some [⟨"x", 0⟩]) ∧
      (word.Failed ∧ word.sink.content = Sink.bytes "03e0") ∧
      expansion.Failed ∧ expansion.count = 0 ∧ expansion.sink.content = Sink.bytes "addiu" := by
  intro tables jump word expansion
  have hjump : jump.sinkFull = true := by decide
  have hword : word.sinkFull = true := by decide
  have hexpansion : expansion.sinkFull = true := by decide
  refine ⟨⟨.inr hjump, ?_⟩, ⟨.inr hword, ?_⟩, .inr hexpansion, ?_, ?_⟩
  all_goals decide

end MipsAsm
