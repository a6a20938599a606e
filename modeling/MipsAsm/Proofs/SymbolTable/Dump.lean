import MipsAsm.Proofs.Assembly.Tables
import MipsAsm.Proofs.Encoding.Spelling
import MipsAsm.Proofs.Json
import MipsAsm.Proofs.Sink

/-!
# Dumps of symbol tables

A table is written line by line, one write for each entry, up to the first write that fails.  What
is stored does not depend on that: it is what one write of the whole dump would store, wherever the
sink gives out.  The dump can be read back as long as no name has a line feed in it, and the names
in the tables of an assembly are label names.

* `Sink.writeAll_eq_write` — writing texts one by one is writing them at once.
* `SymbolTable.readDump?` — a reader of dumps: lines, the first tab of each, a number of 32 bits.
* `SymbolTable.readDump?_dump` — it reads back what was written.
* `dumps_are_cut_and_read_back` — the result.
-/

set_option autoImplicit false

namespace MipsAsm

/-! ## Writing in pieces

A sink with a limit keeps no count of writes: how many bytes it accepts depends on how many it has.
So a write that succeeds may be joined with the one after it, and after one that fails no more would
have been stored anyway. -/

namespace Sink

variable {sink : Sink}

theorem bytes_append (s t : String) : bytes (s ++ t) = bytes s ++ bytes t := by
  simp [bytes, String.toUTF8, String.toByteArray_append, ByteArray.data_append]

/-- After a write that fits, the rest is accepted as if all of it had come at once. -/
theorem accepted_add_of_hasRoom {xs : Array UInt8} (h : sink.HasRoom xs.size) (n : Nat) :
    sink.accepted (xs.size + n) =
      xs.size + ({ sink with content := sink.content ++ xs } : Sink).accepted n := by
  rw [accepted, accepted]
  cases hlimit : sink.limit with
  | none => rfl
  | some limit =>
    have hroom := h limit hlimit
    simp only [Array.size_append]
    omega

/-- If a text does not fit, more text makes no difference. -/
theorem accepted_add_of_not_hasRoom {n : Nat} (h : ¬sink.HasRoom n) (m : Nat) :
    sink.accepted (n + m) = sink.accepted n ∧ sink.accepted n < n := by
  rw [accepted, accepted]
  cases hlimit : sink.limit with
  | none => exact absurd (fun limit hsome ↦ by rw [hlimit] at hsome; cases hsome) h
  | some limit =>
    have hfull : ¬n ≤ limit - sink.content.size := by
      intro hle
      refine h fun limit' hsome ↦ ?_
      rw [hlimit] at hsome
      obtain rfl := Option.some.inj hsome
      exact hle
    simp only
    omega

/-- **Writing texts one by one is writing them at once**, also if the sink gives out on the way. -/
theorem writeAll_eq_write (sink : Sink) (texts : List String) :
    sink.writeAll texts = sink.write (String.join texts) := by
  induction texts generalizing sink with
  | nil =>
    have hnone : sink.accepted 0 = 0 := by
      rw [accepted]
      split <;> simp
    have hempty : bytes "" = #[] := rfl
    rw [writeAll, String.join_nil, write, hempty]
    simp [hnone]
  | cons s texts ih =>
    rw [writeAll, ih, String.join_cons]
    by_cases hroom : sink.HasRoom (bytes s).size
    · have hfits : sink.accepted (bytes s).size = (bytes s).size := accepted_eq_iff.mpr hroom
      have hfirst : sink.write s =
          { sink := { sink with content := sink.content ++ bytes s }
            stored := (bytes s).size, complete := true } := by
        simp [write, hfits]
      have hrest := accepted_add_of_hasRoom hroom (bytes (String.join texts)).size
      simp only [hfirst, ↓reduceIte]
      rw [write, write, bytes_append, Array.size_append, hrest]
      simp [Array.extract_append, Array.extract_eq_self_of_le, Array.append_assoc]
    · obtain ⟨hsame, hlt⟩ := accepted_add_of_not_hasRoom hroom (bytes (String.join texts)).size
      have hfirst : (sink.write s).complete = false :=
        beq_eq_false_iff_ne.mpr (Nat.ne_of_lt hlt)
      have hcut : sink.accepted (bytes s).size ≠
          (bytes s).size + (bytes (String.join texts)).size := by omega
      simp only [hfirst, Bool.false_eq_true, ↓reduceIte]
      rw [write, write, bytes_append, Array.size_append, hsame]
      simp [Array.extract_append, Nat.sub_eq_zero_of_le (Nat.le_of_lt hlt), Nat.ne_of_lt hlt, hcut]

/-- A text is written to an empty sink up to the limit. -/
theorem write_empty (limit : Nat) (s : String) :
    (empty (some limit)).write s =
      { sink := { limit := some limit, content := (bytes s).take (min limit (bytes s).size) }
        stored := min limit (bytes s).size, complete := decide ((bytes s).size ≤ limit) } := by
  have haccepted : (empty (some limit)).accepted (bytes s).size = min limit (bytes s).size := by
    rw [accepted, empty]
    exact Nat.min_comm ..
  have hcomplete : (min limit (bytes s).size == (bytes s).size) =
      decide ((bytes s).size ≤ limit) := by
    rw [Bool.eq_iff_iff, beq_iff_eq, decide_eq_true_eq]
    omega
  rw [write, haccepted, hcomplete]
  simp [empty]

/-- The bytes of a text are read as the text. -/
theorem text?_bytes (limit : Option Nat) (s : String) :
    ({ limit, content := bytes s } : Sink).text? = some s :=
  dif_pos s.isValidUTF8

end Sink

/-! ## Reading a dump

A name may have a tab in it, but the address in front of the first tab has none.  A line feed within
a name is the only thing that could be mistaken for something else. -/

namespace SymbolTable

/-- Read a line of a dump: a number of 32 bits in base ten, and a name after the first tab. -/
def entryOf? (cs : List Char) : Option Symbol :=
  match Text.cut '\t' cs with
  | (digits, some name) =>
    (Json.uint32? (String.ofList digits)).map fun address ↦
      { name := String.ofList name, address }
  | (_, none) => none

/-- Read a dump line by line.  The last line feed ends the last line and starts no new one. -/
def readDump? (dump : String) : Option (List Symbol) :=
  (Text.splitLines dump.toList).dropLast.mapM entryOf?

/-- The line of an entry without its line feed. -/
def entryText (s : Symbol) : List Char := Nat.toDigits 10 s.address.toNat ++ '\t' :: s.name.toList

theorem toList_entryLine (s : Symbol) : (entryLine s).toList = entryText s ++ ['\n'] := by
  simp [entryLine, entryText, Text.decimal]

theorem not_mem_toDigits {c : Char} (hc : c.isDigit = false) (n : Nat) :
    c ∉ Nat.toDigits 10 n := by
  intro hmem
  rw [Nat.isDigit_of_mem_toDigits (by decide) (by decide) hmem] at hc
  cases hc

/-- A line is read as its entry, also if the name has tabs in it. -/
theorem entryOf?_entryText (s : Symbol) : entryOf? (entryText s) = some s := by
  have hread := Json.uint32?_decimal s.address
  rw [Text.decimal] at hread
  rw [entryOf?, entryText, Text.cut_append_cons (not_mem_toDigits rfl _)]
  simp [hread]

/-- **A dump is read back** if no name has a line feed in it. -/
theorem readDump?_dump {t : SymbolTable} (h : ∀ s ∈ t.entries.toList, '\n' ∉ s.name.toList) :
    readDump? t.dump = some t.entries.toList := by
  have hdump : t.dump.toList = (t.entries.toList.map entryText).flatMap (· ++ ['\n']) := by
    rw [dump, lines, String.toList_join, List.flatMap_map, List.flatMap_map]
    exact List.flatMap_congr fun s _ ↦ toList_entryLine s
  have hlines : ∀ l ∈ t.entries.toList.map entryText, '\n' ∉ l := by
    intro l hl
    obtain ⟨s, hs, rfl⟩ := List.mem_map.mp hl
    have hdigits : '\n' ∉ Nat.toDigits 10 s.address.toNat := not_mem_toDigits rfl _
    simp [entryText, hdigits, h s hs]
  rw [readDump?, hdump, Text.splitLines_flatMap_lineFeed hlines, List.dropLast_concat]
  induction t.entries.toList with
  | nil => rfl
  | cons s entries ih => simp [entryOf?_entryText, ih]

end SymbolTable

/-! ## The result

Tables of an assembly have label names only, so their dumps can always be read back. -/

/-- **Dumps are cut at the limit and can be read back.**  A table that is written to a sink that
accepts so many bytes in all leaves the first bytes of its dump there, as many as are accepted,
answers with their number, and fails if and only if there are more; otherwise the sink holds the
dump.  If no name has a line feed in it, dividing the dump at line feeds, and each line at its first
tab, gives back the entries in order.  In the tables of an assembly no name has one. -/
theorem dumps_are_cut_and_read_back (t : SymbolTable) :
    (∀ limit : Nat,
      let dump := Sink.bytes t.dump
      let written := t.writeTo (Sink.empty (some limit))
      written.sink.content = dump.take (min limit dump.size) ∧
      written.stored = min limit dump.size ∧
      (written.complete = false ↔ limit < dump.size) ∧
      (written.complete = true → written.sink.text? = some t.dump)) ∧
    ((∀ s ∈ t.entries.toList, '\n' ∉ s.name.toList) →
      SymbolTable.readDump? t.dump = some t.entries.toList) ∧
    ∀ (o : Options) (source : String) (a : Assembly), assemble o source = some a →
      t = a.labels ∨ t = a.relocations → ∀ s ∈ t.entries.toList, '\n' ∉ s.name.toList := by
  refine ⟨fun limit ↦ ?_, SymbolTable.readDump?_dump, fun o source a ha ht s hs ↦ ?_⟩
  · rw [SymbolTable.writeTo, Sink.writeAll_eq_write, Sink.write_empty]
    refine ⟨rfl, rfl, by simp [SymbolTable.dump], fun hcomplete ↦ ?_⟩
    have hle : (Sink.bytes t.dump).size ≤ limit := of_decide_eq_true hcomplete
    show Sink.text?
      { limit := some limit
        content := (Sink.bytes t.dump).take (min limit (Sink.bytes t.dump).size) } = _
    rw [Nat.min_eq_right hle, Array.take_eq_extract, Array.extract_size]
    exact Sink.text?_bytes ..
  · refine Label.not_mem_of_isValid (Assembly.isValid_of_mem_tables ha ?_) rfl
    rcases ht with rfl | rfl
    · exact .inl hs
    · exact .inr hs

/-- The relocations of a source with two jumps: the dump is cut in the middle of its second line,
and the whole dump is read back. -/
theorem dumps_are_cut_and_read_back_of_jumps :
    ∃ a, assemble {} "a: j bb\nbb: jal a" = some a ∧
      (a.relocations.writeTo (Sink.empty (some 7))).sink.content = Sink.bytes "0\tbb\n4\t" ∧
      (a.relocations.writeTo (Sink.empty (some 7))).stored = 7 ∧
      (a.relocations.writeTo (Sink.empty (some 7))).complete = false ∧
      SymbolTable.readDump? a.relocations.dump =
        some [{ name := "bb", address := 0 }, { name := "a", address := 4 }] := by
  have heval : (assemble {} "a: j bb\nbb: jal a").map
      (fun a ↦ (a.relocations.entries.toList, a.relocations.dump)) =
        some ([{ name := "bb", address := 0 }, { name := "a", address := 4 }],
          "0\tbb\n4\ta\n") := by
    decide +kernel
  obtain ⟨a, ha, htables⟩ := Option.map_eq_some_iff.mp heval
  obtain ⟨hentries, hdump⟩ := Prod.mk.inj htables
  obtain ⟨hwrite, hread, hnames⟩ := dumps_are_cut_and_read_back a.relocations
  obtain ⟨hcontent, hstored, hcomplete, -⟩ := hwrite 7
  rw [hdump] at hcontent hstored hcomplete
  refine ⟨a, ha, hcontent.trans (by decide), hstored.trans (by decide),
    hcomplete.mpr (by decide), ?_⟩
  rw [hread (hnames {} _ a ha (.inr rfl)), hentries]

end MipsAsm
