import Mathlib.Data.List.Nodup
import MipsAsm.Proofs.Assembly.Labels
import MipsAsm.Proofs.Assembly.Relocations

/-!
# The tables of an assembly

An assembly has two tables, the labels and the relocations, and beside them the line of each label.
Other theories look things up in them: by name, by line, or entry by entry.

* `mem_labelLines_iff`, `labelLine?_iff_mem_labelLines` — which label is on which line.
* `find?_line_eq_some_iff`, `labelOnLine?_eq_some_iff` — a line defines at most one label, so it
  does not matter in which order the labels are searched for it.
* `exists_find?_of_mem_labelLines` — a label that is on a line has an address.
* `Assembly.isValid_of_mem_tables` — the names in the tables are label names.
-/

set_option autoImplicit false

namespace MipsAsm

/-! ## The line of a label

The first pass notes the line of each label that it accepts.  With a base address that no word can
have it accepts none, which is why most of these have two cases. -/

variable {o : Options} {source : String} {a : Assembly}

/-- The labels of an assembly are those of the lines that were read, and there are none if no
address can be that of a word. -/
theorem labelLines_cases (h : assemble o source = some a) :
    o.base % 4 = 0 ∧
        Scan.LabelsOf ((Text.splitLines source.toList).take a.scan.lines) a.scan ∨
      o.base % 4 ≠ 0 ∧ a.scan.labelLines.toList = [] := by
  obtain ⟨labels, -, hlabels, -, -, hscan, -⟩ := assemble_cases h
  by_cases hbase : o.base % 4 = 0
  · exact .inl ⟨hbase, Scan.LabelsOf.ofLines_take hlabels hbase hscan⟩
  · have hdescribes := (assemble_describes h).scan
    have hnone := hdescribes.map_labelLines
    rw [hdescribes.entries_labels_of_misaligned hbase, List.map_nil, List.map_eq_nil_iff] at hnone
    exact .inr ⟨hbase, hnone⟩

/-- A label is on a line if it is defined there for the first time. -/
theorem mem_labelLines_iff (h : assemble o source = some a) {name : String} {n : Nat} :
    (name, n) ∈ a.scan.labelLines.toList ↔ o.base % 4 = 0 ∧ Label.isValid name = true ∧
      IsFirstLabel ((Text.splitLines source.toList).take a.scan.lines) name n := by
  obtain ⟨hbase, hlabels⟩ | ⟨hbase, hnone⟩ := labelLines_cases h
  · exact (hlabels.mem_iff name n).trans (and_iff_right hbase).symm
  · simp [hnone, hbase]

theorem labelLine?_iff_mem_labelLines (h : assemble o source = some a) {name : String} {n : Nat} :
    a.scan.labelLine? name = some n ↔ (name, n) ∈ a.scan.labelLines.toList := by
  obtain ⟨-, hlabels⟩ | ⟨-, hnone⟩ := labelLines_cases h
  · exact hlabels.labelLine?_eq_some_iff
  · simp [Scan.labelLine?, ← Array.find?_toList, hnone]

/-! ## The label of a line

The other way round a line has to be searched for among all labels. -/

/-- At most one label is on a line. -/
theorem eq_of_mem_labelLines (h : assemble o source = some a) {e f : String × Nat}
    (he : e ∈ a.scan.labelLines.toList) (hf : f ∈ a.scan.labelLines.toList) (hsame : e.2 = f.2) :
    e = f := by
  obtain ⟨-, hlabels⟩ | ⟨-, hnone⟩ := labelLines_cases h
  · have hdistinct : (a.scan.labelLines.toList.map Prod.snd).Nodup :=
      List.pairwise_map.mpr (hlabels.ascending.imp fun hlt ↦ Nat.ne_of_lt hlt)
    exact List.inj_on_of_nodup_map hdistinct he hf hsame
  · rw [hnone] at he
    cases he

/-- What a search for the label of a line finds, in whatever order the labels are searched. -/
theorem find?_line_eq_some_iff (h : assemble o source = some a) {labels : List (String × Nat)}
    (hlabels : labels.Perm a.scan.labelLines.toList) {n : Nat} {e : String × Nat} :
    labels.find? (·.2 == n) = some e ↔ e ∈ a.scan.labelLines.toList ∧ e.2 = n := by
  rw [← hlabels.mem_iff]
  constructor
  · intro hfind
    exact ⟨List.mem_of_find?_eq_some hfind, by simpa using List.find?_some hfind⟩
  · rintro ⟨he, rfl⟩
    have hsome : (labels.find? (·.2 == e.2)).isSome = true := by
      rw [List.find?_isSome]
      exact ⟨e, he, beq_self_eq_true e.2⟩
    obtain ⟨f, hfind⟩ := Option.isSome_iff_exists.mp hsome
    have hline : f.2 = e.2 := by simpa using List.find?_some hfind
    have hf := hlabels.mem_iff.mp (List.mem_of_find?_eq_some hfind)
    rw [hfind, eq_of_mem_labelLines h hf (hlabels.mem_iff.mp he) hline]

/-- **The label of a line** is the one that is defined there. -/
theorem labelOnLine?_eq_some_iff (h : assemble o source = some a) {name : String} {n : Nat} :
    a.scan.labelOnLine? n = some name ↔ (name, n) ∈ a.scan.labelLines.toList := by
  rw [Scan.labelOnLine?, ← Array.find?_toList, Option.map_eq_some_iff]
  simp only [find?_line_eq_some_iff h (List.Perm.refl _)]
  constructor
  · rintro ⟨⟨name', n'⟩, ⟨hmem, rfl⟩, rfl⟩
    exact hmem
  · intro hmem
    exact ⟨(name, n), ⟨hmem, rfl⟩, rfl⟩

/-- A label that is on a line has an address. -/
theorem exists_find?_of_mem_labelLines (h : assemble o source = some a) {e : String × Nat}
    (he : e ∈ a.scan.labelLines.toList) : ∃ address, a.labels.find? e.1 = some address := by
  have hdescribes := (assemble_describes h).scan
  have hname : e.1 ∈ a.scan.labels.entries.toList.map Symbol.name := by
    rw [← hdescribes.map_labelLines]
    exact List.mem_map_of_mem he
  obtain ⟨symbol, hsymbol, hsame⟩ := List.mem_map.mp hname
  have hsome : (a.scan.labels.entries.toList.find? (·.name == e.1)).isSome = true := by
    rw [List.find?_isSome]
    exact ⟨symbol, hsymbol, by rw [hsame]; exact beq_self_eq_true e.1⟩
  obtain ⟨found, hfound⟩ := Option.isSome_iff_exists.mp hsome
  refine ⟨found.address, ?_⟩
  rw [Assembly.labels, SymbolTable.find?_eq hdescribes.wellFormed, hfound, Option.map_some]

/-! ## Names

A name gets into a table as the label of a line or as the label of a jump.  Both are checked before
they are entered. -/

/-- The names in the tables of an assembly are label names. -/
theorem Assembly.isValid_of_mem_tables (h : assemble o source = some a) {s : Symbol}
    (hs : s ∈ a.labels.entries.toList ∨ s ∈ a.relocations.entries.toList) :
    Label.isValid s.name = true := by
  rcases hs with hs | hs
  · have hname : s.name ∈ a.scan.labelLines.toList.map Prod.fst := by
      rw [(assemble_describes h).scan.map_labelLines]
      exact List.mem_map_of_mem hs
    obtain ⟨⟨name, n⟩, hmem, hsame⟩ := List.mem_map.mp hname
    rw [← hsame]
    exact ((mem_labelLines_iff h).mp hmem).2.1
  · exact (Assembly.of_mem_relocations h (Array.mem_toList_iff.mp hs)).1

end MipsAsm
