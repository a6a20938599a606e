import Mathlib.Data.Nat.Find
import MipsAsm.Proofs.Assembly.Basic

/-!
# Labels and their first definitions

The first pass enters a label into its table where it meets it first.  Whether it has met it before
is asked of the table, but the answer is about the lines alone: a label is entered at the first line
that has it before a colon, if it is a label name.  All other labels are reported, each once.

A base address that is no multiple of four is a case of its own.  Every address that a label could
have is refused there, so each label is reported and none is entered.  The invariant is stated for
all other base addresses, and for this case it is enough that the table stays empty.

The main result speaks of the source only.  `Line.HasLabel` says what the label of a line is by
dividing the line at its first colon, and `IsFirstLabel` that no line above has the same label.
Neither uses the reader of lines or the table of labels, so the theorem would show a mistake in
either.

The work is in one invariant of the first pass, `Scan.LabelsOf`, about the lines read so far.  It
has the labels in the order of their lines, who they are, and what was reported about the others.
For the last part it is not enough to say that a diagnostic is there: each line with a colon has
either one diagnostic in front of its body or none, and for that to survive the next line it has to
be known that no diagnostic points below the lines that were read.

What is reported about the label of a line is told from what is reported about its body by where it
starts, since the body of a line begins behind the colon (`Diagnostic.StartsBefore`).

* `Line.HasLabel` — what the label of a line is, without the way in which lines are read.
* `IsFirstLabel` — a line is the first with a label.
* `Scan.LabelsOf.readLine` — reading one more line keeps the table to the first definitions.
* `labels_are_first_definitions` — the result.
-/

set_option autoImplicit false

namespace MipsAsm

/-! ## The label of a line

How a line is read is a matter of code: the comment is cut off, the first colon is searched for, and
margins are taken off what stands before it.  `Line.Splits` and `Line.HasLabel` say what comes out
of that as conditions on the characters of the line, and the lemmas that follow bring the code to
these conditions.  The results are stated with them. -/

namespace Line

variable {cs before rest : List Char}

/-- The first colon of a line that is not in its comment divides it into `before` and `rest`. -/
def Splits (cs before rest : List Char) : Prop :=
  cs.takeWhile (· != '#') = before ++ ':' :: rest ∧ ':' ∉ before

/-- A line has `name` before its first colon, with margins around it. -/
def HasLabel (cs : List Char) (name : String) : Prop :=
  ∃ before rest, Splits cs before rest ∧ name = String.ofList (Text.trim isMargin before)

theorem read_of_splits (h : Splits cs before rest) :
    read cs =
      { labelText := some before, body := rest, bodyStart := Text.byteLength before + 1 } := by
  rw [read, code, h.1, Text.cut_append_cons h.2]

/-- A line without the mark of a comment is all code. -/
theorem code_of_not_mem (h : '#' ∉ cs) : code cs = cs := by
  rw [code, List.takeWhile_eq_self_iff]
  intro c hc
  rw [bne_iff_ne]
  rintro rfl
  exact h hc

theorem read_of_not_mem (h : ':' ∉ code cs) : read cs = unlabelled cs := by
  rw [read, Text.cut_of_not_mem h]

theorem exists_splits {name : Text.Token} (h : (read cs).label? = some name) :
    ∃ before rest, Splits cs before rest := by
  rw [read, Text.cut] at h
  cases hdrop : (code cs).dropWhile (· != ':') with
  | nil =>
    rw [hdrop] at h
    cases h
  | cons c rest =>
    have hc : c = ':' := by
      have hhead := List.head?_dropWhile_not (· != ':') (code cs)
      rw [hdrop] at hhead
      simpa using hhead
    rw [hc] at hdrop
    refine ⟨(code cs).takeWhile (· != ':'), rest, ?_, fun hmem ↦ ?_⟩
    · rw [← hdrop, List.takeWhile_append_dropWhile]
      rfl
    · simpa using List.mem_takeWhile_imp hmem

theorem label?_of_splits (h : Splits cs before rest) :
    (read cs).label? =
      some { text := String.ofList (Text.trim isMargin before)
             start := Text.byteLength (before.takeWhile isMargin) } := by
  rw [read_of_splits h]
  rfl

theorem hasLabel_iff {name : String} :
    HasLabel cs name ↔ (read cs).label?.map Text.Token.text = some name := by
  constructor
  · rintro ⟨before, rest, hsplits, rfl⟩
    rw [label?_of_splits hsplits, Option.map_some]
  · intro h
    obtain ⟨t, ht, rfl⟩ := Option.map_eq_some_iff.mp h
    obtain ⟨before, rest, hsplits⟩ := exists_splits ht
    rw [label?_of_splits hsplits] at ht
    exact ⟨before, rest, hsplits, by rw [← Option.some.inj ht]⟩

/-- A label starts before the body of its line. -/
theorem start_lt_bodyStart {name : Text.Token} (h : (read cs).label? = some name) :
    name.start < (read cs).bodyStart := by
  obtain ⟨before, rest, hsplits⟩ := exists_splits h
  rw [label?_of_splits hsplits] at h
  obtain rfl := Option.some.inj h
  have hlength := congrArg Text.byteLength (before.takeWhile_append_dropWhile (p := isMargin))
  rw [Text.byteLength_append] at hlength
  rw [read_of_splits hsplits]
  show Text.byteLength (before.takeWhile isMargin) < Text.byteLength before + 1
  omega

/-! ## Where diagnostics start

Labels and bodies are reported on the same line, and a count of the reports on labels has to tell
the two apart.  It can do so by place: what is said of a body starts at the body or after it, which
is behind the colon and so behind every label. -/

theorem bodyStart_le_errorRange (l : Line) (number : Nat) (e : Error) :
    (l.bodyStart : Int) ≤ (l.errorRange number e).start.character := by
  have hbody : (l.bodyStart : Int) ≤ (l.bodyRange number).start.character :=
    Int.ofNat_le.mpr (Nat.le_add_right _ _)
  rw [errorRange]
  split
  · exact hbody
  · split
    · exact hbody
    · rename_i start hstart
      exact Int.ofNat_le.mpr (Text.le_of_find? hstart)

/-- The remarks on a line point at its body. -/
theorem start_of_mem_remarks {l : Line} {number : Nat} {d : Diagnostic}
    (h : d ∈ l.remarks number) :
    d.range.start.line = number ∧ (l.bodyStart : Int) ≤ d.range.start.character := by
  rw [remarks] at h
  split at h
  · cases h
  · rename_i first rest hfirst
    split at h
    · rw [List.mem_singleton] at h
      subst h
      have hmem : first ∈ l.tokens := hfirst ▸ List.mem_cons_self
      exact ⟨rfl, Int.ofNat_le.mpr (Text.le_start_of_mem_tokens hmem)⟩
    · split at h
      · rename_i e _
        rw [List.mem_singleton] at h
        subst h
        exact ⟨l.start_line_errorRange number e, l.bodyStart_le_errorRange number e⟩
      · cases h

end Line

/-! ## First lines with a label

`IsFirstLabel` is about lines only.  That a label has at most one first line, and has one if it is
on any line, is what makes the table of labels a function of the source. -/

/-- A line has a label. -/
def LabelAt (lines : List (List Char)) (n : Nat) (name : String) : Prop :=
  ∃ cs, lines[n]? = some cs ∧ Line.HasLabel cs name

/-- A line has a label that no line before it has. -/
def IsFirstLabel (lines : List (List Char)) (name : String) (n : Nat) : Prop :=
  LabelAt lines n name ∧ ∀ m < n, ¬LabelAt lines m name

section

variable {lines : List (List Char)} {cs : List Char} {name : String} {n : Nat}

theorem LabelAt.lt (h : LabelAt lines n name) : n < lines.length := by
  obtain ⟨cs, hcs, -⟩ := h
  exact (List.getElem?_eq_some_iff.mp hcs).1

theorem labelAt_concat :
    LabelAt (lines ++ [cs]) n name ↔
      LabelAt lines n name ∨ n = lines.length ∧ Line.HasLabel cs name := by
  rw [LabelAt, LabelAt]
  rcases Nat.lt_trichotomy n lines.length with hlt | rfl | hgt
  · simp [List.getElem?_append_left hlt, Nat.ne_of_lt hlt]
  · simp
  · have hnone : (lines ++ [cs])[n]? = none := by simp; omega
    have hnone' : lines[n]? = none := by simp; omega
    simp [hnone, hnone', Nat.ne_of_gt hgt]

/-- Where a label occurs, it occurs for the first time. -/
theorem LabelAt.exists_isFirstLabel (h : LabelAt lines n name) :
    ∃ m, IsFirstLabel lines name m := by
  classical
  have hex : ∃ m, LabelAt lines m name := ⟨n, h⟩
  exact ⟨Nat.find hex, Nat.find_spec hex, fun m ↦ Nat.find_min hex⟩

/-- One more line is the first with its label if no line before has it. -/
theorem isFirstLabel_concat :
    IsFirstLabel (lines ++ [cs]) name n ↔
      IsFirstLabel lines name n ∨
        n = lines.length ∧ Line.HasLabel cs name ∧ ∀ m, ¬LabelAt lines m name := by
  simp only [IsFirstLabel, labelAt_concat, not_or]
  constructor
  · rintro ⟨hlabel | ⟨rfl, hlabel⟩, hfirst⟩
    · exact .inl ⟨hlabel, fun m hm ↦ (hfirst m hm).1⟩
    · refine .inr ⟨rfl, hlabel, fun m hm ↦ ?_⟩
      exact (hfirst m hm.lt).1 hm
  · rintro (⟨hlabel, hfirst⟩ | ⟨rfl, hlabel, hnew⟩)
    · refine ⟨.inl hlabel, fun m hm ↦ ⟨hfirst m hm, ?_⟩⟩
      have hlt := hlabel.lt
      omega
    · exact ⟨.inr ⟨rfl, hlabel⟩, fun m hm ↦ ⟨hnew m, by omega⟩⟩

theorem IsFirstLabel.unique {m : Nat} (hm : IsFirstLabel lines name m)
    (hn : IsFirstLabel lines name n) : m = n := by
  rcases Nat.lt_trichotomy m n with hlt | heq | hgt
  · exact absurd hm.1 (hn.2 m hlt)
  · exact heq
  · exact absurd hn.1 (hm.2 n hgt)

end

/-! ## What becomes of a label

One inversion for the step of the first pass: `Scan.LabelStep` lists what the label of a line can
add, to the lines of labels and to the diagnostics.  It speaks of the labels that are known in any
way, so the step can be compared with the table first and with the earlier lines after that. -/

/-- A diagnostic starts on a line, before one of its bytes. -/
def Diagnostic.StartsBefore (number character : Nat) (d : Diagnostic) : Prop :=
  d.range.start.line = number ∧ d.range.start.character < character

instance (number character : Nat) : DecidablePred (Diagnostic.StartsBefore number character) :=
  fun _ ↦ inferInstanceAs (Decidable (_ ∧ _))

theorem Diagnostic.filter_eq_nil {number character : Nat} {ds : List Diagnostic}
    (h : ∀ d ∈ ds, ¬d.StartsBefore number character) :
    ds.filter (StartsBefore number character) = [] :=
  List.filter_eq_nil_iff.mpr fun d hd ↦ mt of_decide_eq_true (h d hd)

namespace Scan

/-- The diagnostic of a label that a line does not define. -/
def labelFault (name : Text.Token) (number : Nat) : Diagnostic :=
  if Label.isValid name.text then
    Diagnostic.duplicateLabel name.text (Range.onLine number name.start name.stop)
  else
    Diagnostic.invalidSymbolName name.text (Range.onLine number name.start name.stop)

theorem range_labelFault (name : Text.Token) (number : Nat) :
    (labelFault name number).range = Range.onLine number name.start name.stop := by
  rw [labelFault]
  split <;> rfl

/-- What the label of the line with the given number adds to the lines of labels and to the
diagnostics, if some labels are known already. -/
inductive LabelStep (known : String → Prop) (number : Nat) :
    Option Text.Token → List (String × Nat) → List Diagnostic → Prop
  /-- There is no label. -/
  | unlabelled : LabelStep known number none [] []
  /-- The label is a new label name. -/
  | defined {name : Text.Token} (valid : Label.isValid name.text = true)
      (new : ¬known name.text) : LabelStep known number (some name) [(name.text, number)] []
  /-- The label is no label name, or known. -/
  | refused {name : Text.Token} (old : Label.isValid name.text = true → known name.text) :
      LabelStep known number (some name) [] [labelFault name number]

variable {s s' : Scan}

/-- At an address that is a multiple of four, a label name is refused only if it is in the table. -/
theorem defineLabel_step {limit : Int} {line : Line} (hunique : s.labels.mode = .unique)
    (haligned : s.address % 4 = 0) (h : s.defineLabel limit line = some s') :
    ∃ defined faults, s'.lines = s.lines ∧
      s'.labelLines.toList = s.labelLines.toList ++ defined ∧
      s'.diagnostics.toList = s.diagnostics.toList ++ faults ∧
      LabelStep (· ∈ s.labels.firstIndex) s.lines line.label? defined faults := by
  rw [defineLabel] at h
  cases hlabel : line.label? with
  | none =>
    rw [hlabel] at h
    obtain rfl := Option.some.inj h
    exact ⟨[], [], rfl, by simp, by simp, .unlabelled⟩
  | some name =>
    simp only [hlabel] at h
    split at h
    · rename_i hvalid
      have hfault : labelFault name s.lines = Diagnostic.duplicateLabel name.text
          (Range.onLine s.lines name.start name.stop) := if_pos hvalid
      split at h
      · -- the label was entered, so that it was not there before
        rename_i labels hinsert
        obtain rfl := Option.some.inj h
        obtain ⟨fault, -, hfault, -⟩ | ⟨hnone, -⟩ := SymbolTable.insert_cases hinsert
        · cases hfault
        · obtain ⟨-, hnew⟩ := SymbolTable.insertFault?_eq_none hnone
          exact ⟨[(name.text, s.lines)], [], rfl, by simp, by simp, .defined hvalid (hnew hunique)⟩
      · -- at a multiple of four, only a name that is there already is refused
        rename_i labels e hinsert
        obtain rfl := Option.some.inj h
        obtain ⟨fault, hsome, hrejected, -⟩ | ⟨-, hok, -⟩ := SymbolTable.insert_cases hinsert
        · obtain rfl := Except.error.inj hrejected
          obtain ⟨rfl, hknown⟩ := SymbolTable.duplicate_of_insertFault? haligned hsome
          exact ⟨[], [labelFault name s.lines], rfl, by simp, by simp [hfault, labelDiagnostic],
            .refused fun _ ↦ hknown⟩
        · cases hok
      · cases h
    · rename_i hvalid
      obtain rfl := Option.some.inj h
      have hfault : labelFault name s.lines = Diagnostic.invalidSymbolName name.text
          (Range.onLine s.lines name.start name.stop) := if_neg hvalid
      exact ⟨[], [labelFault name s.lines], rfl, by simp, by simp [hfault],
        .refused fun h ↦ absurd h hvalid⟩

/-- Reading a line adds what its label adds and then the remarks on its body. -/
theorem readLine_step {o : Options} {cs : List Char} (hstop : o.stopOnFirstError = false)
    (hunique : s.labels.mode = .unique) (haligned : s.address % 4 = 0)
    (h : s.readLine o cs = some s') :
    ∃ defined faults, s'.labelLines.toList = s.labelLines.toList ++ defined ∧
      s'.diagnostics.toList =
        s.diagnostics.toList ++ (faults ++ (Line.read cs).remarks s.lines) ∧
      LabelStep (· ∈ s.labels.firstIndex) s.lines (Line.read cs).label? defined faults := by
  rw [Scan.readLine, hstop] at h
  simp only [Bool.false_and, Bool.false_eq_true, ↓reduceIte, Option.bind_eq_bind,
    Option.bind_eq_some_iff] at h
  obtain ⟨t, hdefine, hread⟩ := h
  obtain ⟨defined, faults, hlines, hlabels, hdiagnostics, hstep⟩ :=
    defineLabel_step hunique haligned hdefine
  obtain ⟨log, hinstruction⟩ := readInstruction_eq t (Line.read cs)
  rw [hinstruction] at hread
  obtain rfl := Option.some.inj hread
  refine ⟨defined, faults, hlabels, ?_, hstep⟩
  simp only [Array.toList_append, hdiagnostics, hlines, List.append_assoc]

namespace LabelStep

variable {known : String → Prop} {number : Nat} {label : Option Text.Token}
  {defined : List (String × Nat)} {faults : List Diagnostic}

/-- A label is added where it stands, if it is a label name and new. -/
theorem mem_iff (h : LabelStep known number label defined faults) {name : String} {n : Nat} :
    (name, n) ∈ defined ↔ Label.isValid name = true ∧ ¬known name ∧ n = number ∧
      label.map Text.Token.text = some name := by
  cases h with
  | unlabelled => simp
  | defined valid new =>
    simp only [List.mem_singleton, Prod.mk.injEq, Option.map_some, Option.some.injEq]
    constructor
    · rintro ⟨rfl, rfl⟩
      exact ⟨valid, new, rfl, rfl⟩
    · rintro ⟨-, -, rfl, rfl⟩
      exact ⟨rfl, rfl⟩
  | refused old =>
    simp only [List.not_mem_nil, Option.map_some, Option.some.injEq, false_iff]
    rintro ⟨hvalid, hnew, -, rfl⟩
    exact hnew (old hvalid)

theorem pairwise (h : LabelStep known number label defined faults) :
    defined.Pairwise (·.2 < ·.2) := by
  cases h with
  | unlabelled | refused => exact .nil
  | defined => exact List.pairwise_singleton _ _

/-- What is reported of a label points at it. -/
theorem range_of_mem (h : LabelStep known number label defined faults) {d : Diagnostic}
    (hd : d ∈ faults) :
    ∃ name, label = some name ∧ d.range = Range.onLine number name.start name.stop := by
  cases h with
  | unlabelled | defined => cases hd
  | @refused name old =>
    rw [List.mem_singleton] at hd
    exact ⟨name, rfl, hd ▸ range_labelFault name number⟩

/-- All that is said of a line points at it. -/
theorem line_of_mem {line : Line} (h : LabelStep known number line.label? defined faults)
    {d : Diagnostic} (hd : d ∈ faults ++ line.remarks number) : d.range.start.line = number := by
  rcases List.mem_append.mp hd with hd | hd
  · obtain ⟨name, -, hrange⟩ := h.range_of_mem hd
    rw [hrange]
    rfl
  · exact (Line.start_of_mem_remarks hd).1

/-- Before the body of the line, only its label is reported. -/
theorem filter_startsBefore {cs : List Char}
    (h : LabelStep known number (Line.read cs).label? defined faults) :
    (faults ++ (Line.read cs).remarks number).filter
      (Diagnostic.StartsBefore number (Line.read cs).bodyStart) = faults := by
  have hfaults : ∀ d ∈ faults, d.StartsBefore number (Line.read cs).bodyStart := by
    intro d hd
    obtain ⟨name, hname, hrange⟩ := h.range_of_mem hd
    rw [Diagnostic.StartsBefore, hrange]
    exact ⟨rfl, Int.ofNat_lt.mpr (Line.start_lt_bodyStart hname)⟩
  have hremarks : ∀ d ∈ (Line.read cs).remarks number,
      ¬d.StartsBefore number (Line.read cs).bodyStart := by
    intro d hd hstarts
    exact Int.not_lt.mpr (Line.start_of_mem_remarks hd).2 hstarts.2
  rw [List.filter_append, List.filter_eq_self.mpr fun d hd ↦ decide_eq_true (hfaults d hd),
    Diagnostic.filter_eq_nil hremarks, List.append_nil]

/-- A label that is not added is reported, and no other. -/
theorem faults_eq {name : Text.Token}
    (h : LabelStep known number (some name) defined faults) :
    faults = if (name.text, number) ∈ defined then [] else [labelFault name number] := by
  cases h with
  | defined => simp
  | refused => simp

end LabelStep

/-! ## The table of labels

`Scan.LabelsOf` is the invariant.  It says which labels the lines that were read have left, and,
line by line, which report there is in front of the body.  One more line is added at the end, so a
line keeps its report, and the new one gets its own from `Scan.LabelStep`. -/

/-- The labels of the state are the first definitions in the lines that were read, and all other
labels have been reported. -/
structure LabelsOf (read : List (List Char)) (s : Scan) : Prop where
  /-- The labels are in the order of their lines. -/
  ascending : s.labelLines.toList.Pairwise (·.2 < ·.2)
  /-- They are the label names that lines have first. -/
  mem_iff : ∀ name n, (name, n) ∈ s.labelLines.toList ↔
    Label.isValid name = true ∧ IsFirstLabel read name n
  /-- Diagnostics are about lines that were read. -/
  bounded : ∀ d ∈ s.diagnostics.toList, d.range.start.line < read.length
  /-- Before the body of a line there is a diagnostic if the label is none of them. -/
  reported : ∀ n cs name, read[n]? = some cs → (Line.read cs).label? = some name →
    s.diagnostics.toList.filter (Diagnostic.StartsBefore n (Line.read cs).bodyStart) =
      if (name.text, n) ∈ s.labelLines.toList then [] else [labelFault name n]

variable {base : UInt32} {read : List (List Char)}

theorem Describes.map_labelLines (h : Describes base read s) :
    s.labelLines.toList.map Prod.fst = s.labels.entries.toList.map Symbol.name := by
  have hnames := h.labels.imp fun _ _ hdef ↦ hdef.name.symm
  rw [← List.forall₂_eq_eq_eq, List.forall₂_map_left_iff, List.forall₂_map_right_iff]
  exact hnames.flip.imp fun _ _ ↦ Eq.symm

namespace LabelsOf

/-- **A label name is in the table if one of the lines that were read has it.** -/
theorem mem_firstIndex_iff (h : LabelsOf read s) (hdescribes : Describes base read s)
    {name : String} (hvalid : Label.isValid name = true) :
    name ∈ s.labels.firstIndex ↔ ∃ n, LabelAt read n name := by
  rw [SymbolTable.mem_firstIndex_iff hdescribes.wellFormed, ← hdescribes.map_labelLines,
    List.mem_map]
  constructor
  · rintro ⟨⟨name, n⟩, hmem, rfl⟩
    exact ⟨n, ((h.mem_iff name n).mp hmem).2.1⟩
  · rintro ⟨n, hn⟩
    obtain ⟨m, hm⟩ := hn.exists_isFirstLabel
    exact ⟨(name, m), (h.mem_iff name m).mpr ⟨hvalid, hm⟩, rfl⟩

theorem lt_of_mem (h : LabelsOf read s) {name : String} {n : Nat}
    (hmem : (name, n) ∈ s.labelLines.toList) : n < read.length :=
  ((h.mem_iff name n).mp hmem).2.1.lt

theorem start (labels : SymbolTable) : LabelsOf [] (Scan.start base labels) := by
  refine ⟨.nil, fun name n ↦ ?_, fun d hd ↦ absurd hd List.not_mem_nil, fun n cs name hcs ↦ ?_⟩
  · simp [Scan.start, IsFirstLabel, LabelAt]
  · cases hcs

section

variable {cs : List Char} {defined : List (String × Nat)} {faults : List Diagnostic}

/-- The label of the next line is added if no line before has it. -/
theorem mem_defined_iff (h : LabelsOf read s) (hdescribes : Describes base read s) {number : Nat}
    (hlabel : LabelStep (· ∈ s.labels.firstIndex) number (Line.read cs).label? defined faults)
    {name : String} {n : Nat} :
    (name, n) ∈ defined ↔ Label.isValid name = true ∧ n = number ∧ Line.HasLabel cs name ∧
      ∀ m, ¬LabelAt read m name := by
  rw [hlabel.mem_iff, Line.hasLabel_iff]
  constructor
  · rintro ⟨hvalid, hnew, rfl, hname⟩
    rw [h.mem_firstIndex_iff hdescribes hvalid, not_exists] at hnew
    exact ⟨hvalid, rfl, hname, hnew⟩
  · rintro ⟨hvalid, rfl, hname, hnew⟩
    rw [h.mem_firstIndex_iff hdescribes hvalid, not_exists]
    exact ⟨hvalid, hnew, rfl, hname⟩

/-- What is said of the next line leaves the reports on labels of the other lines as they are, and
is a report on its own label if that is not added. -/
theorem reported_concat (h : LabelsOf read s) {known : String → Prop}
    (hlabel : LabelStep known read.length (Line.read cs).label? defined faults) {n : Nat}
    {cs' : List Char} {name : Text.Token} (hcs' : (read ++ [cs])[n]? = some cs')
    (hname : (Line.read cs').label? = some name) :
    (s.diagnostics.toList ++ (faults ++ (Line.read cs).remarks read.length)).filter
        (Diagnostic.StartsBefore n (Line.read cs').bodyStart) =
      if (name.text, n) ∈ s.labelLines.toList ++ defined then [] else [labelFault name n] := by
  rw [List.filter_append]
  rcases Nat.lt_or_ge n read.length with hlt | hge
  · -- for an earlier line, all that is new starts below it
    rw [List.getElem?_append_left hlt] at hcs'
    have hsame : (name.text, n) ∈ s.labelLines.toList ++ defined ↔
        (name.text, n) ∈ s.labelLines.toList := by
      rw [List.mem_append, hlabel.mem_iff]
      exact or_iff_left fun hnew ↦ Nat.ne_of_lt hlt hnew.2.2.1
    have hnothing : (faults ++ (Line.read cs).remarks read.length).filter
        (Diagnostic.StartsBefore n (Line.read cs').bodyStart) = [] := by
      refine Diagnostic.filter_eq_nil fun d hd hstarts ↦ ?_
      have hstart := hstarts.1
      rw [hlabel.line_of_mem hd] at hstart
      omega
    simp only [hsame]
    rw [h.reported n cs' name hcs' hname, hnothing, List.append_nil]
  · -- the only line after those read is the new one, of which nothing was said before
    rw [List.getElem?_append_right hge, List.getElem?_singleton] at hcs'
    split at hcs'
    · obtain rfl := Option.some.inj hcs'
      obtain rfl : n = read.length := by omega
      have hsame : (name.text, read.length) ∈ s.labelLines.toList ++ defined ↔
          (name.text, read.length) ∈ defined := by
        rw [List.mem_append]
        exact or_iff_right fun hold ↦ Nat.lt_irrefl _ (h.lt_of_mem hold)
      have hnothing : s.diagnostics.toList.filter
          (Diagnostic.StartsBefore read.length (Line.read cs).bodyStart) = [] := by
        refine Diagnostic.filter_eq_nil fun d hd hstarts ↦ ?_
        have hstart := hstarts.1
        have hold := h.bounded d hd
        omega
      rw [hnothing, List.nil_append, hlabel.filter_startsBefore]
      rw [hname] at hlabel
      simp only [hsame]
      exact hlabel.faults_eq
    · cases hcs'

end

/-- **Reading a line keeps the labels to the first definitions.** -/
theorem readLine {o : Options} {cs : List Char} (h : LabelsOf read s)
    (hdescribes : Describes o.base read s) (hbase : o.base % 4 = 0)
    (hstop : o.stopOnFirstError = false) (hstep : s.readLine o cs = some s') :
    LabelsOf (read ++ [cs]) s' := by
  have haligned : s.address % 4 = 0 := by
    rw [hdescribes.address, Image.addressOf_mod_four, hbase]
  obtain ⟨defined, faults, hlabels, hdiagnostics, hlabel⟩ :=
    readLine_step hstop hdescribes.unique haligned hstep
  rw [hdescribes.lines] at hdiagnostics hlabel
  refine ⟨?_, ?_, ?_, ?_⟩
  · rw [hlabels, List.pairwise_append]
    refine ⟨h.ascending, hlabel.pairwise, ?_⟩
    rintro ⟨name, n⟩ hold ⟨name', n'⟩ hnew
    obtain ⟨-, rfl, -⟩ := (h.mem_defined_iff hdescribes hlabel).mp hnew
    exact h.lt_of_mem hold
  · intro name n
    rw [hlabels, List.mem_append, h.mem_iff, h.mem_defined_iff hdescribes hlabel,
      isFirstLabel_concat, ← and_or_left]
  · intro d hd
    rw [List.length_append, List.length_singleton]
    rw [hdiagnostics, List.mem_append] at hd
    rcases hd with hd | hd
    · have hold := h.bounded d hd
      omega
    · rw [hlabel.line_of_mem hd]
      omega
  · intro n cs' name hcs' hname
    rw [hdiagnostics, hlabels]
    exact h.reported_concat hlabel hcs' hname

/-- **The labels of a pass** are the first definitions in the lines that it has read. -/
theorem ofLines_take {o : Options} {labels : SymbolTable}
    (hnew : SymbolTable.new o.tableLimit .unique = .ok labels) (hbase : o.base % 4 = 0)
    {lines : List (List Char)} (h : Scan.ofLines o labels lines = some s) :
    LabelsOf (lines.take s.lines) s := by
  refine foldlM_induction (P := fun done (s : Scan) ↦ LabelsOf (done.take s.lines) s) ?_ h ?_
  · exact start labels
  · intro done cs s s' _ hdone hlabels hstep
    obtain ⟨hle, hdescribes, hend, -⟩ := ofLines_describes hnew hdone
    obtain ⟨-, rfl⟩ | ⟨hgo, hnext⟩ := hdescribes.readLine hstep
    · rwa [List.take_append_of_le_length hle]
    · -- the pass has not stopped, so that it reads the line as a pass does that never stops
      rw [hend.resolve_right hgo, List.take_length] at hdescribes hlabels hnext
      have hfull : s.readLine { o with stopOnFirstError := false } cs = some s' := by
        rw [← hstep, Scan.readLine, Scan.readLine, if_neg (by simp), if_neg (by simpa using hgo)]
      have hread : s'.lines = (done ++ [cs]).length := hnext.lines
      rw [hread, List.take_length]
      exact hlabels.readLine (o := { o with stopOnFirstError := false }) hdescribes hbase rfl hfull

/-- The labels of a whole pass that does not stop are the first definitions. -/
theorem ofLines {o : Options} {labels : SymbolTable}
    (hnew : SymbolTable.new o.tableLimit .unique = .ok labels) (hbase : o.base % 4 = 0)
    (hstop : o.stopOnFirstError = false) {lines : List (List Char)}
    (h : Scan.ofLines o labels lines = some s) : LabelsOf lines s := by
  obtain ⟨-, -, hend, -⟩ := ofLines_describes hnew h
  have hall : s.lines = lines.length := hend.resolve_right fun hstopped ↦ by
    rw [hstop] at hstopped
    exact Bool.false_ne_true hstopped.1
  have hlabels := ofLines_take hnew hbase h
  rwa [hall, List.take_length] at hlabels

/-- A label is looked up at its first line. -/
theorem labelLine?_eq_some_iff (h : LabelsOf read s) {name : String} {n : Nat} :
    s.labelLine? name = some n ↔ (name, n) ∈ s.labelLines.toList := by
  rw [labelLine?, ← Array.find?_toList, Option.map_eq_some_iff]
  constructor
  · rintro ⟨⟨name', n'⟩, hfind, rfl⟩
    have hname : name' = name := by simpa using List.find?_some hfind
    exact hname ▸ List.mem_of_find?_eq_some hfind
  · intro hmem
    have hsome : (s.labelLines.toList.find? (·.1 == name)).isSome = true := by
      rw [List.find?_isSome]
      exact ⟨(name, n), hmem, beq_self_eq_true name⟩
    obtain ⟨⟨name', n'⟩, hfind⟩ := Option.isSome_iff_exists.mp hsome
    obtain rfl : name' = name := by simpa using List.find?_some hfind
    have hfirst := ((h.mem_iff _ _).mp (List.mem_of_find?_eq_some hfind)).2
    exact ⟨_, hfind, hfirst.unique ((h.mem_iff _ _).mp hmem).2⟩

end LabelsOf

/-- The table of labels follows from the lines of labels. -/
theorem Describes.entries_labels (h : Describes base read s) :
    s.labels.entries.toList = s.labelLines.toList.map fun e ↦
      { name := e.1, address := Image.addressOf base (s.origins.toList.countP (· < e.2)) } := by
  rw [← List.forall₂_eq_eq_eq, List.forall₂_map_right_iff]
  refine h.labels.imp fun symbol entry hdef ↦ ?_
  rw [h.origins, countP_expandLines, ← hdef.address, hdef.name]

/-- There is no label at a base address that is no multiple of four. -/
theorem Describes.entries_labels_of_misaligned (h : Describes base read s) (hbase : base % 4 ≠ 0) :
    s.labels.entries.toList = [] := by
  refine List.eq_nil_iff_forall_not_mem.mpr fun symbol hmem ↦ hbase ?_
  have haligned := h.wellFormed.aligned symbol hmem
  rw [h.entries_labels] at hmem
  obtain ⟨e, -, rfl⟩ := List.mem_map.mp hmem
  rwa [Image.addressOf_mod_four] at haligned

end Scan

/-! ## The result

What is left is to bring the two passes together.  The second pass adds diagnostics, too, but all of
them point at bodies, so the reports on labels are those of the first. -/

/-- The diagnostics of the second pass point at the bodies of lines. -/
theorem Image.bodyStart_le_of_diagnostic? {o : Options} {source : Array (List Char)}
    {labels : SymbolTable} {entry : (Nat × Instruction) × Nat} {d : Diagnostic}
    (h : diagnostic? o source labels entry = some d) :
    ((Line.read (source[entry.1.1]?.getD [])).bodyStart : Int) ≤ d.range.start.character := by
  rw [diagnostic?] at h
  split at h
  · obtain rfl := Option.some.inj h
    exact Line.bodyStart_le_errorRange _ _ _
  · cases h

/-- The second pass has nothing to say of labels. -/
theorem Assembly.Describes.filter_startsBefore {o : Options} {a : Assembly}
    {lines : List (List Char)} (h : a.Describes o lines) {n : Nat} {cs : List Char}
    (hcs : lines[n]? = some cs) :
    a.image.diagnostics.toList.filter (Diagnostic.StartsBefore n (Line.read cs).bodyStart) =
      [] := by
  refine Diagnostic.filter_eq_nil ?_
  rintro d hd ⟨hn, hbefore⟩
  rw [h.image.diagnostics] at hd
  obtain ⟨⟨⟨number, i⟩, k⟩, -, hentry⟩ := List.mem_filterMap.mp hd
  have hbody := Image.bodyStart_le_of_diagnostic? hentry
  obtain ⟨-, hline⟩ := Image.error_of_diagnostic? hentry
  obtain rfl : number = n := Int.ofNat.inj (hline.symm.trans hn)
  have hsource : a.source[number]? = some cs := by
    rw [← Array.getElem?_toList, h.source, hcs]
  simp only [hsource, Option.getD_some] at hbody
  omega

/-- **Labels are the first definitions.**  At a base address that is a multiple of four and without
the option to stop, there is a label for each label name that stands before the colon of some line,
in the order of the first lines that have them.  It is bound to the address of the next instruction,
before which stand all lines of the listing that come from earlier source lines, and it is looked up
at its line.  On every line with a colon the part up to the colon has one error if the line does not
define its label, and none if it does: the text is no label name, or an earlier line defines it.  At
any other base address there are no labels. -/
theorem labels_are_first_definitions (o : Options) (source : String) (a : Assembly)
    (h : assemble o source = some a) :
    let lines := Text.splitLines source.toList
    (o.base % 4 = 0 → o.stopOnFirstError = false →
      a.scan.labelLines.toList.Pairwise (·.2 < ·.2) ∧
      (∀ name n, (name, n) ∈ a.scan.labelLines ↔
        Label.isValid name = true ∧ IsFirstLabel lines name n) ∧
      (∀ name n, a.scan.labelLine? name = some n ↔ (name, n) ∈ a.scan.labelLines) ∧
      (a.labels.entries.toList = a.scan.labelLines.toList.map fun e ↦
        { name := e.1
          address := Image.addressOf o.base (a.scan.origins.toList.countP (· < e.2)) }) ∧
      ∀ n cs before rest, lines[n]? = some cs → Line.Splits cs before rest →
        let name := String.ofList (Text.trim Line.isMargin before)
        let start := Text.byteLength (before.takeWhile Line.isMargin)
        let range := Range.onLine n start (start + name.utf8ByteSize)
        let reports := a.diagnostics.toList.filter fun (d : Diagnostic) ↦
          d.range.start.line = n ∧ d.range.start.character ≤ Text.byteLength before
        ((name, n) ∈ a.scan.labelLines → reports = []) ∧
        ((name, n) ∉ a.scan.labelLines → reports =
          [if Label.isValid name then Diagnostic.duplicateLabel name range
            else Diagnostic.invalidSymbolName name range])) ∧
    (o.base % 4 ≠ 0 → a.labels.entries = #[]) := by
  intro lines
  have hdescribes := assemble_describes h
  refine ⟨fun hbase hstop ↦ ?_, fun hbase ↦ ?_⟩
  · obtain ⟨labels, -, hnew, -, -, hscan, -⟩ := assemble_cases h
    have hlabels := Scan.LabelsOf.ofLines hnew hbase hstop hscan
    refine ⟨hlabels.ascending,
      fun name n ↦ Array.mem_toList_iff.symm.trans (hlabels.mem_iff name n),
      fun name n ↦ hlabels.labelLine?_eq_some_iff.trans Array.mem_toList_iff,
      hdescribes.scan.entries_labels, ?_⟩
    intro n cs before rest hcs hsplits name start range reports
    have hreports : reports = if (name, n) ∈ a.scan.labelLines.toList then []
        else [Scan.labelFault ⟨name, start⟩ n] := by
      have hscanned := hlabels.reported n cs _ hcs (Line.label?_of_splits hsplits)
      have hbody := hdescribes.filter_startsBefore hcs
      rw [Line.read_of_splits hsplits] at hscanned hbody
      rw [← hscanned, ← List.append_nil (List.filter _ a.scan.diagnostics.toList), ← hbody,
        ← List.filter_append, ← Array.toList_append]
      refine List.filter_congr fun d _ ↦ decide_eq_decide.mpr ?_
      show _ ↔ d.StartsBefore n (Text.byteLength before + 1)
      rw [Diagnostic.StartsBefore]
      omega
    refine ⟨fun hmem ↦ ?_, fun hmem ↦ ?_⟩
    · rw [hreports, if_pos (Array.mem_toList_iff.mpr hmem)]
    · rw [hreports, if_neg (mt Array.mem_toList_iff.mp hmem)]
      rfl
  · exact Array.toList_eq_nil_iff.mp (hdescribes.scan.entries_labels_of_misaligned hbase)

/-- Two label names, one of them on a line of its own, a text that is no label name and a label that
is there before, with blanks around it; and the same at an odd base address. -/
theorem labels_are_first_definitions_mixed :
    ∃ a b, assemble {} "x: li $t0, 100000\n5y: jr $ra\n x\t: foo # z:\nz:" = some a ∧
      assemble { base := 2 } "x: li $t0, 100000\n5y: jr $ra\n x\t: foo # z:\nz:" = some b ∧
      IsFirstLabel (Text.splitLines "x: li $t0, 100000\n5y: jr $ra\n x\t: foo # z:\nz:".toList)
        "z" 3 ∧
      a.scan.labelLine? "z" = some 3 ∧ a.labels.entries = #[⟨"x", 0⟩, ⟨"z", 16⟩] ∧
      (a.diagnostics.toList.filter fun d ↦
          d.range.start.line = 2 ∧ d.range.start.character ≤ 3) =
        [Diagnostic.duplicateLabel "x" (Range.onLine 2 1 2)] ∧
      b.labels.entries = #[] := by
  have hrun : (assemble {} "x: li $t0, 100000\n5y: jr $ra\n x\t: foo # z:\nz:").map
      (fun a ↦ (a.scan.labelLines, a.labels.entries)) =
      some (#[("x", 0), ("z", 3)], #[⟨"x", 0⟩, ⟨"z", 16⟩]) := by
    decide +kernel
  have hrun' : (assemble { base := 2 }
      "x: li $t0, 100000\n5y: jr $ra\n x\t: foo # z:\nz:").isSome = true := by
    decide +kernel
  obtain ⟨a, ha, hrun⟩ := Option.map_eq_some_iff.mp hrun
  obtain ⟨hlines, hentries⟩ := Prod.mk.inj hrun
  obtain ⟨b, hb⟩ := Option.isSome_iff_exists.mp hrun'
  obtain ⟨hfirst, -⟩ := labels_are_first_definitions {} _ a ha
  obtain ⟨-, hdefined, hline, -, hreports⟩ := hfirst rfl rfl
  have hz : ("z", 3) ∈ a.scan.labelLines := by simp [hlines]
  have hx : ("x", 2) ∉ a.scan.labelLines := by simp [hlines]
  refine ⟨a, b, ha, hb, ((hdefined "z" 3).mp hz).2, (hline "z" 3).mpr hz, hentries, ?_, ?_⟩
  · exact (hreports 2 " x\t: foo # z:".toList " x\t".toList " foo ".toList (by decide +kernel)
      ⟨by decide +kernel, by decide +kernel⟩).2 hx
  · exact (labels_are_first_definitions { base := 2 } _ b hb).2 (by decide)

end MipsAsm
