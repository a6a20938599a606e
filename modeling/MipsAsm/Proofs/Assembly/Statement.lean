import MipsAsm.Proofs.Assembly.Alike
import MipsAsm.Proofs.Assembly.Capacity
import MipsAsm.Proofs.Layout.Line

/-!
# A line on its own and as a source

A line can be read on its own, as a statement, or assembled as a source of one line.  Both divide it
at the same places, so that the instruction of the statement is the one that the first pass takes
up.  The label is trimmed in two ways.  Of a statement all blank characters are removed around it,
of a source only spaces, tabs and carriage returns, so that a name with any other blank character
beside it is the label of the statement and no label of the source.

A statement is read without any check, so its label may be any text and its instruction may not
exist.  As a source, such a line has errors, and what is compared is what the first pass takes up
and not what comes of it.

Since both ways to read a line go through the same division into tokens, the instructions agree
always, and the labels are the interesting part.  The result is an equivalence, so it also says for
which lines the two readings differ.

* `Label.isValid_trim_iff` — when a text is a label name after it is trimmed of margins, compared
  with all blanks.
* `Scan.Takes` — what the first pass does with the instruction of a line.
* `Scan.readInstruction_takes` — it does so with the instruction that the tokens make up.
* `statement_is_assembled_iff` — the result.
-/

set_option autoImplicit false

namespace MipsAsm

/-! ## Labels trimmed in two ways

A label name has no blank characters, so what is taken off on both sides of it is a run of blanks.
If all of these are margins, both ways to trim take off the same.  If one is not, trimming margins
stops at it, and what is left has a character that no label name has. -/

namespace Text

theorem trim_run {p : Char → Bool} {left run right : List Char} (hleft : ∀ c ∈ left, p c = true)
    (hrun : ∀ c ∈ run, p c = false) (hright : ∀ c ∈ right, p c = true) :
    trim p (left ++ run ++ right) = run := by
  rw [List.append_assoc, trim_separators_append hleft]
  exact trim_append (fun c hc ↦ hrun c (List.mem_of_mem_head? hc))
    (fun c hc ↦ hrun c (List.mem_of_getLast? hc)) hright

end Text

namespace Label

variable {before : List Char}

/-- A label name between margins is left if all blanks are trimmed, and there are no blanks but
margins. -/
theorem trim_isBlank_of_isValid
    (h : isValid (String.ofList (Text.trim Line.isMargin before)) = true) :
    Text.trim Text.isBlank before = Text.trim Line.isMargin before ∧
      ∀ c ∈ before, Text.isBlank c = true → Line.isMargin c = true := by
  have hname := (of_isValid h).2
  rw [String.toList_ofList] at hname
  obtain ⟨left, right, hbefore, hleft, hright⟩ := Text.exists_eq_append_trim Line.isMargin before
  generalize Text.trim Line.isMargin before = name at *
  subst hbefore
  refine ⟨Text.trim_run (fun c hc ↦ Line.isBlank_of_isMargin (hleft c hc))
    (fun c hc ↦ (of_isContinue (hname c hc)).1)
    fun c hc ↦ Line.isBlank_of_isMargin (hright c hc), fun c hc hblank ↦ ?_⟩
  rw [List.mem_append, List.mem_append] at hc
  obtain (hc | hc) | hc := hc
  · exact hleft c hc
  · rw [(of_isContinue (hname c hc)).1] at hblank
    cases hblank
  · exact hright c hc

/-- A label name between blanks that are all margins is left if margins are trimmed. -/
theorem trim_isMargin_of_isValid
    (h : isValid (String.ofList (Text.trim Text.isBlank before)) = true)
    (hmargins : ∀ c ∈ before, Text.isBlank c = true → Line.isMargin c = true) :
    Text.trim Line.isMargin before = Text.trim Text.isBlank before := by
  have hname := (of_isValid h).2
  rw [String.toList_ofList] at hname
  obtain ⟨left, right, hbefore, hleft, hright⟩ := Text.exists_eq_append_trim Text.isBlank before
  generalize Text.trim Text.isBlank before = name at *
  subst hbefore
  refine Text.trim_run (fun c hc ↦ hmargins c ?_ (hleft c hc))
    (fun c hc ↦ (of_isContinue (hname c hc)).2.1) fun c hc ↦ hmargins c ?_ (hright c hc)
  · exact List.mem_append_left _ (List.mem_append_left _ hc)
  · exact List.mem_append_right _ hc

/-- **When a text trimmed of margins is a label name**: it is one trimmed of all blanks, and its
blanks are margins. -/
theorem isValid_trim_iff :
    isValid (String.ofList (Text.trim Line.isMargin before)) = true ↔
      isValid (String.ofList (Text.trim Text.isBlank before)) = true ∧
        ∀ c ∈ before, Text.isBlank c = true → Line.isMargin c = true := by
  constructor
  · intro h
    obtain ⟨hsame, hmargins⟩ := trim_isBlank_of_isValid h
    exact ⟨by rwa [hsame], hmargins⟩
  · rintro ⟨h, hmargins⟩
    rwa [trim_isMargin_of_isValid h hmargins]

end Label

/-- The blank characters before the colon of a line are spaces, tabs and carriage returns. -/
def Line.HasMarginsOnly (l : Line) : Prop :=
  ∀ before, l.labelText = some before → ∀ c ∈ before, Text.isBlank c = true → isMargin c = true

/-- The label that the assembler finds on a line is a label name if that of the statement is, and
there are only margins around it.  It is the same name then. -/
theorem Statement.isValid_label?_iff (line : String) :
    (∃ name, (Line.read line.toList).label? = some name ∧ Label.isValid name.text = true) ↔
      Label.isValid (parse line).label = true ∧ (Line.read line.toList).HasMarginsOnly := by
  rw [parse, Line.label?, Line.HasMarginsOnly]
  cases (Line.read line.toList).labelText with
  | none =>
    have hempty : Label.isValid "" = false := rfl
    simp [hempty]
  | some before => simp [Label.isValid_trim_iff]

theorem Statement.label_eq {line : String} {name : Text.Token}
    (h : (Line.read line.toList).label? = some name) (hvalid : Label.isValid name.text = true) :
    name.text = (parse line).label := by
  obtain ⟨before, hbefore, rfl⟩ := Option.map_eq_some_iff.mp h
  rw [parse, hbefore]
  exact congrArg String.ofList (Label.trim_isBlank_of_isValid hvalid).1.symm

/-! ## Instructions that the first pass takes up

`Scan.Takes` is what the first pass does with an instruction, told apart by what the instruction is:
a directive is skipped, one that can be expanded is listed, and any other is remarked on. -/

/-- A listing is empty only if there are no instructions. -/
theorem Instruction.listing_eq_empty_iff {is : List Instruction} : listing is = "" ↔ is = [] := by
  cases is with
  | nil => simp [listing]
  | cons i is => simp [listing, line, String.join_cons]

namespace Scan

/-- What the first pass does with the instruction of the line with the given number: the
instructions that it lists, what it remarks on and what it logs.  The instruction is what was handed
over to be expanded, unless it is a directive. -/
inductive Takes (line : Line) (number : Nat) :
    Option Instruction → List Instruction → List Diagnostic → List Log.Entry → Prop
  /-- There is no token. -/
  | nothing : Takes line number none [] [] []
  /-- A directive is skipped. -/
  | skipped {i : Instruction} {first : Text.Token} (head : line.tokens.head? = some first)
      (directive : isDirective i.mnemonic = true) :
      Takes line number (some i) []
        [Diagnostic.ignoredDirective i.mnemonic (Range.onLine number first.start first.stop)] []
  /-- The instruction cannot be expanded. -/
  | rejected {i : Instruction} {e : Error} (directive : isDirective i.mnemonic = false)
      (expand : i.expand = .error e) :
      Takes line number (some i) [] [Diagnostic.ofError e (line.errorRange number e)]
        [i.expansionReport e]
  /-- The instruction is expanded. -/
  | expanded {i : Instruction} {is : List Instruction} (directive : isDirective i.mnemonic = false)
      (expand : i.expand = .ok is) : Takes line number (some i) is [] []

/-- **The first pass takes up the instruction that the tokens of a line make up.** -/
theorem readInstruction_takes (s : Scan) (line : Line) :
    ∃ is remarks reports,
      Takes line s.lines (Instruction.ofTokens? line.tokens) is remarks reports ∧
      s.readInstruction line =
        { s with
          listing := s.listing ++ Instruction.listing is
          origins := s.origins ++ Array.replicate is.length s.lines
          address := s.address + 4 * UInt32.ofNat is.length
          diagnostics := s.diagnostics ++ remarks.toArray
          log := s.log ++ reports.toArray } := by
  rw [readInstruction]
  cases htokens : line.tokens with
  | nil => exact ⟨[], [], [], .nothing, by simp [Instruction.listing]⟩
  | cons first rest =>
    have hhead : line.tokens.head? = some first := by rw [htokens, List.head?_cons]
    by_cases hdirective : isDirective first.text = true
    · exact ⟨[], _, [], .skipped hhead hdirective, by simp [Instruction.listing, hdirective]⟩
    · have hplain : isDirective first.text = false := by simpa using hdirective
      cases hexpand : Instruction.expand ⟨first.text, rest.map Text.Token.text⟩ with
      | error e =>
        exact ⟨[], _, _, .rejected hplain hexpand, by simp [Instruction.listing, hplain, hexpand]⟩
      | ok is => exact ⟨is, [], [], .expanded hplain hexpand, by simp [hplain, hexpand]⟩

/-- Something is listed or remarked on if there is a token. -/
theorem Takes.isSome_iff {line : Line} {number : Nat} {i : Option Instruction}
    {is : List Instruction} {remarks : List Diagnostic} {reports : List Log.Entry}
    (h : Takes line number i is remarks reports) :
    i.isSome = true ↔ is ≠ [] ∨ remarks ≠ [] := by
  cases h with
  | nothing => simp
  | skipped | rejected => simp
  | expanded directive expand =>
    have hpos := (Instruction.length_of_expand expand).1
    simp [List.ne_nil_of_length_pos hpos]

/-! ## Sources of one line

On the first line no label is known yet, so a label name is always accepted and nothing but a label
name is. -/

/-- The label of the first line is defined if it is a label name, and reported otherwise. -/
theorem defineLabel_start {base : UInt32} (haligned : base % 4 = 0) (limit : Int) (line : Line) :
    ∃ labels defined faults,
      LabelStep (fun _ ↦ False) 0 line.label? defined faults ∧
      (start base (.empty .unique)).defineLabel limit line =
        some { start base labels with
          labelLines := defined.toArray, diagnostics := faults.toArray } := by
  rw [defineLabel]
  cases line.label? with
  | none => exact ⟨_, [], [], .unlabelled, rfl⟩
  | some name =>
    by_cases hvalid : Label.isValid name.text = true
    · have hfault : (SymbolTable.empty .unique).insertFault? limit name.text base = none := by
        have hnew : name.text ∉ (SymbolTable.empty .unique).firstIndex := by
          simp [SymbolTable.empty]
        have hroom : (SymbolTable.empty .unique).size ≠ (SymbolTable.empty .unique).capacity :=
          Nat.ne_of_beq_eq_false rfl
        rw [SymbolTable.insertFault?, if_neg (not_not_intro haligned), if_neg fun h ↦ hnew h.2,
          if_neg fun h ↦ hroom h.1]
      have hinsert : ∃ labels, (SymbolTable.empty .unique).insert limit name.text base =
          (labels, .ok ()) := by
        rw [SymbolTable.insert, hfault]
        exact ⟨_, rfl⟩
      obtain ⟨labels, hinsert⟩ := hinsert
      refine ⟨labels, [(name.text, 0)], [], .defined hvalid not_false, ?_⟩
      simp only [hvalid, ↓reduceIte, start, hinsert]
      rfl
    · refine ⟨.empty .unique, [], [labelFault name 0], .refused fun h ↦ absurd h hvalid, ?_⟩
      simp only [labelFault, hvalid]
      rfl

/-- Where no label is known yet, a label name is defined and nothing else is. -/
theorem LabelStep.of_unknown {label : Option Text.Token} {defined : List (String × Nat)}
    {faults : List Diagnostic} (h : LabelStep (fun _ ↦ False) 0 label defined faults) :
    (∃ name, label = some name ∧ Label.isValid name.text = true ∧ defined = [(name.text, 0)] ∧
        faults = []) ∨
      (¬∃ name, label = some name ∧ Label.isValid name.text = true) ∧ defined = [] ∧
        (faults = [] ↔ label = none) := by
  cases h with
  | unlabelled => exact .inr ⟨by simp, rfl, by simp⟩
  | defined valid => exact .inl ⟨_, rfl, valid, rfl, rfl⟩
  | refused old => exact .inr ⟨by simpa using old, rfl, by simp⟩

/-- The first pass over a source of one line: the label, and then the instruction. -/
theorem ofLines_singleton {o : Options} (haligned : o.base % 4 = 0) {cs : List Char} {s : Scan}
    (h : ofLines o (.empty .unique) [cs] = some s) :
    ∃ defined faults is remarks reports,
      LabelStep (fun _ ↦ False) 0 (Line.read cs).label? defined faults ∧
      Takes (Line.read cs) 0 (Instruction.ofTokens? (Line.read cs).tokens) is remarks reports ∧
      s.labelLines.toList = defined ∧ s.listing = Instruction.listing is ∧
      s.log.toList = reports ∧ s.diagnostics.toList = faults ++ remarks := by
  obtain ⟨labels, defined, faults, hlabel, hdefine⟩ :=
    defineLabel_start haligned o.tableLimit (Line.read cs)
  obtain ⟨is, remarks, reports, htakes, hread⟩ := readInstruction_takes
    { start o.base labels with labelLines := defined.toArray, diagnostics := faults.toArray }
    (Line.read cs)
  have hgo : ¬(o.stopOnFirstError && (start o.base (.empty .unique)).hasErrors) = true := by
    simp [hasErrors, start]
  rw [ofLines, List.foldlM_cons, readLine, if_neg hgo] at h
  simp only [hdefine, Option.bind_eq_bind, Option.bind_some, hread, List.foldlM_nil] at h
  obtain rfl := Option.some.inj h
  exact ⟨defined, faults, is, remarks, reports, hlabel, htakes, rfl, by simp [start],
    by simp [start], by simp⟩

end Scan

/-- The instruction of a statement is made up of the tokens that the assembler finds. -/
theorem Statement.instruction_eq (line : String) :
    (parse line).instruction = Instruction.ofTokens? (Line.read line.toList).tokens :=
  Line.ofTokens?_congr (by rw [Line.tokens, Text.map_text_tokens, Text.map_text_tokens])

/-! ## The result -/

/-- **When a line is assembled as the statement that it is.**  A line without line feeds, assembled
as a source at the address zero, has a first token if and only if the statement has an instruction,
and then the instruction is what the first pass takes up: a directive is skipped, and anything else
is expanded, whatever comes of it.  The source defines the label of the statement, and no other, if
it is a label name and all blank characters before the colon are spaces, tabs and carriage returns.
If there are others it defines no label. -/
theorem statement_is_assembled_iff (o : Options) (line : String) (hline : '\n' ∉ line.toList)
    (hbase : o.base = 0) (hroom : o.HasRoomFor line) :
    let statement := Statement.parse line
    let read := Line.read line.toList
    ∃ a is remarks reports faults, assemble o line = some a ∧
      (statement.instruction.isSome = true ↔ read.tokens ≠ []) ∧
      (statement.instruction.isSome = true ↔ a.listing ≠ "" ∨ remarks ≠ []) ∧
      Scan.Takes read 0 statement.instruction is remarks reports ∧
      a.listing = Instruction.listing is ∧ a.scan.log.toList = reports ∧
      a.scan.diagnostics.toList = faults ++ remarks ∧
      (faults = [] ↔ read.labelText = none ∨
        Label.isValid statement.label = true ∧ read.HasMarginsOnly) ∧
      (a.labels.entries.toList = [{ name := statement.label, address := 0 }] ↔
        Label.isValid statement.label = true ∧ read.HasMarginsOnly) ∧
      (a.labels.entries.toList = [] ↔
        ¬(Label.isValid statement.label = true ∧ read.HasMarginsOnly)) := by
  intro statement read
  obtain ⟨a, ha⟩ := exists_assemble_of_room hroom
  obtain ⟨labels, -, hlabels, -, -, hscan, -⟩ := assemble_cases ha
  rw [Text.splitLines_of_not_mem hline, SymbolTable.new_eq_ok hlabels] at hscan
  obtain ⟨defined, faults, is, remarks, reports, hlabel, htakes, hdefined, hlisting, hlog,
    hdiagnostics⟩ := Scan.ofLines_singleton (by rw [hbase]; rfl) hscan
  have hinstruction : statement.instruction = Instruction.ofTokens? read.tokens :=
    Statement.instruction_eq line
  have hentries : a.labels.entries.toList = defined.map fun e ↦
      { name := e.1, address := Image.addressOf o.base (a.scan.origins.toList.countP (· < e.2)) } :=
    hdefined ▸ (assemble_describes ha).scan.entries_labels
  rw [← hinstruction] at htakes
  refine ⟨a, is, remarks, reports, faults, ha, ?_, ?_, htakes, hlisting, hlog, hdiagnostics, ?_⟩
  · rw [hinstruction]
    cases read.tokens <;> simp [Instruction.ofTokens?]
  · rw [htakes.isSome_iff, Assembly.listing, hlisting, ne_eq (Instruction.listing is),
      Instruction.listing_eq_empty_iff]
  · rw [← Statement.isValid_label?_iff, hentries]
    have hnone : read.label? = none ↔ read.labelText = none := Option.map_eq_none_iff
    obtain ⟨name, hname, hvalid, rfl, rfl⟩ | ⟨hinvalid, rfl, hfaults⟩ := hlabel.of_unknown
    · have haddress : Image.addressOf o.base (a.scan.origins.toList.countP (· < 0)) = 0 := by
        rw [hbase, List.countP_eq_zero.mpr (by simp)]
        rfl
      have hdefines : ∃ name, read.label? = some name ∧ Label.isValid name.text = true :=
        ⟨name, hname, hvalid⟩
      have hsame := Statement.label_eq hname hvalid
      refine ⟨iff_of_true rfl (.inr hdefines), iff_of_true ?_ hdefines, ?_⟩
      · simp only [List.map_cons, List.map_nil, haddress, hsame, statement]
      · exact iff_of_false (by simp) (not_not_intro hdefines)
    · refine ⟨?_, iff_of_false (by simp) hinvalid, iff_of_true rfl hinvalid⟩
      rw [hfaults, hnone, or_iff_left hinvalid]

/-- A label between margins, a pseudo-instruction and a comment with a colon in it: the source
defines the label, and the first pass expands the instruction of the statement. -/
theorem statement_is_assembled_iff_of_margins :
    ∃ a is, assemble { stopOnFirstError := true } "\tloop :li $t0, 70000 # x:" = some a ∧
      a.labels.entries.toList = [{ name := "loop", address := 0 }] ∧
      a.listing = Instruction.listing is ∧
      Instruction.expand { mnemonic := "li", args := ["$t0", "70000"] } = .ok is := by
  have hparse : Statement.parse "\tloop :li $t0, 70000 # x:" =
      { label := "loop", instruction := some { mnemonic := "li", args := ["$t0", "70000"] } } := by
    decide +kernel
  have hlabel : (Line.read "\tloop :li $t0, 70000 # x:".toList).label? =
      some { text := "loop", start := 1 } := by
    decide +kernel
  have hdefines := (Statement.isValid_label?_iff _).mp ⟨_, hlabel, by decide⟩
  obtain ⟨a, is, remarks, reports, faults, ha, -, -, htakes, hlisting, -, -, -, hentries, -⟩ :=
    statement_is_assembled_iff { stopOnFirstError := true } "\tloop :li $t0, 70000 # x:"
      (by decide) rfl ⟨by decide, by decide⟩
  rw [hparse] at htakes hentries hdefines
  refine ⟨a, is, ha, hentries.mpr hdefines, hlisting, ?_⟩
  cases htakes with
  | skipped head directive => cases directive
  | rejected directive expand =>
    have hexpands : (Instruction.expand ⟨"li", ["$t0", "70000"]⟩).toOption.isSome = true := by
      decide +kernel
    rw [expand] at hexpands
    cases hexpands
  | expanded directive expand => exact expand

/-- A form feed is no part of the label of a statement.  It is part of the label of a source, which
is no label name then. -/
theorem form_feed_hides_label :
    (Statement.parse "\x0cfoo: jr $ra").label = "foo" ∧ Label.isValid "foo" = true ∧
      (assemble {} "\x0cfoo: jr $ra").map (fun a ↦ a.labels.entries) = some #[] := by
  decide +kernel

end MipsAsm
