import MipsAsm.Proofs.Assembly.Append
import MipsAsm.Proofs.Assembly.Diagnostics

/-!
# The line at which a run stops

With the option to stop, the first pass looks for errors before it reads a line, and not while it
reads one.  A label that is refused is reported, and the rest of its line is read all the same.  So
the line at which the pass stops has one error or two.  The second pass reads one instruction at a
time and stops after the first that it cannot encode.

How many errors a run with the option to stop reports depends on when it looks.  The first pass
looks before each line, so the errors of one line are all reported, and a line has two places for
one, its label and its instruction.  Warnings stop nothing and are not counted.

When a label fails is said of the lines alone: it is no label name, it stands on a line above as
well, or the base address is no multiple of four.  None of this needs the state of the pass, so the
first line that fails can be found by looking at the source.  The proof follows the pass up to that
line, with an invariant that there are no errors before it, and then looks at the line itself.

* `Scan.LabelFails`, `Scan.BodyFails` — when a line has an error in the first pass, said of the
  lines alone.
* `Scan.ErrorsAt` — the errors of a line: at most one of its label, and at most one of its body.
* `Scan.ofLines_errors` — all errors of a first pass that stops are those of the first line that
  fails.
* `Image.ofListing_errors` — a second pass that stops has at most one error.
* `stopping_reports_the_first_failure` — what follows for both passes.
-/

set_option autoImplicit false

namespace MipsAsm

namespace Scan

/-! ## Lines that fail

Whether a line fails is said of the lines of the source and the base address, without the pass: a
label may fail because of an earlier line, a body fails by itself.  `Scan.LabelErrors` and
`Scan.BodyErrors` then say which diagnostics belong to a failure. -/

/-- The label of a line cannot be entered: it is no label name, there are no labels at addresses
that are no multiples of four, or an earlier line has the label. -/
def LabelFails (o : Options) (lines : List (List Char)) (n : Nat) : Prop :=
  ∃ name, LabelAt lines n name ∧
    (Label.isValid name = false ∨ o.base % 4 ≠ 0 ∨ ∃ m < n, LabelAt lines m name)

/-- The instruction of a line cannot be expanded. -/
def BodyFails (lines : List (List Char)) (n : Nat) : Prop := ∃ e, Unexpandable lines n e

/-- No line before line `n` fails. -/
def CleanBefore (o : Options) (lines : List (List Char)) (n : Nat) : Prop :=
  ∀ m < n, ¬LabelFails o lines m ∧ ¬BodyFails lines m

/-- The first line that fails has a label that cannot be entered and an instruction that cannot be
expanded. -/
def FailsTwice (o : Options) (lines : List (List Char)) (n : Nat) : Prop :=
  CleanBefore o lines n ∧ LabelFails o lines n ∧ BodyFails lines n

/-- What is reported of the label of a line. -/
inductive LabelErrors (o : Options) (lines : List (List Char)) (n : Nat) : List Diagnostic → Prop
  /-- There is nothing to report. -/
  | none (fine : ¬LabelFails o lines n) : LabelErrors o lines n []
  /-- The label cannot be entered: the error points at it. -/
  | one {cs : List Char} {name : Text.Token} {d : Diagnostic} (line : lines[n]? = some cs)
      (label : (Line.read cs).label? = some name) (error : d.isError = true)
      (range : d.range = Range.onLine n name.start name.stop) (fails : LabelFails o lines n) :
      LabelErrors o lines n [d]

/-- What errors are reported of the body of a line. -/
inductive BodyErrors (lines : List (List Char)) (n : Nat) : List Diagnostic → Prop
  /-- There is nothing to report. -/
  | none (fine : ¬BodyFails lines n) : BodyErrors lines n []
  /-- The instruction cannot be expanded. -/
  | one {cs : List Char} {e : Error} (line : lines[n]? = some cs)
      (fails : (Line.read cs).Unexpandable e) :
      BodyErrors lines n [.ofError e ((Line.read cs).errorRange n e)]

/-- The errors of the first pass on a line: that of the label comes first. -/
def ErrorsAt (o : Options) (lines : List (List Char)) (n : Nat) (errors : List Diagnostic) : Prop :=
  ∃ ofLabel ofBody, errors = ofLabel ++ ofBody ∧ LabelErrors o lines n ofLabel ∧
    BodyErrors lines n ofBody

section

variable {o : Options} {lines : List (List Char)} {n : Nat} {ds : List Diagnostic}

theorem LabelErrors.filter_isError (h : LabelErrors o lines n ds) :
    ds.filter Diagnostic.isError = ds := by
  cases h with
  | none => rfl
  | one line label error => simp [error]

/-- A line that does not fail has no errors. -/
theorem ErrorsAt.eq_nil (h : ErrorsAt o lines n ds) (hlabel : ¬LabelFails o lines n)
    (hbody : ¬BodyFails lines n) : ds = [] := by
  obtain ⟨ofLabel, ofBody, rfl, hofLabel, hofBody⟩ := h
  cases hofLabel with
  | one line label error range fails => exact absurd fails hlabel
  | none =>
    cases hofBody with
    | one line fails => exact absurd ⟨_, _, line, fails⟩ hbody
    | none => rfl

/-- A line has at most one error, unless its label and its body fail. -/
theorem ErrorsAt.length_le_one (h : ErrorsAt o lines n ds)
    (hone : ¬(LabelFails o lines n ∧ BodyFails lines n)) : ds.length ≤ 1 := by
  obtain ⟨ofLabel, ofBody, rfl, hofLabel, hofBody⟩ := h
  cases hofLabel with
  | none => cases hofBody <;> simp
  | one line label error range fails =>
    cases hofBody with
    | none => simp
    | one line' fails' => exact absurd ⟨fails, _, _, line', fails'⟩ hone

theorem labelAt_middle {done later : List (List Char)} {cs : List Char} {name : String} :
    LabelAt (done ++ cs :: later) done.length name ↔
      (Line.read cs).label?.map Text.Token.text = some name := by
  rw [LabelAt, ← Line.hasLabel_iff]
  simp

theorem not_labelFails_of_unlabelled {done later : List (List Char)} {cs : List Char}
    (h : (Line.read cs).label? = none) : ¬LabelFails o (done ++ cs :: later) done.length := by
  rintro ⟨name, hat, -⟩
  rw [labelAt_middle, h] at hat
  cases hat

end

/-! ## Reading one line

The label of a line is read first.  If it is refused, that is reported and the body is read all the
same, for errors are looked for between lines only.  A step from a state without errors therefore
ends with the errors of the line. -/

variable {o : Options} {done : List (List Char)} {cs : List Char} {s s' : Scan}

/-- Where there are labels, the ones that are refused are no label names or earlier labels. -/
theorem defineLabel_errors_of_aligned {limit : Int} (hdescribes : Describes o.base done s)
    (hbase : o.base % 4 = 0) (hlabels : LabelsOf done s)
    (h : s.defineLabel limit (Line.read cs) = some s') (later : List (List Char)) :
    ∃ added, s'.lines = s.lines ∧ s'.diagnostics.toList = s.diagnostics.toList ++ added ∧
      LabelErrors o (done ++ cs :: later) done.length added := by
  have haligned : s.address % 4 = 0 := by
    rw [hdescribes.address, Image.addressOf_mod_four, hbase]
  obtain ⟨defined, faults, hlines, -, hadded, hstep⟩ :=
    defineLabel_step hdescribes.unique haligned h
  refine ⟨faults, hlines, hadded, ?_⟩
  rw [hdescribes.lines] at hstep
  generalize hlabel : (Line.read cs).label? = label at hstep
  cases hstep with
  | unlabelled => exact .none (not_labelFails_of_unlabelled hlabel)
  | @defined name valid new =>
    -- none of the three reasons to refuse a label applies
    refine .none ?_
    rintro ⟨name', hat, hreason⟩
    rw [labelAt_middle, hlabel, Option.map_some, Option.some.injEq] at hat
    obtain rfl := hat
    rcases hreason with hinvalid | hodd | ⟨m, hm, hearlier⟩
    · rw [valid] at hinvalid
      cases hinvalid
    · exact hodd hbase
    · exact new ((hlabels.mem_firstIndex_iff hdescribes valid).mpr
        ⟨m, (labelAt_append_left hm).mp hearlier⟩)
  | @refused name old =>
    refine .one (by simp) hlabel ?_ (range_labelFault name _) ⟨name.text, ?_, ?_⟩
    · rw [labelFault]
      split <;> rfl
    · rw [labelAt_middle, hlabel, Option.map_some]
    · cases hvalid : Label.isValid name.text with
      | false => exact .inl rfl
      | true =>
        obtain ⟨m, hm⟩ := (hlabels.mem_firstIndex_iff hdescribes hvalid).mp (old hvalid)
        exact .inr (.inr ⟨m, hm.lt, (labelAt_append_left hm.lt).mpr hm⟩)

/-- Where no address can be that of a word, every label is refused. -/
theorem defineLabel_errors_of_misaligned {limit : Int} (hdescribes : Describes o.base done s)
    (hbase : o.base % 4 ≠ 0) (h : s.defineLabel limit (Line.read cs) = some s')
    (later : List (List Char)) :
    ∃ added, s'.lines = s.lines ∧ s'.diagnostics.toList = s.diagnostics.toList ++ added ∧
      LabelErrors o (done ++ cs :: later) done.length added := by
  obtain ⟨hnone, rfl⟩ | ⟨name, table, -, -, hinsert, -⟩ |
    ⟨name, d, log, hlabel, herror, hrange, rfl⟩ := defineLabel_cases h
  · exact ⟨[], rfl, (List.append_nil _).symm, .none (not_labelFails_of_unlabelled hnone)⟩
  · obtain ⟨fault, -, hfault, -⟩ | ⟨hnone, -⟩ := SymbolTable.insert_cases hinsert
    · cases hfault
    · have haligned := (SymbolTable.insertFault?_eq_none hnone).1
      rw [hdescribes.address, Image.addressOf_mod_four] at haligned
      exact absurd haligned hbase
  · rw [hdescribes.lines] at hrange
    refine ⟨[d], rfl, Array.toList_push, .one (by simp) hlabel herror hrange ?_⟩
    exact ⟨name.text, by rw [labelAt_middle, hlabel, Option.map_some], .inr (.inl hbase)⟩

/-- **Reading a label** adds an error if it cannot be entered. -/
theorem defineLabel_errors {limit : Int} (hdescribes : Describes o.base done s)
    (hlabels : o.base % 4 = 0 → LabelsOf done s)
    (h : s.defineLabel limit (Line.read cs) = some s') (later : List (List Char)) :
    ∃ added, s'.lines = s.lines ∧ s'.diagnostics.toList = s.diagnostics.toList ++ added ∧
      LabelErrors o (done ++ cs :: later) done.length added := by
  by_cases hbase : o.base % 4 = 0
  · exact defineLabel_errors_of_aligned hdescribes hbase (hlabels hbase) h later
  · exact defineLabel_errors_of_misaligned hdescribes hbase h later

/-- **Of the body of a line**, an error is reported if its instruction cannot be expanded. -/
theorem bodyErrors_remarks {lines : List (List Char)} {n : Nat} (hcs : lines[n]? = some cs) :
    BodyErrors lines n (((Line.read cs).remarks n).filter Diagnostic.isError) := by
  have hfails : ∀ {i : Instruction}, (Line.read cs).instruction? = some i → BodyFails lines n →
      ∃ e, i.expand = .error e := by
    rintro i hi ⟨e, cs', hcs', j, hj, he⟩
    obtain rfl := Option.some.inj (hcs.symm.trans hcs')
    obtain rfl := Option.some.inj (hi.symm.trans hj)
    exact ⟨e, he⟩
  have hnone : (Line.read cs).instruction? = none → ¬BodyFails lines n := by
    rintro hi ⟨e, cs', hcs', j, hj, -⟩
    obtain rfl := Option.some.inj (hcs.symm.trans hcs')
    rw [hi] at hj
    cases hj
  rw [Line.remarks]
  split
  · -- without a token there is no instruction
    rename_i hl
    refine .none (hnone ?_)
    simp [Line.instruction?, hl, Instruction.ofTokens?]
  · rename_i first rest hl
    split
    · -- a directive is skipped, with a warning only
      rename_i hdirective
      refine .none (hnone ?_)
      simp [Line.instruction?, hl, Instruction.ofTokens?, Option.filter, hdirective]
    · rename_i hdirective
      have hi : (Line.read cs).instruction? =
          some { mnemonic := first.text, args := rest.map Text.Token.text } := by
        simp [Line.instruction?, hl, Instruction.ofTokens?, Option.filter, hdirective]
      split
      · rename_i e he
        exact .one hcs ⟨_, hi, he⟩
      · rename_i is his
        refine .none fun hbody ↦ ?_
        obtain ⟨e, he⟩ := hfails hi hbody
        rw [his] at he
        cases he

theorem hasErrors_eq_false_iff (s : Scan) :
    s.hasErrors = false ↔ s.diagnostics.toList.filter Diagnostic.isError = [] := by
  rw [hasErrors, ← Array.any_toList, List.any_eq_false, List.filter_eq_nil_iff]

/-- **Reading a line** after which there was no error so far: the errors are those of the line. -/
theorem readLine_errors (hdescribes : Describes o.base done s)
    (hlabels : o.base % 4 = 0 → LabelsOf done s) (hclean : s.hasErrors = false)
    (h : s.readLine o cs = some s') (later : List (List Char)) :
    ErrorsAt o (done ++ cs :: later) done.length
      (s'.diagnostics.toList.filter Diagnostic.isError) := by
  rw [readLine, if_neg (by simp [hclean]), Option.bind_eq_bind, Option.bind_eq_some_iff] at h
  obtain ⟨t, hdefine, hread⟩ := h
  obtain ⟨added, hlines, hadded, herrors⟩ := defineLabel_errors hdescribes hlabels hdefine
    later
  obtain ⟨log, hinstruction⟩ := readInstruction_eq t (Line.read cs)
  rw [hinstruction] at hread
  have hsum : s'.diagnostics.toList =
      s.diagnostics.toList ++ added ++ (Line.read cs).remarks done.length := by
    rw [← Option.some.inj hread, ← hadded, ← hdescribes.lines, ← hlines]
    exact Array.toList_append
  have hline : (done ++ cs :: later)[done.length]? = some cs := by simp
  refine ⟨added, _, ?_, herrors, bodyErrors_remarks hline⟩
  rw [hsum, List.filter_append, List.filter_append, (hasErrors_eq_false_iff s).mp hclean,
    herrors.filter_isError, List.nil_append]

/-! ## The first pass

By induction on the lines: as long as no line has failed there is no error, the line that fails
first puts its errors there, and no further line is read. -/

/-- **A first pass that stops** has no errors if no line fails, and else those of the first line
that does. -/
theorem ofLines_errors {labels : SymbolTable} {lines : List (List Char)}
    (hnew : SymbolTable.new o.tableLimit .unique = .ok labels)
    (hstop : o.stopOnFirstError = true) (h : ofLines o labels lines = some s) :
    s.hasErrors = false ∧ CleanBefore o lines lines.length ∨
      s.hasErrors = true ∧ ∃ n < lines.length, CleanBefore o lines n ∧
        ErrorsAt o lines n (s.diagnostics.toList.filter Diagnostic.isError) := by
  refine foldlM_induction (P := fun done (s : Scan) ↦
    s.hasErrors = false ∧ CleanBefore o lines done.length ∨
      s.hasErrors = true ∧ ∃ n < done.length, CleanBefore o lines n ∧
        ErrorsAt o lines n (s.diagnostics.toList.filter Diagnostic.isError)) ?_ h ?_
  · exact .inl ⟨by simp [hasErrors, start], fun m hm ↦ absurd hm (Nat.not_lt_zero m)⟩
  · rintro done cs s s' ⟨later, hlater⟩ hdone hbefore hstep
    rw [List.append_assoc, List.singleton_append] at hlater
    rw [List.length_append, List.length_singleton]
    -- either no line has failed so far, or the first that did is behind and no more lines are read
    rcases hbefore with ⟨hclean, hfine⟩ | ⟨herrors, n, hn, hrest⟩
    · obtain ⟨-, hdescribes, hend, -⟩ := ofLines_describes hnew hdone
      have hall : s.lines = done.length := hend.resolve_right fun hstopped ↦ by
        rw [hclean] at hstopped
        exact Bool.false_ne_true hstopped.2
      rw [hall, List.take_length] at hdescribes
      have hlabels : o.base % 4 = 0 → LabelsOf done s := by
        intro hbase
        have hread := LabelsOf.ofLines_take hnew hbase hdone
        rwa [hall, List.take_length] at hread
      have hat := readLine_errors hdescribes hlabels hclean hstep later
      rw [hlater] at hat
      cases herrors' : s'.hasErrors with
      | true => exact .inr ⟨rfl, done.length, Nat.lt_succ_self _, hfine, hat⟩
      | false =>
        refine .inl ⟨rfl, fun m hm ↦ ?_⟩
        rcases Nat.lt_or_eq_of_le (Nat.le_of_lt_succ hm) with hlt | rfl
        · exact hfine m hlt
        · -- a line that fails would have errors
          have hnothing := (hasErrors_eq_false_iff s').mp herrors'
          obtain ⟨ofLabel, ofBody, hsum, hofLabel, hofBody⟩ := hat
          rw [hnothing, eq_comm, List.append_eq_nil_iff] at hsum
          obtain ⟨rfl, rfl⟩ := hsum
          cases hofLabel with
          | none fine =>
            cases hofBody with
            | none fine' => exact ⟨fine, fine'⟩
    · rw [readLine, if_pos (by simp [hstop, herrors])] at hstep
      obtain rfl := Option.some.inj hstep
      exact .inr ⟨herrors, n, Nat.lt_succ_of_lt hn, hrest⟩

end Scan

/-! ## The second pass

Each line of the listing is one instruction with one outcome, so a pass that stops has at most one
diagnostic. -/

namespace Image

variable {o : Options} {source : Array (List Char)} {scan : Scan} {m m' : Image}

/-- Reading a line of the listing adds at most one diagnostic, which is an error. -/
theorem readLine_errors {cs : List Char} (h : m.readLine o source scan cs = some m') :
    m'.diagnostics = m.diagnostics ∨
      ∃ d : Diagnostic, d.isError = true ∧ m'.diagnostics = m.diagnostics.push d := by
  rw [readLine] at h
  split at h
  · exact .inl (Option.some.inj h ▸ rfl)
  · split at h
    · exact .inl (Option.some.inj h ▸ rfl)
    · rw [place] at h
      simp only at h
      split at h
      · exact .inl (Option.some.inj h ▸ rfl)
      · obtain rfl := Option.some.inj h
        exact .inr ⟨_, rfl, rfl⟩
      · cases h

/-- **A second pass that stops** has at most one diagnostic. -/
theorem ofListing_errors {relocations : SymbolTable} (hstop : o.stopOnFirstError = true)
    (h : ofListing o source scan relocations = some m) : m.diagnostics.size ≤ 1 := by
  refine (foldlM_induction (P := fun _ (m : Image) ↦ m.diagnostics.size ≤ 1 ∧
    (m.hasErrors = false → m.diagnostics.size = 0)) ?_ h ?_).1
  · exact ⟨Nat.zero_le _, fun _ ↦ rfl⟩
  · rintro _ cs m m' - - ⟨hone, hnone⟩ hstep
    cases herrors : m.hasErrors with
    | true =>
      rw [readLine_of_stopped ⟨hstop, herrors⟩] at hstep
      obtain rfl := Option.some.inj hstep
      exact ⟨hone, hnone⟩
    | false =>
      have hsize := hnone herrors
      rcases readLine_errors hstep with hsame | ⟨d, herror, hpush⟩
      · rw [hasErrors, hsame]
        exact ⟨hone, fun _ ↦ hsize⟩
      · have hone' : m'.diagnostics.size = 1 := by rw [hpush, Array.size_push, hsize]
        have herrors' : m'.hasErrors = true := by
          rw [hasErrors, hpush, Array.any_push, herror, Bool.or_true]
        exact ⟨Nat.le_of_eq hone', fun hno ↦ absurd (herrors'.symm.trans hno) (by decide)⟩

end Image

/-! ## Both passes

The second pass does not run after an error of the first.  So all errors of a run are those of one
line in the first pass, or the one of the second. -/

/-- **A run that stops reports the first failure.**  With the option to stop there is at most one
error, unless the first line that fails in the first pass fails twice: its label cannot be entered
and its instruction cannot be expanded.  Then there are two errors, both on that line, first that of
the label and then that of the instruction. -/
theorem stopping_reports_the_first_failure (o : Options) (source : String) (a : Assembly)
    (h : assemble o source = some a) (hstop : o.stopOnFirstError = true) :
    let lines := Text.splitLines source.toList
    let errors := a.diagnostics.toList.filter Diagnostic.isError
    ((∀ n, ¬Scan.FailsTwice o lines n) → errors.length ≤ 1) ∧
    ∀ n, Scan.FailsTwice o lines n →
      ∃ cs name i e d, lines[n]? = some cs ∧ (Line.read cs).label? = some name ∧
        (Line.read cs).instruction? = some i ∧ i.expand = .error e ∧ d.isError = true ∧
        d.range = Range.onLine n name.start name.stop ∧
        errors = [d, .ofError e ((Line.read cs).errorRange n e)] := by
  intro lines errors
  obtain ⟨labels, relocations, hlabels, -, -, hscan, hpass⟩ := assemble_cases h
  have hsum : errors = a.scan.diagnostics.toList.filter Diagnostic.isError ++
      a.image.diagnostics.toList.filter Diagnostic.isError := by
    rw [← List.filter_append, ← Array.toList_append]
    rfl
  rcases Scan.ofLines_errors hlabels hstop hscan with
    ⟨hclean, hfine⟩ | ⟨herrors, m, -, hbefore, hat⟩
  · -- the first pass has no errors, so that all are of the second
    obtain ⟨-, hrun⟩ := hpass.resolve_left fun hstopped ↦ by
      rw [hclean] at hstopped
      exact Bool.false_ne_true hstopped.1.2
    rw [(Scan.hasErrors_eq_false_iff a.scan).mp hclean, List.nil_append] at hsum
    refine ⟨fun _ ↦ ?_, fun n htwice ↦ ?_⟩
    · rw [hsum]
      exact Nat.le_trans (List.length_filter_le _ _)
        (Nat.le_trans (Nat.le_of_eq Array.length_toList) (Image.ofListing_errors hstop hrun))
    · obtain ⟨-, ⟨name, hlabel, hreason⟩, -⟩ := htwice
      exact absurd ⟨name, hlabel, hreason⟩ (hfine n hlabel.lt).1
  · -- the second pass does not begin
    obtain ⟨-, hnothing⟩ := hpass.resolve_right fun hrun ↦ hrun.1 ⟨hstop, herrors⟩
    have hsame : errors = a.scan.diagnostics.toList.filter Diagnostic.isError := by
      rw [hsum, hnothing]
      exact List.append_nil _
    rw [← hsame] at hat
    refine ⟨fun honce ↦ ?_, fun n htwice ↦ ?_⟩
    · exact hat.length_le_one fun hboth ↦ honce m ⟨hbefore, hboth⟩
    · obtain ⟨hcleanBefore, hlabelFails, hbodyFails⟩ := htwice
      obtain rfl : m = n := by
        rcases Nat.lt_trichotomy m n with hlt | heq | hgt
        · -- line `m` would have no errors
          have hnil := hat.eq_nil (hcleanBefore m hlt).1 (hcleanBefore m hlt).2
          rw [hsame, ← Scan.hasErrors_eq_false_iff, herrors] at hnil
          cases hnil
        · exact heq
        · exact absurd hlabelFails (hbefore n hgt).1
      obtain ⟨ofLabel, ofBody, hsplit, hofLabel, hofBody⟩ := hat
      cases hofLabel with
      | none fine => exact absurd hlabelFails fine
      | @one cs name d line label error range fails =>
        cases hofBody with
        | none fine => exact absurd hbodyFails fine
        | @one cs' e line' fails' =>
          obtain rfl := Option.some.inj (line.symm.trans line')
          obtain ⟨i, hi, hexpand⟩ := fails'
          exact ⟨cs, name, i, e, d, line, label, hi, hexpand, error, range, hsplit⟩

/-- The label of the only line is no label name, and its pseudo-instruction has too few operands:
stopping after the first error leaves two. -/
theorem two_errors_on_one_line :
    ¬∀ (o : Options) (source : String) (a : Assembly), assemble o source = some a →
      o.stopOnFirstError = true →
      (a.diagnostics.toList.filter Diagnostic.isError).length ≤ 1 := by
  intro hone
  have hrun : (assemble { stopOnFirstError := true } "9bad: li $t0").map
      (fun a ↦ (a.diagnostics.toList.filter Diagnostic.isError).length) = some 2 := by
    decide +kernel
  obtain ⟨a, ha, hlength⟩ := Option.map_eq_some_iff.mp hrun
  exact absurd (hone _ _ a ha rfl) (by omega)

/-- Line 1 repeats the label of a line that only the second pass refuses, and its pseudo-instruction
has too few operands. -/
theorem stopping_reports_the_first_failure_of_repeated_label :
    ∃ a, assemble { stopOnFirstError := true } "x: foo\nx: li $t0\nli" = some a ∧
      Scan.FailsTwice { stopOnFirstError := true }
        ["x: foo".toList, "x: li $t0".toList, "li".toList]
        1 ∧
      ∃ e d, d.isError = true ∧ d.range = Range.onLine 1 0 1 ∧ e.kind = .invalidArgumentCount ∧
        a.diagnostics.toList.filter Diagnostic.isError =
          [d, .ofError e ((Line.read "x: li $t0".toList).errorRange 1 e)] := by
  have hsome : (assemble { stopOnFirstError := true } "x: foo\nx: li $t0\nli").isSome = true := by
    decide +kernel
  have hsplit : Text.splitLines "x: foo\nx: li $t0\nli".toList =
      ["x: foo".toList, "x: li $t0".toList, "li".toList] := by
    decide
  have hlabel : (Line.read "x: foo".toList).label? = some ⟨"x", 0⟩ := by decide +kernel
  have hlabel' : (Line.read "x: li $t0".toList).label? = some ⟨"x", 0⟩ := by decide +kernel
  have hfine : (Line.read "x: foo".toList).instruction?.map Instruction.expand =
      some (.ok [⟨"foo", []⟩]) := by
    decide +kernel
  have hfails : (Line.read "x: li $t0".toList).instruction? = some ⟨"li", ["$t0"]⟩ := by
    decide +kernel
  have hexpand : (⟨"li", ["$t0"]⟩ : Instruction).expand =
      .error ⟨.invalidArgumentCount, "li", "2 arguments"⟩ := by
    decide +kernel
  have htwice : Scan.FailsTwice { stopOnFirstError := true }
      ["x: foo".toList, "x: li $t0".toList, "li".toList] 1 := by
    refine ⟨fun m hm ↦ ?_, ⟨"x", ⟨_, rfl, ?_⟩, .inr (.inr ⟨0, by decide, _, rfl, ?_⟩)⟩,
      _, _, rfl, _, hfails, hexpand⟩
    · obtain rfl := Nat.lt_one_iff.mp hm
      refine ⟨?_, ?_⟩
      · rintro ⟨name, ⟨cs, hcs, hname⟩, hreason⟩
        obtain rfl := Option.some.inj hcs
        rw [Line.hasLabel_iff, hlabel] at hname
        obtain rfl := Option.some.inj hname
        rcases hreason with hinvalid | hbase | ⟨m, hm, -⟩
        · exact absurd hinvalid (by decide)
        · exact hbase rfl
        · exact absurd hm (Nat.not_lt_zero m)
      · rintro ⟨e, cs, hcs, i, hi, he⟩
        obtain rfl := Option.some.inj hcs
        rw [hi, Option.map_some, he] at hfine
        cases hfine
    · rw [Line.hasLabel_iff, hlabel']
      rfl
    · rw [Line.hasLabel_iff, hlabel]
      rfl
  obtain ⟨a, ha⟩ := Option.isSome_iff_exists.mp hsome
  obtain ⟨cs, name, i, e, d, hcs, hname, hi, he, herror, hrange, hboth⟩ :=
    (stopping_reports_the_first_failure _ _ a ha rfl).2 1 (by rwa [hsplit])
  rw [hsplit] at hcs
  obtain rfl := Option.some.inj hcs
  obtain rfl := Option.some.inj (hlabel'.symm.trans hname)
  obtain rfl := Option.some.inj (hfails.symm.trans hi)
  obtain rfl := Except.error.inj (hexpand.symm.trans he)
  exact ⟨a, ha, htwice, _, d, herror, hrange, rfl, hboth⟩

end MipsAsm
