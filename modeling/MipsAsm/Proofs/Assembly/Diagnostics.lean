import MipsAsm.Proofs.Assembly.Labels
import MipsAsm.Proofs.Text.Slices

/-!
# What diagnostics span

The range of a diagnostic is computed in one of three ways: from the label of a line, from its first
token, or by a search for the text that caused an error.  Here the three are put side by side: the
range is always a slice of the line before its comment, and the slice is the text that the
diagnostic names.

A range that is one byte off would go unnoticed in most editors, and it is a promise about bytes: of
the line as it is written, with its margins and with characters of more than one byte.  So the range
is stated as a slice, which exists only if both ends are offsets that the line has, and the text in
the slice is compared with what the message names.

Which text that is depends on the diagnostic.  For a label or a directive the text is known, and
stands where it was found.  For an error of an instruction it is searched for in the body of the
line, and it need not be there: an instruction with a wrong number of operands is rejected with the
form that it should have had.  Then the whole body is marked.

The statement has the rejections of both passes as relations, so that a diagnostic is tied to the
error it was made from, and not only to some text of the line.

* `Line.sliced` — where a line is divided, it is divided at offsets that it has.
* `Diagnostic.Spans`, `Diagnostic.About` — the slice of a diagnostic, and what it is to name a text.
* `Line.about_errorRange` — the range of an error is the text that caused it, or the body.
* `Scan.ofLines_located`, `Assembly.located_of_mem_image` — the diagnostics of either pass.
* `Assembly.Rejects` — the errors of expansions and encodings, each with its source line.
* `diagnostics_span_what_they_name` — the result.
-/

set_option autoImplicit false

namespace MipsAsm

/-! ## The parts of a line

A line is divided three times: its comment is cut off, then it is divided at its first colon, and
the rest is cut into tokens.  `Text.HasAt` follows a part through these steps, with the byte at
which it begins in the code of the line. -/

namespace Line

variable {cs before rest : List Char}

theorem exists_splits_or_not_mem (cs : List Char) :
    (∃ before rest, Splits cs before rest) ∨ ':' ∉ code cs := by
  by_cases hcolon : ':' ∈ code cs
  · obtain ⟨before, rest, hsplit, hbefore⟩ := List.eq_append_cons_of_mem hcolon
    exact .inl ⟨before, rest, hsplit, hbefore⟩
  · exact .inr hcolon

/-- The body of a line is the last part of its code. -/
theorem hasAt_body (cs : List Char) :
    Text.HasAt (code cs) (read cs).bodyStart (read cs).body ∧
      (read cs).bodyStart + Text.byteLength (read cs).body = Text.byteLength (code cs) := by
  obtain ⟨before, rest, hsplits⟩ | hcolon := exists_splits_or_not_mem cs
  · have hcode : code cs = before ++ ':' :: rest := hsplits.1
    have hlength : Text.byteLength (before ++ [':']) = Text.byteLength before + 1 := by
      rw [Text.byteLength_append]
      rfl
    rw [read_of_splits hsplits, hcode]
    refine ⟨⟨before ++ [':'], [], by simp, hlength.symm⟩, ?_⟩
    rw [← hlength, ← Text.byteLength_append, List.append_assoc, List.singleton_append]
  · rw [read_of_not_mem hcolon, unlabelled]
    exact ⟨⟨[], [], by simp, rfl⟩, Nat.zero_add _⟩

theorem hasAt_before (h : Splits cs before rest) : Text.HasAt (code cs) 0 before :=
  ⟨[], ':' :: rest, h.1, rfl⟩

/-- The label of a line, without margins, is a part of its code. -/
theorem hasAt_label (h : Splits cs before rest) :
    Text.HasAt (code cs) (Text.byteLength (before.takeWhile isMargin))
      (Text.trim isMargin before) := by
  have hat := (hasAt_before h).trans (Text.hasAt_trim isMargin before)
  rwa [Nat.zero_add] at hat

theorem hasAt_trimmedBody (cs : List Char) :
    Text.HasAt (code cs) (read cs).trimmedBody.start (Text.trim isMargin (read cs).body) :=
  (hasAt_body cs).1.trans (Text.hasAt_trim isMargin (read cs).body)

theorem hasAt_of_mem_tokens {t : Text.Token} (h : t ∈ (read cs).tokens) :
    Text.HasAt (code cs) t.start t.text.toList := by
  obtain ⟨offset, hstart, hat⟩ := Text.hasAt_of_mem_tokens h
  rw [hstart]
  exact (hasAt_body cs).1.trans hat

/-- A line is divided at offsets that it has: the comment, the label, the body and the tokens. -/
structure Sliced (cs : List Char) : Prop where
  /-- What stands before the comment. -/
  code : Text.IsSlice cs 0 (Text.byteLength (code cs)) (code cs)
  /-- What stands before the first colon. -/
  label : ∀ before rest, Splits cs before rest →
    Text.IsSlice (Line.code cs) 0 (Text.byteLength before) before
  /-- What stands after it. -/
  body : Text.IsSlice (Line.code cs) (read cs).bodyStart (Text.byteLength (Line.code cs))
    (read cs).body
  /-- The tokens of the body. -/
  tokens : ∀ t ∈ (read cs).tokens,
    Text.IsSlice (Line.code cs) t.start t.stop t.text.toList

/-- **Lines are divided at offsets that they have.** -/
theorem sliced (cs : List Char) : Sliced cs := by
  refine ⟨?_, fun before rest h ↦ ?_, ?_, fun t ht ↦ ?_⟩
  · have hat : Text.HasAt cs 0 (Line.code cs) :=
      ⟨[], cs.dropWhile (· != '#'), List.takeWhile_append_dropWhile.symm, rfl⟩
    have hslice := hat.isSlice
    rwa [Nat.zero_add] at hslice
  · have hslice := (hasAt_before h).isSlice
    rwa [Nat.zero_add] at hslice
  · obtain ⟨hat, hstop⟩ := hasAt_body cs
    rw [← hstop]
    exact hat.isSlice
  · rw [t.stop_eq]
    exact (hasAt_of_mem_tokens ht).isSlice

end Line

/-! ## Diagnostics and the texts that they name

`Diagnostic.About` has one case for each way in which a diagnostic comes about, with the text that
it is about.  It does not say where the text is: that is `Diagnostic.Spans`.  The errors that a
table or an instruction may give are parameters, since what they are is known only where the passes
are. -/

namespace Diagnostic

/-- The range of a diagnostic is the slice of the code of a line that holds `text`. -/
def Spans (d : Diagnostic) (number : Nat) (cs text : List Char) : Prop :=
  ∃ start stop, d.range = Range.onLine number start stop ∧
    Text.IsSlice (Line.code cs) start stop text

/-- A diagnostic about a line names a text.  The table of labels refuses labels for the errors that
`Refused` says, and the instructions that the line stands for are rejected for those that `Rejected`
says. -/
inductive About (cs : List Char) (Refused : String → Error → Prop) (Rejected : Error → Prop) :
    Diagnostic → List Char → Prop
  /-- The label is no label name: the diagnostic names the label without margins. -/
  | labelName {before rest : List Char} {range : Range} (splits : Line.Splits cs before rest)
      (invalid : Label.isValid (String.ofList (Text.trim Line.isMargin before)) = false) :
      About cs Refused Rejected
        (.invalidSymbolName (String.ofList (Text.trim Line.isMargin before)) range)
        (Text.trim Line.isMargin before)
  /-- The label is refused: the diagnostic names the label without margins. -/
  | label {before rest : List Char} {e : Error} {range : Range}
      (splits : Line.Splits cs before rest)
      (refused : Refused (String.ofList (Text.trim Line.isMargin before)) e) :
      About cs Refused Rejected
        (Scan.labelDiagnostic (String.ofList (Text.trim Line.isMargin before)) e range)
        (Text.trim Line.isMargin before)
  /-- The first token is a directive: the diagnostic names the token. -/
  | directive {token : Text.Token} {range : Range}
      (first : (Line.read cs).tokens.head? = some token)
      (directive : Scan.isDirective token.text = true) :
      About cs Refused Rejected (.ignoredDirective token.text range) token.text.toList
  /-- The body has the text that caused an error: the diagnostic names that text. -/
  | construct {e : Error} {range : Range} (rejected : Rejected e) (nonempty : e.construct ≠ "")
      (occurs : e.construct.toList <:+: (Line.read cs).body) :
      About cs Refused Rejected (.ofError e range) e.construct.toList
  /-- The body does not have it, or no text caused the error: the diagnostic names the body without
  margins. -/
  | body {e : Error} {range : Range} (rejected : Rejected e)
      (absent : e.construct = "" ∨ ¬e.construct.toList <:+: (Line.read cs).body) :
      About cs Refused Rejected (.ofError e range) (Text.trim Line.isMargin (Line.read cs).body)

variable {cs text : List Char} {d : Diagnostic} {number : Nat}

theorem Spans.start_line (h : d.Spans number cs text) : d.range.start.line = number := by
  obtain ⟨start, stop, hrange, -⟩ := h
  rw [hrange]
  rfl

theorem About.mono {Refused Refused' : String → Error → Prop} {Rejected Rejected' : Error → Prop}
    (h : About cs Refused Rejected d text) (hrefused : ∀ name e, Refused name e → Refused' name e)
    (hrejected : ∀ e, Rejected e → Rejected' e) : About cs Refused' Rejected' d text := by
  cases h with
  | labelName splits invalid => exact .labelName splits invalid
  | label splits refused => exact .label splits (hrefused _ _ refused)
  | directive first directive => exact .directive first directive
  | construct rejected nonempty occurs => exact .construct (hrejected _ rejected) nonempty occurs
  | body rejected absent => exact .body (hrejected _ rejected) absent

/-- A diagnostic stands on one of the given lines and spans the text that it names there. -/
def Located (lines : List (List Char)) (Refused : Nat → String → Error → Prop)
    (Rejected : Nat → Error → Prop) (d : Diagnostic) : Prop :=
  ∃ n cs text, lines[n]? = some cs ∧ d.Spans n cs text ∧ d.About cs (Refused n) (Rejected n) text

end Diagnostic

namespace Line

variable {cs : List Char} {Refused : String → Error → Prop} {Rejected : Error → Prop}

/-- The instruction of a line cannot be expanded. -/
def Unexpandable (l : Line) (e : Error) : Prop :=
  ∃ i, l.instruction? = some i ∧ i.expand = .error e

/-- The range of an error whose cause the body does not have is that of the body. -/
theorem errorRange_of_absent {l : Line} {e : Error}
    (h : e.construct = "" ∨ ¬e.construct.toList <:+: l.body) (number : Nat) :
    l.errorRange number e = l.bodyRange number := by
  rw [errorRange]
  split
  · rfl
  · rename_i hne
    rw [Text.find?_eq_none_iff.mpr (h.resolve_left hne)]

/-- The range of an error whose cause the body has is the first place where it does. -/
theorem errorRange_of_infix {l : Line} {e : Error} (hne : e.construct ≠ "")
    (h : e.construct.toList <:+: l.body) (number : Nat) :
    ∃ start, Text.find? e.construct.toList l.bodyStart l.body = some start ∧
      l.errorRange number e = Range.onLine number start (start + e.construct.utf8ByteSize) := by
  have hfound : (Text.find? e.construct.toList l.bodyStart l.body).isSome = true := by
    rw [Option.isSome_iff_ne_none]
    exact fun hnone ↦ Text.find?_eq_none_iff.mp hnone h
  obtain ⟨start, hstart⟩ := Option.isSome_iff_exists.mp hfound
  exact ⟨start, hstart, by rw [errorRange, if_neg hne, hstart]⟩

/-- **The range of an error** is the text that caused it where the body has that, and the body
otherwise. -/
theorem about_errorRange {e : Error} (he : Rejected e) (cs : List Char) (number : Nat) :
    let d := Diagnostic.ofError e ((read cs).errorRange number e)
    ∃ text, d.Spans number cs text ∧ d.About cs Refused Rejected text := by
  intro d
  by_cases h : e.construct ≠ "" ∧ e.construct.toList <:+: (read cs).body
  · obtain ⟨start, hstart, hrange⟩ := errorRange_of_infix h.1 h.2 number
    refine ⟨e.construct.toList, ⟨start, _, hrange, ?_⟩, .construct he h.1 h.2⟩
    obtain ⟨offset, rfl, hat⟩ := Text.hasAt_of_find? hstart
    rw [← Text.byteLength_toList]
    exact ((hasAt_body cs).1.trans hat).isSlice
  · rw [not_and_or, not_not] at h
    refine ⟨_, ⟨_, _, errorRange_of_absent h number, ?_⟩, .body he h⟩
    rw [Text.Token.stop_eq, trimmedBody, String.toList_ofList]
    exact (hasAt_trimmedBody cs).isSlice

/-- **What is said of the body of a line** names its directive, or the error for which its
instruction cannot be expanded. -/
theorem about_of_mem_remarks {number : Nat} {d : Diagnostic}
    (h : d ∈ (read cs).remarks number) :
    ∃ text, d.Spans number cs text ∧ d.About cs Refused (read cs).Unexpandable text := by
  rw [remarks] at h
  split at h
  · cases h
  · rename_i first rest hl
    have hfirst : first ∈ (read cs).tokens := hl ▸ List.mem_cons_self
    split at h
    · rename_i hdirective
      rw [List.mem_singleton.mp h]
      refine ⟨_, ⟨first.start, first.stop, rfl, (sliced cs).tokens first hfirst⟩, ?_⟩
      exact .directive (by rw [hl, List.head?_cons]) hdirective
    · rename_i hdirective
      split at h
      · rename_i e hexpand
        rw [List.mem_singleton.mp h]
        refine about_errorRange ⟨_, ?_, hexpand⟩ cs number
        simp [instruction?, hl, Instruction.ofTokens?, Option.filter, hdirective]
      · cases h

end Line

/-! ## The first pass

The diagnostics of a line are added at the end, so those of the whole pass come in the order of the
lines.  The table of labels refuses a label in the state in which the pass comes to it, which is the
state that `Scan.Refuses` speaks of. -/

namespace Scan

variable {o : Options} {lines : List (List Char)} {s s' : Scan} {cs : List Char}

/-- The table of labels refuses a label name. -/
def RefusesLabel (limit : Int) (s : Scan) (name : String) (e : Error) : Prop :=
  Label.isValid name = true ∧
    (s.labels.insert limit name s.address).2 = .error (.rejected e)

/-- The table of labels refuses a label name when the first pass comes to a line. -/
def Refuses (o : Options) (lines : List (List Char)) (number : Nat) (name : String) (e : Error) :
    Prop :=
  ∃ s, ofLines o (.empty .unique) (lines.take number) = some s ∧
    s.RefusesLabel o.tableLimit name e

/-- Reading a label adds diagnostics that span the label. -/
theorem defineLabel_adds {limit : Int} (h : s.defineLabel limit (Line.read cs) = some s')
    (Rejected : Error → Prop) :
    s'.lines = s.lines ∧ ∃ added, s'.diagnostics.toList = s.diagnostics.toList ++ added ∧
      ∀ d ∈ added, ∃ text, d.Spans s.lines cs text ∧
        d.About cs (s.RefusesLabel limit) Rejected text := by
  rw [defineLabel] at h
  split at h
  · obtain rfl := Option.some.inj h
    exact ⟨rfl, [], (List.append_nil _).symm, fun d hd ↦ absurd hd List.not_mem_nil⟩
  · rename_i name hlabel
    obtain ⟨before, rest, hsplits⟩ := Line.exists_splits hlabel
    rw [Line.label?_of_splits hsplits] at hlabel
    obtain rfl := Option.some.inj hlabel
    have hslice : Text.IsSlice (Line.code cs) _ _ _ := (Line.hasAt_label hsplits).isSlice
    rw [Text.byteLength_eq (Text.trim Line.isMargin before)] at hslice
    split at h
    · rename_i hvalid
      split at h
      · obtain rfl := Option.some.inj h
        exact ⟨rfl, [], (List.append_nil _).symm, fun d hd ↦ absurd hd List.not_mem_nil⟩
      · rename_i labels e hinsert
        obtain rfl := Option.some.inj h
        refine ⟨rfl, _, Array.toList_push, fun d hd ↦ ?_⟩
        rw [List.mem_singleton.mp hd]
        refine ⟨_, ⟨_, _, ?_, hslice⟩, .label hsplits ⟨hvalid, by rw [hinsert]⟩⟩
        rw [labelDiagnostic]
        split <;> rfl
      · cases h
    · rename_i hvalid
      obtain rfl := Option.some.inj h
      refine ⟨rfl, _, Array.toList_push, fun d hd ↦ ?_⟩
      rw [List.mem_singleton.mp hd]
      exact ⟨_, ⟨_, _, rfl, hslice⟩, .labelName hsplits (Bool.eq_false_iff.mpr hvalid)⟩

/-- **Reading a line** adds diagnostics that span what they name on it. -/
theorem readLine_adds (hgo : ¬(o.stopOnFirstError = true ∧ s.hasErrors = true))
    (h : s.readLine o cs = some s') :
    s'.lines = s.lines + 1 ∧ ∃ added, s'.diagnostics.toList = s.diagnostics.toList ++ added ∧
      ∀ d ∈ added, ∃ text, d.Spans s.lines cs text ∧
        d.About cs (s.RefusesLabel o.tableLimit) (Line.read cs).Unexpandable text := by
  rw [← Bool.and_eq_true] at hgo
  rw [readLine, if_neg hgo, Option.bind_eq_bind, Option.bind_eq_some_iff] at h
  obtain ⟨t, hdefine, hread⟩ := h
  obtain ⟨hlines, added, hadded, habout⟩ :=
    defineLabel_adds hdefine (Line.read cs).Unexpandable
  obtain ⟨log, hinstruction⟩ := readInstruction_eq t (Line.read cs)
  rw [hinstruction] at hread
  obtain rfl := Option.some.inj hread
  refine ⟨by rw [← hlines], added ++ (Line.read cs).remarks s.lines, ?_, fun d hd ↦ ?_⟩
  · simp [hadded, hlines]
  · rcases List.mem_append.mp hd with hd | hd
    · exact habout d hd
    · exact Line.about_of_mem_remarks hd

/-- The instruction of one of the given lines cannot be expanded. -/
def Unexpandable (lines : List (List Char)) (number : Nat) (e : Error) : Prop :=
  ∃ cs, lines[number]? = some cs ∧ (Line.read cs).Unexpandable e

/-- **The diagnostics of the first pass** span what they name on the lines that it has read, and
come in the order of these lines. -/
theorem ofLines_located (hnew : SymbolTable.new o.tableLimit .unique = .ok (.empty .unique))
    (h : ofLines o (.empty .unique) lines = some s) :
    s.diagnostics.toList.Pairwise (·.range.start.line ≤ ·.range.start.line) ∧
      ∀ d ∈ s.diagnostics.toList, d.range.start.line < s.lines ∧
        d.Located lines (Refuses o lines) (Unexpandable lines) := by
  refine foldlM_induction (P := fun _ s ↦
    s.diagnostics.toList.Pairwise (·.range.start.line ≤ ·.range.start.line) ∧
      ∀ d ∈ s.diagnostics.toList, d.range.start.line < s.lines ∧
        d.Located lines (Refuses o lines) (Unexpandable lines)) ?_ h ?_
  · exact ⟨.nil, fun d hd ↦ absurd hd List.not_mem_nil⟩
  · rintro done cs s s' ⟨later, hlater⟩ hdone ⟨hsorted, hlocated⟩ hstep
    obtain ⟨-, hdescribes, hend, -⟩ := ofLines_describes hnew hdone
    obtain ⟨-, rfl⟩ | ⟨hgo, -⟩ := hdescribes.readLine hstep
    · exact ⟨hsorted, hlocated⟩
    · -- the pass has not stopped, so that it has read all lines so far and this is the next
      have hall : s.lines = done.length := hend.resolve_right hgo
      have hline : lines[s.lines]? = some cs := by
        rw [hall, ← hlater, List.append_assoc, List.getElem?_append_right (Nat.le_refl _)]
        simp
      have htake : lines.take s.lines = done := by
        rw [hall, ← hlater, List.append_assoc, List.take_left]
      obtain ⟨hlines, added, hadded, habout⟩ := readLine_adds hgo hstep
      have hnew : ∀ d ∈ added, d.range.start.line = s.lines := by
        intro d hd
        obtain ⟨text, hspans, -⟩ := habout d hd
        exact hspans.start_line
      rw [hadded, hlines]
      refine ⟨List.pairwise_append.mpr ⟨hsorted, ?_, ?_⟩, fun d hd ↦ ?_⟩
      · refine List.pairwise_of_forall_mem_list fun d hd d' hd' ↦ ?_
        exact Int.le_of_eq ((hnew d hd).trans (hnew d' hd').symm)
      · intro d hd d' hd'
        rw [hnew d' hd']
        exact Int.le_of_lt (hlocated d hd).1
      · rcases List.mem_append.mp hd with hd | hd
        · refine ⟨Int.lt_trans (hlocated d hd).1 ?_, (hlocated d hd).2⟩
          omega
        · obtain ⟨text, hspans, habout⟩ := habout d hd
          refine ⟨by rw [hnew d hd]; omega, s.lines, cs, text, hline, hspans, habout.mono ?_ ?_⟩
          · exact fun name e hrefused ↦ ⟨s, htake.symm ▸ hdone, hrefused⟩
          · exact fun e hfails ↦ ⟨cs, hline, hfails⟩

end Scan

/-! ## The second pass

The second pass has a line of the listing before it and goes back to the source line that it comes
from.  An error names an operand of the instruction in the listing.  That need not be a part of the
source line, for instance if the instruction is one that a pseudo-instruction stands for, and then
the whole body of the line is spanned. -/

/-- An instruction of a source line is rejected, and what for. -/
inductive Assembly.Rejects (o : Options) (a : Assembly) (number : Nat) (e : Error) : Prop
  /-- The instruction of a line that was read cannot be expanded. -/
  | expansion {cs : List Char} {i : Instruction} (read : number < a.scan.lines)
      (line : a.source[number]? = some cs) (instruction : (Line.read cs).instruction? = some i)
      (rejected : i.expand = .error e)
  /-- A line of the listing that comes from the source line and was read cannot be encoded. -/
  | encoding {k : Nat} {m : Image} {i : Instruction} (read : k < a.image.read)
      (origin : a.scan.origins[k]? = some number) (before : a.imageAfter o k = some m)
      (instruction : a.instructionAt? k = some i)
      (rejected : (i.encode o.tableLimit (Image.addressOf o.base k)
        { symbols := some a.labels, relocations := some m.relocations }).2 =
          .error (.rejected e))

namespace Assembly

variable {o : Options} {source : String} {a : Assembly} {lines : List (List Char)} {k : Nat}
  {d : Diagnostic}

namespace Describes

theorem getElem?_source (h : a.Describes o lines) (number : Nat) :
    a.source[number]? = lines[number]? := by
  rw [← Array.getElem?_toList, h.source]

/-- A line of the listing comes from a source line, whose instruction stands for that of the
listing. -/
theorem exists_origin (h : a.Describes o lines) {entry : Nat × Instruction}
    (hentry : a.entries[k]? = some entry) :
    a.scan.origins[k]? = some entry.1 ∧
      ∃ cs i is, lines[entry.1]? = some cs ∧ (Line.read cs).instruction? = some i ∧
        i.Tokenized ∧ i.expand = .ok is ∧ entry.2 ∈ is := by
  refine ⟨?_, ?_⟩
  · rw [← Array.getElem?_toList, h.origins, List.getElem?_map, hentry, Option.map_some]
  · have hmem := List.mem_of_getElem? hentry
    rw [h.entries_eq] at hmem
    obtain ⟨cs, hcs, hexpansion⟩ := mem_expandLines.mp hmem
    obtain ⟨i, is, hi, his, hmem⟩ := Line.mem_expansion.mp hexpansion
    have htokenized := Instruction.tokenized_of_instruction?
      (h.lineFeed cs (List.mem_of_getElem? hcs)) hi
    refine ⟨cs, i, is, ?_, hi, htokenized, his, hmem⟩
    rw [List.getElem?_take] at hcs
    split at hcs
    · exact hcs
    · cases hcs

/-- The diagnostics of the second pass come in the order of the source lines. -/
theorem image_diagnostics_sorted (h : a.Describes o lines) :
    a.image.diagnostics.toList.Pairwise (·.range.start.line ≤ ·.range.start.line) := by
  have hsorted := expandLines_sorted (lines.take a.scan.lines)
  rw [← h.entries_eq, List.pairwise_map] at hsorted
  have htaken := hsorted.sublist (List.take_sublist a.image.read a.entries)
  rw [← List.zipIdx_map_fst 0 (a.entries.take a.image.read), List.pairwise_map] at htaken
  rw [h.image.diagnostics, List.pairwise_filterMap]
  refine htaken.imp fun hle d hd d' hd' ↦ ?_
  rw [(Image.error_of_diagnostic? hd).2, (Image.error_of_diagnostic? hd').2]
  exact Int.ofNat_le.mpr hle

end Describes

/-- What becomes of a line of the listing that the second pass has read: it has a word, or there is
a diagnostic of why it has none. -/
theorem encodes_or_rejects (h : assemble o source = some a) (hk : k < a.image.read)
    {number : Nat} {cs : List Char} {i : Instruction} (horigin : a.scan.origins[k]? = some number)
    (hcs : a.source[number]? = some cs) (hi : a.instructionAt? k = some i) :
    (∃ w, a.Encodes o k w ∧ Image.outcome o a.labels k i = .ok w) ∨
      ∃ e, Image.outcome o a.labels k i = .error (.rejected e) ∧ a.Rejects o number e ∧
        .ofError e ((Line.read cs).errorRange number e) ∈ a.image.diagnostics := by
  have hdescribes := assemble_describes h
  rw [hdescribes.instructionAt?_eq, Option.map_eq_some_iff] at hi
  obtain ⟨entry, hentry, rfl⟩ := hi
  have hinstruction : a.instructionAt? k = some entry.2.reread := by
    rw [hdescribes.instructionAt?_eq, hentry, Option.map_some]
  obtain rfl : entry.1 = number :=
    Option.some.inj ((hdescribes.exists_origin hentry).1.symm.trans horigin)
  cases houtcome : Image.outcome o a.labels k entry.2.reread with
  | ok w =>
    refine .inl ⟨w, (encodes_iff h).mpr ⟨hk, ?_⟩, rfl⟩
    rw [wordAt?, hinstruction, Option.bind_some, houtcome]
    rfl
  | error fault =>
    cases fault with
    | outOfMemory => exact absurd houtcome (Image.outcome_ne_outOfMemory o a.labels k _)
    | rejected e =>
      obtain ⟨m, hm, hencode⟩ := exists_encode_of_lt h hk hentry
      refine .inr ⟨e, rfl, .encoding hk horigin hm hinstruction (hencode.trans houtcome), ?_⟩
      refine hdescribes.mem_image_diagnostics.mpr ⟨k, hk, entry, hentry, ?_⟩
      rw [Image.diagnostic?, houtcome, hcs]
      rfl

theorem located_of_mem_scan (h : assemble o source = some a) (hd : d ∈ a.scan.diagnostics) :
    let lines := Text.splitLines source.toList
    d.Located lines (Scan.Refuses o lines) (a.Rejects o) := by
  intro lines
  obtain ⟨labels, -, hnew, -, -, hscan, -⟩ := assemble_cases h
  obtain rfl := SymbolTable.new_eq_ok hnew
  obtain ⟨hlt, n, cs, text, hcs, hspans, habout⟩ :=
    (Scan.ofLines_located hnew hscan).2 d (Array.mem_toList_iff.mpr hd)
  rw [hspans.start_line] at hlt
  refine ⟨n, cs, text, hcs, hspans, habout.mono (fun _ _ hrefused ↦ hrefused) ?_⟩
  rintro e ⟨cs', hcs', i, hi, hexpand⟩
  rw [← (assemble_describes h).getElem?_source] at hcs'
  exact .expansion (Int.ofNat_lt.mp hlt) hcs' hi hexpand

theorem located_of_mem_image (h : assemble o source = some a) (hd : d ∈ a.image.diagnostics) :
    let lines := Text.splitLines source.toList
    d.Located lines (Scan.Refuses o lines) (a.Rejects o) := by
  intro lines
  have hdescribes := assemble_describes h
  obtain ⟨k, hk, entry, hentry, hd⟩ := hdescribes.mem_image_diagnostics.mp hd
  obtain ⟨horigin, cs, -, -, hcs, -⟩ := hdescribes.exists_origin hentry
  have hsource : a.source[entry.1]? = some cs := by rw [hdescribes.getElem?_source, hcs]
  have hi : a.instructionAt? k = some entry.2.reread := by
    rw [hdescribes.instructionAt?_eq, hentry, Option.map_some]
  rw [Image.diagnostic?] at hd
  obtain ⟨w, -, hword⟩ | ⟨e, hrejected, hrejects, -⟩ := encodes_or_rejects h hk horigin hsource hi
  · rw [hword] at hd
    cases hd
  · rw [hrejected, hsource] at hd
    obtain rfl := Option.some.inj hd
    obtain ⟨text, hspans, habout⟩ := Line.about_errorRange hrejects cs entry.1
    exact ⟨entry.1, cs, text, hcs, hspans, habout⟩

end Assembly

/-! ## The result -/

/-- **Diagnostics span what they name.**  Take any source that is assembled without running out of
room.

* All lines of the source are divided at offsets that they have.  So are those that the second pass
  comes back to: each line of the listing has an origin, which is a line of the source.
* Each diagnostic starts and ends on one line of the source, before its comment.  The bytes between
  are the label without margins, the directive, the text that caused an error of an expansion or an
  encoding if the body of the line has that, or otherwise the body without margins.
* The diagnostics of the first pass come before those of the second, and each pass goes through the
  source lines in order. -/
theorem diagnostics_span_what_they_name (o : Options) (source : String) (a : Assembly)
    (h : assemble o source = some a) :
    let lines := Text.splitLines source.toList
    (∀ cs ∈ lines, Line.Sliced cs) ∧
    ((Image.listingLines a.listing).length = a.scan.origins.size ∧
      ∀ n ∈ a.scan.origins, n < lines.length) ∧
    (∀ d ∈ a.diagnostics, d.Located lines (Scan.Refuses o lines) (a.Rejects o)) ∧
    a.diagnostics = a.scan.diagnostics ++ a.image.diagnostics ∧
    a.scan.diagnostics.toList.Pairwise (·.range.start.line ≤ ·.range.start.line) ∧
    a.image.diagnostics.toList.Pairwise (·.range.start.line ≤ ·.range.start.line) := by
  intro lines
  have hdescribes := assemble_describes h
  obtain ⟨labels, -, hnew, -, -, hscan, -⟩ := assemble_cases h
  obtain rfl := SymbolTable.new_eq_ok hnew
  refine ⟨fun cs _ ↦ Line.sliced cs, ⟨?_, fun n hn ↦ ?_⟩, fun d hd ↦ ?_, rfl,
    (Scan.ofLines_located hnew hscan).1, hdescribes.image_diagnostics_sorted⟩
  · exact hdescribes.scan.length_listingLines hdescribes.lineFeed
  · obtain ⟨k, hk⟩ := Array.getElem?_of_mem hn
    rw [← Array.getElem?_toList, hdescribes.origins, List.getElem?_map,
      Option.map_eq_some_iff] at hk
    obtain ⟨entry, hentry, rfl⟩ := hk
    obtain ⟨-, cs, -, -, hcs, -⟩ := hdescribes.exists_origin hentry
    exact (List.getElem?_eq_some_iff.mp hcs).1
  · rcases Array.mem_append.mp hd with hd | hd
    · exact Assembly.located_of_mem_scan h hd
    · exact Assembly.located_of_mem_image h hd

/-- A label that is no label name, with margins; a directive behind a label; a pseudo-instruction
without its literal; and, in the second pass, a text that is no register. -/
theorem diagnostics_span_what_they_name_of_each_kind :
    ∃ lines a, lines = Text.splitLines
        " 1x : addu $t0 r8, $t1 # r8\nx:\t.data 4\n  li $t0 \t".toList ∧
      assemble {} " 1x : addu $t0 r8, $t1 # r8\nx:\t.data 4\n  li $t0 \t" = some a ∧
      a.scan.diagnostics.toList.map Diagnostic.range =
        [Range.onLine 0 1 3, Range.onLine 1 3 8, Range.onLine 2 2 8] ∧
      a.image.diagnostics.toList.map Diagnostic.range = [Range.onLine 0 15 17] ∧
      ∀ d ∈ a.diagnostics, d.Located lines (Scan.Refuses {} lines) (a.Rejects {}) := by
  have hrun : (assemble {} " 1x : addu $t0 r8, $t1 # r8\nx:\t.data 4\n  li $t0 \t").map
      (fun a ↦ (a.scan.diagnostics.toList.map Diagnostic.range,
        a.image.diagnostics.toList.map Diagnostic.range)) =
      some ([Range.onLine 0 1 3, Range.onLine 1 3 8, Range.onLine 2 2 8],
        [Range.onLine 0 15 17]) := by
    decide +kernel
  obtain ⟨a, ha, hranges⟩ := Option.map_eq_some_iff.mp hrun
  obtain ⟨hscan, himage⟩ := Prod.mk.inj hranges
  obtain ⟨-, -, hlocated, -⟩ := diagnostics_span_what_they_name {} _ a ha
  exact ⟨_, a, rfl, ha, hscan, himage, hlocated⟩

end MipsAsm
