import MipsAsm.Proofs.Assembly.Basic

/-!
# Sources that say the same

Two lines may differ in their blanks, in their comments and in what follows a directive, and still
say the same to the assembler.  `Line.Alike` is what they have to agree in.  Sources whose lines are
alike one by one have the same labels, listing, words and relocations.  Their diagnostics may point
at different places and quote different texts, but they are on the same lines and as grave.

Layouts of a source are compared with it in these terms, since they move labels and tokens about.
Nothing here is about layouts, though, and sources that are alike need not come from each other.

The two runs of the assembler are compared through what is left of their states without the rest.  A
run over the one source and a run over the other then go through the same states, step by step, and
two folds that do this end alike.

* `Scan.coarse`, `Image.coarse` — a state with the lines and severities of its diagnostics only, and
  without its log.
* `Scan.readLine_coarse`, `Image.readLine_coarse` — reading one more line keeps two runs together.
* `assemble_coarse` — so do both passes over sources whose lines are alike.
-/

set_option autoImplicit false

namespace MipsAsm

/-- What is left of a diagnostic if only its line and its severity count. -/
def Diagnostic.coarse (d : Diagnostic) : Diagnostic :=
  { range := { start := { line := d.range.start.line, character := 0 }
               stop := { line := d.range.start.line, character := 0 } }
    message := ""
    severity := d.severity }

@[simp]
theorem Diagnostic.isError_coarse (d : Diagnostic) : d.coarse.isError = d.isError := rfl

theorem Diagnostic.any_isError_coarse (ds : Array Diagnostic) :
    (ds.map coarse).any isError = ds.any isError := by
  simp [Function.comp_def]

/-! ## Lines

What a line adds to the listing, and what is said of its body, depends on its tokens and not on
where they stand.  A directive is the one case in which the tokens may differ, since nothing is made
of those after the first. -/

namespace Line

/-- Whether the first token of a line is a directive. -/
def IsDirective (l : Line) : Prop := ∃ first ∈ l.tokens.head?, Scan.isDirective first.text = true

/-- A line has a label that is no label name. -/
def HasInvalidLabel (l : Line) : Prop := ∃ name, l.label? = some name ∧ ¬Label.isValid name.text

/-- Two lines say the same: they have the same label and the same tokens, unless both have a label
that is no label name, or a directive, which has no effect. -/
structure Alike (l l' : Line) : Prop where
  /-- The labels are the same, unless they are no label names. -/
  label : l.HasInvalidLabel ∧ l'.HasInvalidLabel ∨
    l.label?.map Text.Token.text = l'.label?.map Text.Token.text
  /-- The tokens are the same, unless there is a directive. -/
  tokens : l.IsDirective ∧ l'.IsDirective ∨
    l.tokens.map Text.Token.text = l'.tokens.map Text.Token.text

variable {l l' : Line}

theorem IsDirective.instruction? (h : l.IsDirective) : l.instruction? = none := by
  obtain ⟨first, hfirst, hdirective⟩ := h
  obtain ⟨rest, htokens⟩ := List.head?_eq_some_iff.mp hfirst
  simp [Line.instruction?, htokens, Instruction.ofTokens?, hdirective]

theorem IsDirective.remarks (h : l.IsDirective) (number : Nat) :
    (l.remarks number).map Diagnostic.coarse =
      [(Diagnostic.ignoredDirective "" (Range.onLine number 0 0)).coarse] := by
  obtain ⟨first, hfirst, hdirective⟩ := h
  obtain ⟨rest, htokens⟩ := List.head?_eq_some_iff.mp hfirst
  simp only [Line.remarks, htokens, hdirective, if_true]
  rfl

theorem ofTokens?_congr {ts ts' : List Text.Token}
    (h : ts.map Text.Token.text = ts'.map Text.Token.text) :
    Instruction.ofTokens? ts = Instruction.ofTokens? ts' := by
  cases ts with
  | nil => rw [List.map_eq_nil_iff.mp h.symm]
  | cons first rest =>
    obtain ⟨first', rest', rfl, hfirst, hrest⟩ := List.map_eq_cons_iff.mp h.symm
    rw [Instruction.ofTokens?, Instruction.ofTokens?, hfirst, hrest]

/-- Lines that are alike add the same to the listing. -/
theorem Alike.expansion (h : l.Alike l') : l.expansion = l'.expansion := by
  have hinstruction : l.instruction? = l'.instruction? := by
    rcases h.tokens with ⟨hl, hl'⟩ | htexts
    · rw [hl.instruction?, hl'.instruction?]
    · rw [Line.instruction?, Line.instruction?, ofTokens?_congr htexts]
  rw [Line.expansion, Line.expansion, hinstruction]

theorem coarse_ofError (l : Line) (number : Nat) (e : Error) :
    (Diagnostic.ofError e (l.errorRange number e)).coarse =
      (Diagnostic.failure "" (Range.onLine number 0 0)).coarse := by
  simp [Diagnostic.coarse, Diagnostic.ofError, Diagnostic.failure, start_line_errorRange,
    Range.onLine]

/-- What the first pass has to say of lines that are alike differs in places and texts only. -/
theorem Alike.remarks (h : l.Alike l') (number : Nat) :
    (l.remarks number).map Diagnostic.coarse = (l'.remarks number).map Diagnostic.coarse := by
  by_cases hdirective : l.IsDirective ∧ l'.IsDirective
  · rw [hdirective.1.remarks, hdirective.2.remarks]
  · have htexts := h.tokens.resolve_left hdirective
    rw [Line.remarks, Line.remarks]
    cases htokens : l.tokens with
    | nil =>
      rw [htokens] at htexts
      rw [List.map_eq_nil_iff.mp htexts.symm]
    | cons first rest =>
      rw [htokens] at htexts
      obtain ⟨first', rest', htokens', hfirst, hrest⟩ := List.map_eq_cons_iff.mp htexts.symm
      simp only [htokens', hfirst, hrest]
      split
      · rfl
      · split
        · rw [List.map_singleton, List.map_singleton, coarse_ofError, coarse_ofError]
        · rfl

end Line

/-! ## The first pass

A step of the first pass reads the line, the labels and the number of lines read so far.  It never
reads the places of earlier diagnostics, only whether one of them is an error, so two states that
are the same up to places are so again after a step over two lines that are alike. -/

namespace Scan

/-- What is left of a state of the first pass. -/
def coarse (s : Scan) : Scan :=
  { s with diagnostics := s.diagnostics.map Diagnostic.coarse, log := #[] }

variable {s t : Scan} {l l' : Line}

theorem hasErrors_coarse (s : Scan) : s.coarse.hasErrors = s.hasErrors :=
  Diagnostic.any_isError_coarse s.diagnostics

theorem hasErrors_eq_of_coarse (h : s.coarse = t.coarse) : s.hasErrors = t.hasErrors := by
  rw [← hasErrors_coarse, h, hasErrors_coarse]

theorem readInstruction_coarse (h : l.Alike l') (hst : s.coarse = t.coarse) :
    (s.readInstruction l).coarse = (t.readInstruction l').coarse := by
  obtain ⟨log, hs⟩ := readInstruction_eq s l
  obtain ⟨log', ht⟩ := readInstruction_eq t l'
  obtain ⟨lines, address, labels, labelLines, listing, origins, ds, log₁⟩ := s
  obtain ⟨_, _, _, _, _, _, ds', log₂⟩ := t
  simp only [coarse, mk.injEq] at hst
  obtain ⟨rfl, rfl, rfl, rfl, rfl, rfl, hds, -⟩ := hst
  rw [hs, ht]
  simp only [coarse, h.expansion, Array.map_append, hds, List.map_toArray, h.remarks]

theorem coarse_labelDiagnostic (name : String) (e : Error) (number start stop : Nat) :
    (labelDiagnostic name e (Range.onLine number start stop)).coarse =
      (Diagnostic.failure "" (Range.onLine number 0 0)).coarse := by
  rw [labelDiagnostic]
  split <;> rfl

theorem defineLabel_coarse {limit : Int} (h : l.Alike l') (hst : s.coarse = t.coarse) :
    (s.defineLabel limit l).map coarse = (t.defineLabel limit l').map coarse := by
  obtain ⟨lines, address, labels, labelLines, listing, origins, ds, log₁⟩ := s
  obtain ⟨_, _, _, _, _, _, ds', log₂⟩ := t
  have hcoarse := hst
  simp only [coarse, mk.injEq] at hst
  obtain ⟨rfl, rfl, rfl, rfl, rfl, rfl, hds, -⟩ := hst
  rw [defineLabel, defineLabel]
  rcases h.label with ⟨⟨name, hl, hname⟩, name', hl', hname'⟩ | hlabel
  · simp [hl, hl', hname, hname', coarse, hds]
    rfl
  cases hl : l.label? with
  | none =>
    rw [hl, Option.map_none, eq_comm, Option.map_eq_none_iff] at hlabel
    simp only [hlabel, Option.map_some, hcoarse]
  | some name =>
    rw [hl, Option.map_some, eq_comm, Option.map_eq_some_iff] at hlabel
    obtain ⟨name', hl', hname⟩ := hlabel
    simp only [hl', hname]
    split
    · cases labels.insert limit name.text address with
      | mk labels' outcome =>
        cases outcome with
        | ok done => simp [coarse, hds]
        | error fault =>
          cases fault with
          | rejected e => simp [coarse, hds, coarse_labelDiagnostic]
          | outOfMemory => rfl
    · simp [coarse, hds]
      rfl

/-- **Reading two lines that are alike** keeps two runs of the first pass together. -/
theorem readLine_coarse {o : Options} {cs ds : List Char} (h : (Line.read cs).Alike (Line.read ds))
    (hst : s.coarse = t.coarse) :
    (s.readLine o cs).map coarse = (t.readLine o ds).map coarse := by
  rw [readLine, readLine, hasErrors_eq_of_coarse hst]
  split
  · exact congrArg some hst
  · refine map_bind_eq (defineLabel_coarse h hst) fun s' t' hst' ↦ congrArg some ?_
    have hread := readInstruction_coarse h hst'
    exact congrArg (fun u : Scan ↦ { u with lines := u.lines + 1 }) hread

theorem ofLines_coarse {o : Options} {labels : SymbolTable} {lines lines' : List (List Char)}
    (h : List.Forall₂ (fun cs ds ↦ (Line.read cs).Alike (Line.read ds)) lines lines') :
    (ofLines o labels lines).map coarse = (ofLines o labels lines').map coarse := by
  rw [ofLines, ofLines]
  refine foldlM_map_eq ?_ h rfl
  intro cs ds hlines s t hst
  exact readLine_coarse hlines hst

end Scan

/-! ## The second pass

By now the listings are the same, so the second pass does the same in both runs.  It goes back to
the source for the ranges of its diagnostics only, and those are what `Image.coarse` leaves out. -/

namespace Image

/-- What is left of a state of the second pass. -/
def coarse (m : Image) : Image :=
  { m with diagnostics := m.diagnostics.map Diagnostic.coarse, log := #[] }

variable {m n : Image}

theorem hasErrors_coarse (m : Image) : m.coarse.hasErrors = m.hasErrors :=
  Diagnostic.any_isError_coarse m.diagnostics

theorem hasErrors_eq_of_coarse (h : m.coarse = n.coarse) : m.hasErrors = n.hasErrors := by
  rw [← hasErrors_coarse, h, hasErrors_coarse]

/-- Encoding an instruction keeps two runs of the second pass together, whatever the source lines
are that it comes from. -/
theorem place_coarse {o : Options} {labels : SymbolTable} {number : Nat} {l l' : Line}
    {i : Instruction} (hmn : m.coarse = n.coarse) :
    (m.place o labels number l i).map coarse = (n.place o labels number l' i).map coarse := by
  obtain ⟨read, relocations, placements, ds, log₁⟩ := m
  obtain ⟨_, _, _, ds', log₂⟩ := n
  simp only [coarse, mk.injEq] at hmn
  obtain ⟨rfl, rfl, rfl, hds, -⟩ := hmn
  simp only [place]
  split
  · simp [coarse, hds]
  · simp [coarse, hds, Line.coarse_ofError]
  · rfl

/-- **Reading a line of the listing** keeps two runs of the second pass together. -/
theorem readLine_coarse {o : Options} {source source' : Array (List Char)} {s t : Scan}
    (hst : s.coarse = t.coarse) (hmn : m.coarse = n.coarse) (cs : List Char) :
    (m.readLine o source s cs).map coarse = (n.readLine o source' t cs).map coarse := by
  have hlabels : s.labels = t.labels := (congrArg Scan.labels hst :)
  have horigins : s.origins = t.origins := (congrArg Scan.origins hst :)
  have hread : m.read = n.read := (congrArg Image.read hmn :)
  rw [readLine, readLine, hasErrors_eq_of_coarse hmn]
  split
  · exact congrArg some hmn
  · split
    · exact congrArg (fun k : Image ↦ some { k with read := k.read + 1 }) hmn
    · rw [hlabels, horigins, hread]
      exact place_coarse hmn

theorem ofListing_coarse {o : Options} {source source' : Array (List Char)} {s t : Scan}
    (hst : s.coarse = t.coarse) (relocations : SymbolTable) :
    (ofListing o source s relocations).map coarse =
      (ofListing o source' t relocations).map coarse := by
  have hlisting : s.listing = t.listing := (congrArg Scan.listing hst :)
  rw [ofListing, ofListing, hlisting]
  refine foldlM_map_eq ?_ (List.forall₂_refl _) rfl (R := Eq)
  rintro cs _ rfl m n hmn
  exact readLine_coarse hst hmn cs

end Image

/-! ## Both passes -/

/-- **Sources whose lines are alike** are assembled to the same, or both not at all.  Only their
diagnostics and logs may differ, and the diagnostics neither in their lines nor in how grave they
are. -/
theorem assemble_coarse {o : Options} {source source' : String}
    (h : List.Forall₂ (fun cs ds ↦ (Line.read cs).Alike (Line.read ds))
      (Text.splitLines source.toList) (Text.splitLines source'.toList)) :
    (assemble o source).map (fun a ↦ (a.scan.coarse, a.image.coarse)) =
      (assemble o source').map fun a ↦ (a.scan.coarse, a.image.coarse) := by
  rw [assemble, assemble, assembleLines, assembleLines]
  refine map_bind_eq (v := id) rfl ?_
  rintro labels _ rfl
  refine map_bind_eq (v := id) rfl ?_
  rintro relocations _ rfl
  refine map_bind_eq (Scan.ofLines_coarse h) ?_
  intro s t hst
  have hlisting : s.listing = t.listing := (congrArg Scan.listing hst :)
  rw [Scan.hasErrors_eq_of_coarse hst, hlisting]
  split
  · simp [hst]
  · refine map_bind_eq (Image.ofListing_coarse hst relocations) ?_
    intro m n hmn
    simp [hst, hmn]

end MipsAsm
