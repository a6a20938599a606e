import MipsAsm.Proofs.Assembly.Capacity
import MipsAsm.Proofs.Layout.Meaning
import MipsAsm.Proofs.Server.Documents

/-!
# What a layout keeps of a text

A layout is what an editor puts in the place of a document when it is saved, so nothing of the
document may get lost in it.  It is made line by line, and `Layout.Keeps` says what a line has to
keep in its new form: each character that is no blank, and each character of a comment but for the
margins at its end.

This is independent of what the assembler makes of the text, and of whether it can make anything of
it: a line that makes no sense is laid out as well.  Keeping every character that is no blank does
not mean that a text keeps its meaning, which is the subject of `MipsAsm.Proofs.Layout.Meaning`.

A comment is kept more strictly than code.  Within it blanks are kept as they are, and at its end
only margins are taken off, so that a comment may end in a blank of another kind.

* `Layout.filter_codeOf`, `Layout.isBlank_of_mem_getLast?_codeOf` — the code of a line has the same
  characters but for blanks, and ends in none.
* `Layout.keeps_line` — a line in its new form keeps all that it has to.
* `layout_loses_nothing` — what follows for a text, and for the edit that is sent before it is
  saved.
-/

set_option autoImplicit false

namespace MipsAsm

open Text (isBlank)

namespace Layout

/-- What a line `ds` keeps of a line `cs` in its place. -/
structure Keeps (cs ds : List Char) : Prop where
  /-- The characters that are no blanks are the same. -/
  visible : ds.filter (!isBlank ·) = cs.filter (!isBlank ·)
  /-- The comment is the same but for margins at its end, of which none are left. -/
  comment : ∀ before rest, cs = before ++ '#' :: rest → '#' ∉ before →
    ∃ before' kept margins, ds = before' ++ '#' :: kept ∧ '#' ∉ before' ∧ rest = kept ++ margins ∧
      (∀ c ∈ margins, Line.isMargin c = true) ∧ ∀ c ∈ kept.getLast?, Line.isMargin c = false
  /-- Without a comment, the line does not end in a blank. -/
  ending : '#' ∉ ds → ∀ c ∈ ds.getLast?, isBlank c = false

variable {cs : List Char}

theorem filter_replicate_space (n : Nat) : (List.replicate n ' ').filter (!isBlank ·) = [] := by
  rw [List.filter_eq_nil_iff]
  intro c hc
  rw [List.eq_of_mem_replicate hc]
  decide

/-- Squeezing takes blanks away and puts spaces in their place. -/
theorem filter_squeeze (cs : List Char) :
    (squeeze cs).filter (!isBlank ·) = cs.filter (!isBlank ·) := by
  induction cs with
  | nil => rw [squeeze_nil]
  | cons c cs ih =>
    cases hc : isBlank c with
    | true => rw [squeeze_cons_blank hc, ih, List.filter_cons_of_neg (by simp [hc])]
    | false =>
      obtain ⟨n, hgap⟩ := exists_gap_eq cs
      rw [squeeze_cons hc, List.filter_cons_of_pos (by simp [hc]), List.filter_append, hgap,
        filter_replicate_space, List.nil_append, ih, List.filter_cons_of_pos (by simp [hc])]

theorem filter_spaced (body : List Char) :
    (spaced body).filter (!isBlank ·) = body.filter (!isBlank ·) := by
  rw [spaced]
  split
  · rename_i hnil
    rw [hnil]
  · exact List.filter_cons_of_neg (by decide)

theorem exists_eq_replicate_append_trimLeft (cs : List Char) :
    ∃ n, cs = List.replicate n ' ' ++ Text.trimLeft (· == ' ') cs := by
  refine ⟨(cs.takeWhile (· == ' ')).length, ?_⟩
  have hspaces : cs.takeWhile (· == ' ') =
      List.replicate (cs.takeWhile (· == ' ')).length ' ' :=
    List.eq_replicate_of_mem fun c hc ↦ eq_of_beq (List.mem_takeWhile_imp hc :)
  rw [← hspaces]
  exact List.takeWhile_append_dropWhile.symm

/-- The code of a line keeps its characters but for blanks. -/
theorem filter_codeOf (indent : Nat) (cs : List Char) :
    (codeOf indent (squeeze cs)).filter (!isBlank ·) = cs.filter (!isBlank ·) := by
  rw [← filter_squeeze cs, codeOf]
  split
  · rename_i hnil
    rw [hnil]
  · obtain ⟨n, hcode⟩ | ⟨label, rest, hwords, hcode⟩ := code_cases indent (squeeze cs)
    · rw [hcode, List.filter_append, filter_replicate_space, List.nil_append]
    · obtain ⟨n, hrest⟩ := exists_eq_replicate_append_trimLeft rest
      have hbody : (Text.trimLeft (· == ' ') rest).filter (!isBlank ·) =
          rest.filter (!isBlank ·) := by
        conv_rhs => rw [hrest, List.filter_append, filter_replicate_space, List.nil_append]
      rw [hcode, hwords, List.filter_append, List.filter_append,
        List.filter_cons_of_pos (by decide), List.filter_cons_of_pos (by decide), filter_spaced,
        hbody]

/-- The code of a line does not end in a blank. -/
theorem isBlank_of_mem_getLast?_codeOf {indent : Nat} {c : Char}
    (hc : c ∈ (codeOf indent (squeeze cs)).getLast?) : isBlank c = false := by
  rw [codeOf] at hc
  split at hc
  · cases hc
  · rename_i hne
    obtain ⟨n, hcode⟩ | ⟨label, rest, hwords, hcode⟩ := code_cases indent (squeeze cs)
    · rw [hcode, List.getLast?_append_of_ne_nil _ hne] at hc
      exact isBlank_of_mem_getLast?_squeeze hc
    · rw [hcode, spaced] at hc
      split at hc
      · -- nothing follows the label, so that the line ends with the colon
        rw [List.getLast?_append_of_ne_nil _ (List.cons_ne_nil _ _)] at hc
        exact Option.some.inj hc ▸ by decide
      · rename_i hbody
        obtain ⟨n, hrest⟩ := exists_eq_replicate_append_trimLeft rest
        generalize Text.trimLeft (· == ' ') rest = body at hbody hrest hc
        have hends : ∀ xs : List Char, (label ++ ':' :: (xs ++ body)).getLast? = body.getLast? := by
          intro xs
          rw [← List.cons_append, ← List.append_assoc, List.getLast?_append_of_ne_nil _ hbody]
        have hc : c ∈ (label ++ ':' :: ([' '] ++ body)).getLast? := hc
        rw [hends, ← hends (List.replicate n ' '), ← hrest, ← hwords] at hc
        exact isBlank_of_mem_getLast?_squeeze hc

/-- **A line in its new form keeps all that it has to.** -/
theorem keeps_line (indent : Nat) (cs : List Char) : Keeps cs (line indent cs) := by
  by_cases hhash : '#' ∈ cs
  · obtain ⟨before, rest, rfl, hbefore⟩ := List.eq_append_cons_of_mem hhash
    obtain ⟨margins, hrest, hmargins, hkept⟩ := Text.exists_eq_trimRight_append Line.isMargin rest
    rw [line_append_cons indent hbefore]
    refine ⟨?_, ?_, fun hnone ↦ absurd (List.mem_append_right _ List.mem_cons_self) hnone⟩
    · have hcomment : (Text.trimRight Line.isMargin rest).filter (!isBlank ·) =
          rest.filter (!isBlank ·) := by
        have hnothing : margins.filter (!isBlank ·) = [] := by
          rw [List.filter_eq_nil_iff]
          exact fun c hc ↦ by simp [Line.isBlank_of_isMargin (hmargins c hc)]
        conv_rhs => rw [hrest, List.filter_append, hnothing, List.append_nil]
      have hspaces : (if squeeze before = [] then [] else [' ']).filter (!isBlank ·) = [] := by
        split <;> decide
      rw [List.filter_append, List.filter_append, filter_codeOf, hspaces, List.append_nil,
        List.filter_append, List.filter_cons_of_pos (by decide),
        List.filter_cons_of_pos (by decide), hcomment]
    · intro before' rest' hsame hbefore'
      obtain rfl : before = before' := by
        rw [← code_append_cons hbefore rest, hsame, code_append_cons hbefore']
      obtain rfl : rest = rest' := List.tail_eq_of_cons_eq (List.append_cancel_left hsame)
      exact ⟨_, _, margins, rfl, hash_not_mem_codeOf_append indent hbefore, hrest, hmargins, hkept⟩
  · rw [line_of_not_mem indent hhash]
    refine ⟨filter_codeOf indent cs, fun before rest hcs ↦ ?_, fun _ c hc ↦ ?_⟩
    · exact absurd (hcs ▸ List.mem_append_right before List.mem_cons_self) hhash
    · exact isBlank_of_mem_getLast?_codeOf hc

end Layout

/-! ## Texts

What holds of each line holds of the text, as a layout has as many lines as the text.  The edit that
replaces a document has to reach from its first byte to its last, and `endOfText` is that last
position. -/

theorem endOfText_of_append {source : String} {before : List (List Char)} {last : List Char}
    (h : Text.splitLines source.toList = before ++ [last]) :
    endOfText source = { line := before.length, character := Text.byteLength last } := by
  rw [endOfText, h]
  simp

/-- **Layout loses nothing.**  There is a layout of every text that there is room for.  It has as
many lines as the text.  Each line has the characters of the line of the text but for blanks, and
keeps its comment but for margins at its end; without a comment it does not end in a blank.  If a
document with that text is about to be saved, the edit that is sent puts the layout in the place of
all of the text, from its start to the end of its last line. -/
theorem layout_loses_nothing (o : Options) (source : String) :
    (o.HasRoomFor source → ∃ text, reformat o source = some text) ∧
    ∀ text, reformat o source = some text →
      List.Forall₂ Layout.Keeps (Text.splitLines source.toList) (Text.splitLines text.toList) ∧
      ∀ (s : Server.State) (r : Server.Request) (p : Server.Params),
        s.textOf p.textDocument.uri = source →
        r.paramsFor? .willSave Server.Params.saveSlots = some p →
        ∃ before last, Text.splitLines source.toList = before ++ [last] ∧
          (Server.receive o s r).map Server.Step.received =
            some [some (.reply r.id
              (.edits [{ range :=
                           { start := { line := 0, character := 0 }
                             stop :=
                               { line := before.length, character := Text.byteLength last } }
                         newText := text }]))] := by
  refine ⟨fun hroom ↦ ?_, fun text htext ↦ ⟨?_, ?_⟩⟩
  · obtain ⟨a, ha⟩ := exists_assemble_of_room hroom
    exact ⟨a.reformat, by rw [reformat, ha, Option.map_some]⟩
  · obtain ⟨a, ha, rfl⟩ := Option.map_eq_some_iff.mp htext
    rw [splitLines_reformat ha, List.forall₂_map_right_iff, List.forall₂_same]
    exact fun cs _ ↦ Layout.keeps_line _ cs
  · rintro s r p rfl hr
    obtain ⟨before, last, hlines⟩ :=
      (List.eq_nil_or_concat' _).resolve_left (Text.splitLines_ne_nil
        (s.textOf p.textDocument.uri).toList)
    refine ⟨before, last, hlines, ?_⟩
    rw [Server.received_of_willSave hr, htext, endOfText_of_append hlines]
    rfl

/-- A document with margins around a label, a comment with blanks at its end of which only some are
margins, and a line to be indented is opened and about to be saved. -/
theorem layout_loses_nothing_of_opened :
    let source := "\tx :li  $t0,1 # a\tb \r\n#c\u00A0\n y"
    let text := "x : li $t0,1 # a\tb\n#c\u00A0\n   y"
    let opened := Server.about none .didOpen "a.s"
      [("version", .nat 1), ("text", .string source)] []
    let saved := Server.about (some (.number 1)) .willSave "a.s" [] [("reason", .nat 1)]
    Options.HasRoomFor {} source ∧ reformat {} source = some text ∧
      List.Forall₂ Layout.Keeps (Text.splitLines source.toList) (Text.splitLines text.toList) ∧
      ∃ step, Server.receive {} Server.State.start opened = some step ∧
        (Server.receive {} step.state saved).map Server.Step.received =
          some [some (.reply (.number 1)
            (.edits [{ range :=
                         { start := { line := 0, character := 0 }
                           stop := { line := 2, character := 2 } }
                       newText := text }]))] := by
  intro source text opened saved
  have hroom : Options.HasRoomFor {} source := ⟨by decide, by decide⟩
  have htext : reformat {} source = some text := by decide +kernel
  have hstored : (Server.receive {} Server.State.start opened).map
      (fun step ↦ step.state.textOf "a.s") = some source := by
    decide +kernel
  obtain ⟨step, hstep, hsource⟩ := Option.map_eq_some_iff.mp hstored
  obtain ⟨hexists, hkeeps⟩ := layout_loses_nothing {} source
  obtain ⟨text', htext'⟩ := hexists hroom
  obtain rfl := Option.some.inj (htext.symm.trans htext')
  obtain ⟨hlines, hsaved⟩ := hkeeps text htext
  obtain ⟨before, last, hsplit, hsent⟩ := hsaved _ saved
    { textDocument := { uri := "a.s" }, reason := 1 } hsource (by decide +kernel)
  refine ⟨hroom, htext, hlines, step, hstep, hsent.trans ?_⟩
  have hlast : Text.splitLines source.toList =
      ["\tx :li  $t0,1 # a\tb \r".toList, "#c\u00A0".toList] ++ [" y".toList] := by
    decide
  obtain ⟨rfl, hy⟩ := List.append_inj' (hsplit.symm.trans hlast) rfl
  obtain rfl := List.singleton_inj.mp hy
  rfl

end MipsAsm
