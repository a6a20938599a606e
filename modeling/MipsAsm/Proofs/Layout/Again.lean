import MipsAsm.Proofs.Layout.Contents

/-!
# Laying out a text again

A layout may change if it is laid out again.  How far its instructions are indented depends on its
longest label, and the assembler and the layout do not agree on what a label is: the assembler takes
margins off the text before the colon, and a layout takes off all blanks.  So a text may have a
label in its layout that it did not have before, and then the layout of the layout is another one.

That is all that can happen.  A line does not depend on how far it was indented before
(`Layout.line_line`), and in two layouts with different indentations lines say the same
(`Layout.alike_line_line`).  So the second layout has the labels of the first, and the third is the
second.

When the first layout is final can be said exactly, in terms of the text: it is if no line is
indented, if there are no labels since every address is refused, or if both ways to read a label
give the same longest name.  Two conditions that are easier to check are enough for that.  One is
that the code has no blanks but margins, which is so for any text that was typed with spaces and
tabs, and the other is that the text is assembled without errors.

With the option to stop, an assembly has only the labels of the lines that it has read.  A text and
its layout need not be read up to the same line, as a label that is an error in the one may be none
in the other, so in the exact condition each of them is cut at its own end.

* `Layout.longestName` — the longest label name, if the text before a colon is read in a given way.
* `labelWidth_eq`, `labelWidth_reformat` — the width that the instructions of a text, and those of
  its layout, are indented by.
* `reformat_of_alike` — a layout whose lines say the same as those of the text is final.
* `second_layout_is_final` — the second layout is final, and when the first one is.
-/

set_option autoImplicit false

namespace MipsAsm

open Text (isBlank)

namespace Layout

variable {cs : List Char}

/-! ## A line in two layouts

All that a layout uses of a line is its words and its comment, and both are still there in the line
it makes.  So the second layout of a line can be made from the line itself, with the indentation of
the second, and the first need not be looked at. -/

theorem isBlank_of_mem_replicate {n : Nat} {c : Char} (h : c ∈ List.replicate n ' ') :
    isBlank c = true := by
  rw [List.eq_of_mem_replicate h]
  decide

theorem squeeze_append_blanks {blanks : List Char} (h : ∀ c ∈ blanks, isBlank c = true)
    (cs : List Char) : squeeze (cs ++ blanks) = squeeze cs := by
  have hnone : Text.words isBlank blanks = [] :=
    words_eq_nil_iff.mpr (List.all_eq_true.mpr h)
  rw [squeeze, Text.words_append fun c hc ↦ h c (List.mem_of_mem_head? hc), hnone, List.append_nil,
    squeeze]

theorem squeeze_spaced (body : List Char) : squeeze (spaced body) = squeeze body := by
  rw [spaced]
  split
  · rename_i hnil
    rw [hnil]
  · exact squeeze_cons_blank (by decide) body

/-- The code of a line does not depend on how it was laid out before. -/
theorem codeOf_squeeze_codeOf (indent indent' : Nat) (cs : List Char) :
    codeOf indent' (squeeze (codeOf indent (squeeze cs))) = codeOf indent' (squeeze cs) := by
  by_cases hcolon : ':' ∈ cs
  · obtain ⟨before, rest, rfl, hbefore⟩ := List.eq_append_cons_of_mem hcolon
    obtain ⟨k, l, hstem, hwords, hlabel⟩ := exists_squeeze_colon hbefore rest
    generalize squeeze before ++ List.replicate k ' ' = label at *
    by_cases hdot : label.head? = some '.'
    · have hhead : (squeeze (before ++ ':' :: rest)).head? = some '.' := by
        rw [hwords, List.head?_append, hdot]
        rfl
      rw [codeOf_directive indent hhead, squeeze_squeeze]
    · have hagain : squeeze (label ++ [':']) = label ++ [':'] := by
        rw [← hstem, squeeze_squeeze]
      obtain ⟨m, hgap⟩ := exists_gap_eq (spaced (squeeze rest))
      rw [hwords, codeOf_label indent hlabel hdot, squeeze_append_cons (by decide), hagain, hgap,
        squeeze_spaced, squeeze_squeeze, List.append_assoc, List.singleton_append,
        codeOf_label indent' hlabel hdot, codeOf_label indent' hlabel hdot]
  · obtain ⟨n, hcode⟩ := codeOf_of_not_mem indent (colon_not_mem_squeeze hcolon)
    rw [hcode, squeeze_blanks_append fun c hc ↦ isBlank_of_mem_replicate hc, squeeze_squeeze]

theorem squeeze_codeOf_eq_nil_iff (indent : Nat) :
    squeeze (codeOf indent (squeeze cs)) = [] ↔ squeeze cs = [] := by
  have hvisible : ∀ ds : List Char, squeeze ds = [] ↔ ds.filter (!isBlank ·) = [] := by
    intro ds
    rw [squeeze_eq_nil_iff, List.filter_eq_nil_iff, List.all_eq_true]
    simp
  rw [hvisible, hvisible, filter_codeOf]

/-- **A line does not depend on how it was laid out before.** -/
theorem line_line (indent indent' : Nat) (cs : List Char) :
    line indent' (line indent cs) = line indent' cs := by
  by_cases hhash : '#' ∈ cs
  · obtain ⟨before, rest, rfl, hbefore⟩ := List.eq_append_cons_of_mem hhash
    have hspace : ∀ c ∈ (if squeeze before = [] then [] else [' ']), isBlank c = true := by
      intro c hc
      split at hc
      · cases hc
      · obtain rfl := List.mem_singleton.mp hc
        decide
    have hsame : squeeze (codeOf indent (squeeze before) ++
        (if squeeze before = [] then [] else [' '])) = squeeze (codeOf indent (squeeze before)) :=
      squeeze_append_blanks hspace _
    rw [line_append_cons indent hbefore,
      line_append_cons indent' (hash_not_mem_codeOf_append indent hbefore),
      line_append_cons indent' hbefore, hsame, codeOf_squeeze_codeOf, Text.trimRight_trimRight]
    simp only [squeeze_codeOf_eq_nil_iff]
  · rw [line_of_not_mem indent hhash, line_of_not_mem indent' (hash_not_mem_codeOf indent hhash),
      line_of_not_mem indent' hhash, codeOf_squeeze_codeOf]

theorem map_text_tokens_eq {l l' : Line} {ds : List Char} (h : Padded ds l.body)
    (h' : Padded ds l'.body) :
    l.tokens.map Text.Token.text = l'.tokens.map Text.Token.text := by
  rw [Line.tokens, Line.tokens, Text.map_text_tokens, Text.map_text_tokens, h.words, h'.words]

/-- **A line says the same in two layouts.** -/
theorem alike_line_line (indent indent' : Nat) (cs : List Char) :
    (Line.read (line indent cs)).Alike (Line.read (line indent' cs)) := by
  by_cases hcolon : ':' ∈ Line.code cs
  · obtain ⟨before, rest, heq, hbefore⟩ := List.eq_append_cons_of_mem hcolon
    have hsplits : Line.Splits cs before rest := ⟨heq, hbefore⟩
    obtain ⟨hlabel, hbody⟩ := read_line_of_splits indent hsplits
    obtain ⟨hlabel', hbody'⟩ := read_line_of_splits indent' hsplits
    refine ⟨.inr ?_, .inr (map_text_tokens_eq hbody hbody')⟩
    rw [Line.hasLabel_iff.mp hlabel, Line.hasLabel_iff.mp hlabel']
  · obtain ⟨hlabel, hbody⟩ := read_line_of_not_mem indent hcolon
    obtain ⟨hlabel', hbody'⟩ := read_line_of_not_mem indent' hcolon
    refine ⟨.inr ?_, .inr (map_text_tokens_eq hbody hbody')⟩
    rw [hlabel, hlabel']

/-! ## Lines that are indented

The indentation shows only in lines that have words but neither a label nor a directive.  Whether a
layout changes when its indentation does is therefore a question of whether it has such a line. -/

/-- A line is indented if it has words, but no label and no directive. -/
def IsIndented (cs : List Char) : Prop :=
  squeeze (Line.code cs) ≠ [] ∧ ':' ∉ Line.code cs ∧ (squeeze (Line.code cs)).head? ≠ some '.'

instance (cs : List Char) : Decidable (IsIndented cs) := inferInstanceAs (Decidable (_ ∧ _ ∧ _))

theorem codeOf_of_isIndented (h : IsIndented cs) (indent : Nat) :
    codeOf indent (squeeze (Line.code cs)) =
      List.replicate indent ' ' ++ squeeze (Line.code cs) := by
  obtain ⟨hne, hcolon, hdot⟩ := h
  rw [codeOf, if_neg hne, code, if_neg hdot, Text.cut_of_not_mem (colon_not_mem_squeeze hcolon)]

/-- Other lines do not depend on the indentation. -/
theorem codeOf_of_not_isIndented (h : ¬IsIndented cs) (indent indent' : Nat) :
    codeOf indent (squeeze (Line.code cs)) = codeOf indent' (squeeze (Line.code cs)) := by
  by_cases hne : squeeze (Line.code cs) = []
  · rw [hne]
    rfl
  by_cases hdot : (squeeze (Line.code cs)).head? = some '.'
  · rw [codeOf_directive indent hdot, codeOf_directive indent' hdot]
  · have hcolon : ':' ∈ Line.code cs := not_not.mp fun hcolon ↦ h ⟨hne, hcolon, hdot⟩
    obtain ⟨before, rest, heq, hbefore⟩ := List.eq_append_cons_of_mem hcolon
    obtain ⟨k, l, -, hwords, hlabel⟩ := exists_squeeze_colon hbefore rest
    rw [heq, hwords] at hdot ⊢
    have hstart : (squeeze before ++ List.replicate k ' ').head? ≠ some '.' := by
      intro hhead
      rw [List.head?_append, hhead] at hdot
      exact hdot rfl
    rw [codeOf_label indent hlabel hstart, codeOf_label indent' hlabel hstart]

/-- What follows the code of a line does not depend on the indentation. -/
theorem exists_line_eq (cs : List Char) :
    ∃ tail, ∀ indent, line indent cs = codeOf indent (squeeze (Line.code cs)) ++ tail := by
  by_cases hhash : '#' ∈ cs
  · obtain ⟨before, rest, rfl, hbefore⟩ := List.eq_append_cons_of_mem hhash
    refine ⟨(if squeeze before = [] then [] else [' ']) ++
      '#' :: Text.trimRight Line.isMargin rest, fun indent ↦ ?_⟩
    rw [line_append_cons indent hbefore, code_append_cons hbefore, List.append_assoc]
  · refine ⟨[], fun indent ↦ ?_⟩
    rw [line_of_not_mem indent hhash, Line.code_of_not_mem hhash, List.append_nil]

/-- Two indentations give the same line only if it is not indented. -/
theorem line_eq_line_iff (indent indent' : Nat) (cs : List Char) :
    line indent cs = line indent' cs ↔ (IsIndented cs → indent = indent') := by
  obtain ⟨tail, htail⟩ := exists_line_eq cs
  rw [htail, htail, List.append_left_inj]
  by_cases hindented : IsIndented cs
  · rw [codeOf_of_isIndented hindented, codeOf_of_isIndented hindented, List.append_left_inj]
    constructor
    · intro hsame _
      have hlength := congrArg List.length hsame
      rwa [List.length_replicate, List.length_replicate] at hlength
    · intro hsame
      rw [hsame hindented]
  · exact ⟨fun _ h ↦ absurd h hindented, fun _ ↦ codeOf_of_not_isIndented hindented _ _⟩

/-! ## Label names

The labels of a text and those of its layout are found in the same places, before the first colon of
a line.  They differ in what is taken off the text there, and `Layout.names` has that as a
parameter.  Of the names, only which ones there are matters for the width, and not on how many
lines. -/

/-- What stands before the first colon of a line. -/
def labelPart? (cs : List Char) : Option (List Char) :=
  if ':' ∈ Line.code cs then some (Text.cut ':' (Line.code cs)).1 else none

/-- The label names of lines, if `clean` is what is left of the text before a colon. -/
def names (clean : List Char → List Char) (lines : List (List Char)) : List String :=
  ((lines.filterMap labelPart?).map (String.ofList ∘ clean)).filter Label.isValid

/-- The number of bytes of the longest label name. -/
def longestName (clean : List Char → List Char) (lines : List (List Char)) : Nat :=
  ((names clean lines).map String.utf8ByteSize).max?.getD 0

theorem labelPart?_eq_some_iff {before : List Char} :
    labelPart? cs = some before ↔ ∃ rest, Line.Splits cs before rest := by
  rw [labelPart?]
  by_cases hcolon : ':' ∈ Line.code cs
  · obtain ⟨before', rest, heq, hbefore⟩ := List.eq_append_cons_of_mem hcolon
    rw [if_pos hcolon, heq, Text.cut_append_cons hbefore, Option.some.injEq]
    constructor
    · rintro rfl
      exact ⟨rest, heq, hbefore⟩
    · rintro ⟨rest', hsplits⟩
      have hcut := Text.cut_append_cons hsplits.2 rest'
      rw [← hsplits.1, ← Line.code, heq, Text.cut_append_cons hbefore] at hcut
      exact congrArg Prod.fst hcut
  · rw [if_neg hcolon]
    constructor
    · intro hnone
      cases hnone
    · rintro ⟨rest, hsplits⟩
      refine absurd ?_ hcolon
      rw [Line.code, hsplits.1]
      exact List.mem_append_right _ List.mem_cons_self

theorem mem_names {clean : List Char → List Char} {lines : List (List Char)} {name : String} :
    name ∈ names clean lines ↔ Label.isValid name = true ∧
      ∃ cs ∈ lines, ∃ before rest, Line.Splits cs before rest ∧
        name = String.ofList (clean before) := by
  rw [names, List.mem_filter, and_comm, List.mem_map]
  simp only [List.mem_filterMap, labelPart?_eq_some_iff, Function.comp_apply]
  refine and_congr_right fun _ ↦ ⟨?_, ?_⟩
  · rintro ⟨before, ⟨cs, hcs, rest, hsplits⟩, rfl⟩
    exact ⟨cs, hcs, before, rest, hsplits, rfl⟩
  · rintro ⟨cs, hcs, before, rest, hsplits, rfl⟩
    exact ⟨before, ⟨cs, hcs, rest, hsplits⟩, rfl⟩

/-- Which names are the longest depends only on which names there are. -/
theorem max?_map_utf8ByteSize_congr {xs ys : List String} (h : ∀ x, x ∈ xs ↔ x ∈ ys) :
    (xs.map String.utf8ByteSize).max?.getD 0 = (ys.map String.utf8ByteSize).max?.getD 0 := by
  refine max?_getD_congr fun n ↦ ?_
  simp only [List.mem_map, h]

/-- The label of a line in a layout is what is left of the label part without all blanks. -/
theorem hasLabel_line_iff {indent : Nat} {name : String} :
    Line.HasLabel (line indent cs) name ↔
      ∃ before rest, Line.Splits cs before rest ∧ name = String.ofList (squeeze before) := by
  constructor
  · intro hlabel
    by_cases hcolon : ':' ∈ Line.code cs
    · obtain ⟨before, rest, heq, hbefore⟩ := List.eq_append_cons_of_mem hcolon
      refine ⟨before, rest, ⟨heq, hbefore⟩, ?_⟩
      have hsame := Line.hasLabel_iff.mp (read_line_of_splits indent ⟨heq, hbefore⟩).1
      exact Option.some.inj ((Line.hasLabel_iff.mp hlabel).symm.trans hsame)
    · rw [Line.hasLabel_iff, (read_line_of_not_mem indent hcolon).1] at hlabel
      cases hlabel
  · rintro ⟨before, rest, hsplits, rfl⟩
    exact (read_line_of_splits indent hsplits).1

theorem longestName_map_line (indent : Nat) (lines : List (List Char)) :
    longestName (Text.trim Line.isMargin) (lines.map (line indent)) =
      longestName squeeze lines := by
  refine max?_map_utf8ByteSize_congr fun name ↦ ?_
  rw [mem_names, mem_names]
  simp only [List.mem_map, exists_exists_and_eq_and]
  exact and_congr_right fun _ ↦ exists_congr fun cs ↦ and_congr_right fun _ ↦ hasLabel_line_iff

/-! ## Blanks that are margins

The difference between the two readings is made by the blanks that are no margins, a form feed or a
space of another width.  Where the code of a line has none of these, the line says the same in its
layout, and this does not depend on whether it can be assembled. -/

/-- A text that is squeezed to something without blanks has blanks around it only. -/
theorem exists_eq_append_squeeze (h : ∀ c ∈ squeeze cs, isBlank c = false) :
    ∃ left right, cs = left ++ (squeeze cs ++ right) ∧ (∀ c ∈ left, isBlank c = true) ∧
      ∀ c ∈ right, isBlank c = true := by
  induction cs with
  | nil => exact ⟨[], [], by simp⟩
  | cons c cs ih =>
    cases hc : isBlank c with
    | true =>
      rw [squeeze_cons_blank hc] at h ⊢
      obtain ⟨left, right, hcs, hleft, hright⟩ := ih h
      exact ⟨c :: left, right, by rw [List.cons_append, ← hcs],
        List.forall_mem_cons.mpr ⟨hc, hleft⟩, hright⟩
    | false =>
      rw [squeeze_cons hc] at h ⊢
      have hgap : gap cs = [] := by
        obtain ⟨n, hn⟩ := exists_gap_eq cs
        rw [hn, List.eq_nil_iff_forall_not_mem]
        intro d hd
        have hblank := isBlank_of_mem_replicate hd
        rw [h d (List.mem_cons_of_mem _ (List.mem_append_left _ (hn ▸ hd)))] at hblank
        cases hblank
      rw [hgap, List.nil_append] at h ⊢
      by_cases hs : squeeze cs = []
      · exact ⟨[], cs, by rw [hs]; rfl, List.forall_mem_nil _,
          List.all_eq_true.mp (squeeze_eq_nil_iff.mp hs)⟩
      · -- the next character is no blank, as there would be a space
        obtain ⟨left, right, hcs, hleft, hright⟩ := ih fun d hd ↦ h d (List.mem_cons_of_mem _ hd)
        cases left with
        | nil => exact ⟨[], right, by rw [List.cons_append, List.nil_append, ← List.nil_append
            (squeeze cs ++ right), ← hcs], hleft, hright⟩
        | cons d left =>
          have hblank : cs.head?.any isBlank = true := by
            rw [hcs]
            exact hleft d List.mem_cons_self
          rw [gap, if_pos ⟨hblank, fun hall ↦ hs (squeeze_eq_nil_iff.mpr hall)⟩] at hgap
          cases hgap

/-- A label part whose blanks are margins is a label name with margins around it if it is squeezed
to one. -/
theorem trim_of_isValid_squeeze {before : List Char}
    (hmargin : ∀ c ∈ before, isBlank c = true → Line.isMargin c = true)
    (h : Label.isValid (String.ofList (squeeze before)) = true) :
    Text.trim Line.isMargin before = squeeze before := by
  obtain ⟨-, hname⟩ := Label.of_isValid h
  rw [String.toList_ofList] at hname
  have hplain : ∀ c ∈ squeeze before, isBlank c = false := fun c hc ↦
    (Label.of_isContinue (hname c hc)).1
  obtain ⟨left, right, hbefore, hleft, hright⟩ := exists_eq_append_squeeze hplain
  have hmem : ∀ c, c ∈ left ∨ c ∈ right → c ∈ before := by
    intro c hc
    rw [hbefore]
    rcases hc with hc | hc
    · exact List.mem_append_left _ hc
    · exact List.mem_append_right _ (List.mem_append_right _ hc)
  generalize squeeze before = name at hbefore hplain ⊢
  rw [hbefore, Text.trim_separators_append fun c hc ↦ hmargin c (hmem c (.inl hc)) (hleft c hc)]
  exact Text.trim_append (fun c hc ↦ isMargin_of_isBlank (hplain c (List.mem_of_mem_head? hc)))
    (fun c hc ↦ isMargin_of_isBlank (hplain c (List.mem_of_getLast? hc)))
    fun c hc ↦ hmargin c (hmem c (.inr hc)) (hright c hc)

/-- A body whose blanks are margins keeps its tokens. -/
theorem words_of_margins {ds body : List Char} (hbody : Padded (squeeze ds) body)
    (hmargin : ∀ c ∈ ds, isBlank c = true → Line.isMargin c = true) :
    Text.words Line.isSeparator body = Text.words Line.isSeparator ds := by
  rw [hbody.words, words_squeeze]
  intro w hw c hc
  obtain ⟨hseparator, hmem⟩ := (Text.mem_words hw).2 c hc
  refine Bool.eq_false_iff.mpr fun hblank ↦ ?_
  have hsep : Line.isSeparator c = true := by
    have hmarg := hmargin c hmem hblank
    simp only [Line.isMargin, Bool.or_eq_true, beq_iff_eq] at hmarg
    rcases hmarg with (rfl | rfl) | rfl <;> decide
  rw [hseparator] at hsep
  cases hsep

/-- **A line whose blanks are margins says the same in its layout**, whatever is wrong with it. -/
theorem alike_line_of_margins (indent : Nat)
    (h : ∀ c ∈ Line.code cs, isBlank c = true → Line.isMargin c = true) :
    (Line.read cs).Alike (Line.read (line indent cs)) := by
  by_cases hcolon : ':' ∈ Line.code cs
  · obtain ⟨before, rest, heq, hbefore⟩ := List.eq_append_cons_of_mem hcolon
    have hsplits : Line.Splits cs before rest := ⟨heq, hbefore⟩
    obtain ⟨hlabel, hbody⟩ := read_line_of_splits indent hsplits
    rw [heq] at h
    have hleft : ∀ c ∈ before, isBlank c = true → Line.isMargin c = true := fun c hc ↦
      h c (List.mem_append_left _ hc)
    have hright : ∀ c ∈ rest, isBlank c = true → Line.isMargin c = true := fun c hc ↦
      h c (List.mem_append_right _ (List.mem_cons_of_mem _ hc))
    rw [Line.hasLabel_iff] at hlabel
    refine ⟨?_, .inr ?_⟩
    · by_cases hvalid : Label.isValid (String.ofList (squeeze before)) = true
      · rw [hlabel, Line.label?_of_splits hsplits, Option.map_some,
          trim_of_isValid_squeeze hleft hvalid]
        exact .inr rfl
      · obtain ⟨name, hname, htext⟩ := Option.map_eq_some_iff.mp hlabel
        refine .inl ⟨⟨_, Line.label?_of_splits hsplits, fun hmargins ↦ hvalid ?_⟩, name, hname, ?_⟩
        · rw [squeeze_of_isValid hmargins]
          exact hmargins
        · rw [htext]
          exact hvalid
    · rw [Line.tokens, Line.tokens, Text.map_text_tokens, Text.map_text_tokens,
        words_of_margins hbody hright, Line.read_of_splits hsplits]
  · obtain ⟨hlabel, hbody⟩ := read_line_of_not_mem indent hcolon
    rw [Line.read_of_not_mem hcolon]
    refine ⟨.inr (congrArg (Option.map Text.Token.text) hlabel.symm), .inr ?_⟩
    rw [Line.tokens, Line.tokens, Text.map_text_tokens, Text.map_text_tokens,
      words_of_margins hbody h]
    rfl

end Layout

/-! ## The labels of a text and of its layout

The width is computed from a table of symbols, and the table is that of an assembly, which may have
stopped at an error.  Its labels are the valid names on the lines that were scanned. -/

section

variable {o : Options} {source : String} {a : Assembly}

/-- **The width of the labels of a text** is that of the longest label name before a colon. -/
theorem labelWidth_eq (h : assemble o source = some a) (hbase : o.base % 4 = 0) :
    Layout.labelWidth a.labels =
      Layout.longestName (Text.trim Line.isMargin)
        ((Text.splitLines source.toList).take a.scan.lines) := by
  obtain ⟨labels, -, hlabels, -, -, hscan, -⟩ := assemble_cases h
  have hdescribes := (assemble_describes h).scan
  have hof := Scan.LabelsOf.ofLines_take hlabels hbase hscan
  have hnames : ∀ name, name ∈ a.scan.labels.entries.toList.map Symbol.name ↔
      name ∈ Layout.names (Text.trim Line.isMargin)
        ((Text.splitLines source.toList).take a.scan.lines) := by
    intro name
    rw [Layout.mem_names]
    constructor
    · intro hmem
      rw [← hdescribes.map_labelLines] at hmem
      obtain ⟨⟨_, n⟩, hentry, rfl⟩ := List.mem_map.mp hmem
      obtain ⟨hvalid, ⟨cs, hcs, hlabel⟩, -⟩ := (hof.mem_iff _ n).mp hentry
      exact ⟨hvalid, cs, List.mem_of_getElem? hcs, hlabel⟩
    · rintro ⟨hvalid, cs, hcs, hlabel⟩
      obtain ⟨n, hn⟩ := List.mem_iff_getElem?.mp hcs
      have hfirst := (hof.mem_firstIndex_iff hdescribes hvalid).mpr ⟨n, cs, hn, hlabel⟩
      exact (SymbolTable.mem_firstIndex_iff hdescribes.wellFormed).mp hfirst
  have hwidth := Layout.max?_map_utf8ByteSize_congr hnames
  rwa [List.map_map] at hwidth

/-- **The width of the labels of a layout** is that of the longest label name before a colon, if all
blanks are taken off. -/
theorem labelWidth_reformat {a' : Assembly} (h : assemble o source = some a)
    (h' : assemble o a.reformat = some a') (hbase : o.base % 4 = 0) :
    Layout.labelWidth a'.labels =
      Layout.longestName Layout.squeeze
        ((Text.splitLines source.toList).take a'.scan.lines) := by
  rw [labelWidth_eq h' hbase, splitLines_reformat h, ← List.map_take, Layout.longestName_map_line]

/-- At an odd address there are no labels. -/
theorem labelWidth_of_misaligned (h : assemble o source = some a) (hbase : o.base % 4 ≠ 0) :
    Layout.labelWidth a.labels = 0 := by
  have hnone := (assemble_describes h).scan.entries_labels_of_misaligned hbase
  rw [Layout.labelWidth, Assembly.labels, hnone]
  rfl

/-! ## The layout of a layout

Both layouts are the lines of the text, each with one of two indentations.  Then the two cases are
compared: they are the same if no line is indented, or if both are indented by the same. -/

theorem reformat_eq (h : assemble o source = some a) :
    a.reformat = String.ofList (Text.joinLines ((Text.splitLines source.toList).map
      (Layout.line (Layout.labelWidth a.labels + 2)))) := by
  rw [Assembly.reformat, (assemble_describes h).source]

/-- The layout of a layout has the lines of the text with another indentation. -/
theorem reformat_reformat_eq {a' : Assembly} (h : assemble o source = some a)
    (h' : assemble o a.reformat = some a') :
    a'.reformat = String.ofList (Text.joinLines ((Text.splitLines source.toList).map
      (Layout.line (Layout.labelWidth a'.labels + 2)))) := by
  rw [reformat_eq h', splitLines_reformat h, List.map_map]
  simp only [Function.comp_def, Layout.line_line]

/-- A layout whose lines say the same as those of the text is final. -/
theorem reformat_of_alike (h : assemble o source = some a)
    (halike : List.Forall₂ (fun cs ds ↦ (Line.read cs).Alike (Line.read ds))
      (Text.splitLines source.toList) (Text.splitLines a.reformat.toList)) :
    reformat o a.reformat = some a.reformat := by
  have hcoarse := assemble_coarse (o := o) halike
  rw [h, Option.map_some, eq_comm, Option.map_eq_some_iff] at hcoarse
  obtain ⟨a', ha', hsame⟩ := hcoarse
  have hlabels : a'.labels = a.labels := (congrArg Scan.labels (Prod.mk.inj hsame).1 :)
  rw [reformat, ha', Option.map_some, reformat_reformat_eq h ha', hlabels, ← reformat_eq h]

/-- The layout of a layout is the same if nothing is indented or it is indented by the same. -/
theorem reformat_reformat_eq_iff {a' : Assembly} (h : assemble o source = some a)
    (h' : assemble o a.reformat = some a') :
    a'.reformat = a.reformat ↔
      ((∃ cs ∈ Text.splitLines source.toList, Layout.IsIndented cs) →
        Layout.labelWidth a.labels = Layout.labelWidth a'.labels) := by
  constructor
  · rintro hsame ⟨cs, hcs, hindented⟩
    have hlines := congrArg (fun text ↦ Text.splitLines text.toList) hsame
    simp only [splitLines_reformat h', splitLines_reformat h, List.map_map, List.map_inj_left,
      Function.comp_apply, Layout.line_line] at hlines
    have hindent := (Layout.line_eq_line_iff _ _ cs).mp (hlines cs hcs) hindented
    omega
  · intro hwidth
    rw [reformat_reformat_eq h h', reformat_eq h]
    congr 2
    refine List.map_congr_left fun cs hcs ↦ ?_
    rw [Layout.line_eq_line_iff]
    intro hindented
    rw [hwidth ⟨cs, hcs, hindented⟩]

end

theorem Options.HasRoomFor.reformat {o : Options} {source : String} {a : Assembly}
    (hroom : o.HasRoomFor source) (h : assemble o source = some a) :
    o.HasRoomFor a.reformat := by
  rw [HasRoomFor, splitLines_reformat h, List.length_map]
  exact hroom

/-- **The second layout is final.**  Laying out a text twice gives what can be laid out again
without a change.  The first layout is final just in these cases: it has nothing that is indented,
there are no labels because the base address is no multiple of four, or the longest label name of
the lines that are read is as long with margins taken off the text before its colon as with all
blanks taken off.  So it is final if the code of the text has no blanks but margins, and if the text
is assembled without errors. -/
theorem second_layout_is_final (o : Options) (source : String) :
    let lines := Text.splitLines source.toList
    (o.HasRoomFor source →
      ∃ text text', reformat o source = some text ∧ reformat o text = some text') ∧
    ∀ a, assemble o source = some a →
      reformat o source = some a.reformat ∧
      ((∀ cs ∈ lines, ∀ c ∈ Line.code cs, isBlank c = true → Line.isMargin c = true) ∨
        a.hasErrors = false → reformat o a.reformat = some a.reformat) ∧
      ∀ a', assemble o a.reformat = some a' →
        reformat o a'.reformat = some a'.reformat ∧
        (reformat o a.reformat = some a.reformat ↔
          ((∃ cs ∈ lines, Layout.IsIndented cs) → o.base % 4 = 0 →
            Layout.longestName (Text.trim Line.isMargin) (lines.take a.scan.lines) =
              Layout.longestName Layout.squeeze (lines.take a'.scan.lines))) := by
  intro lines
  have hgives : ∀ {source : String} {a : Assembly}, assemble o source = some a →
      reformat o source = some a.reformat := fun h ↦ by rw [reformat, h, Option.map_some]
  refine ⟨fun hroom ↦ ?_, fun a h ↦ ⟨hgives h, ?_, fun a' h' ↦ ⟨?_, ?_⟩⟩⟩
  · obtain ⟨a, h⟩ := exists_assemble_of_room hroom
    obtain ⟨a', h'⟩ := exists_assemble_of_room (hroom.reformat h)
    exact ⟨_, _, hgives h, hgives h'⟩
  · rintro (hmargins | herrors)
    · refine reformat_of_alike h ?_
      rw [splitLines_reformat h, List.forall₂_map_right_iff, List.forall₂_same]
      exact fun cs hcs ↦ Layout.alike_line_of_margins _ (hmargins cs hcs)
    · exact reformat_of_alike h (alike_reformat h herrors)
  · -- the lines of the first layout say the same as those of the second
    refine reformat_of_alike h' ?_
    rw [splitLines_reformat h', splitLines_reformat h, List.map_map, List.forall₂_map_left_iff,
      List.forall₂_map_right_iff, List.forall₂_same]
    intro cs _
    rw [Function.comp_apply, Layout.line_line]
    exact Layout.alike_line_line _ _ cs
  · rw [hgives h', Option.some.injEq, reformat_reformat_eq_iff h h']
    refine imp_congr_right fun _ ↦ ?_
    by_cases hbase : o.base % 4 = 0
    · rw [labelWidth_eq h hbase, labelWidth_reformat h h' hbase]
      exact ⟨fun hsame _ ↦ hsame, fun hsame ↦ hsame hbase⟩
    · rw [labelWidth_of_misaligned h hbase, labelWidth_of_misaligned h' hbase]
      exact ⟨fun _ haligned ↦ absurd haligned hbase, fun _ ↦ rfl⟩

/-- A form feed in front of a label hides it from the assembler until it is laid out, so the second
layout has another indentation. -/
theorem reformat_hidden_label :
    reformat {} "\x0cfoo:\njr $ra" = some "foo:\n  jr $ra" ∧
      reformat {} "foo:\n  jr $ra" = some "foo:\n     jr $ra" := by
  decide +kernel

/-- Not every layout is final: that of a text with a hidden label changes when it is laid out
again. -/
theorem layout_changes_when_laid_out_again :
    ¬∀ (o : Options) (source text : String), reformat o source = some text →
      reformat o text = some text := by
  intro hfinal
  obtain ⟨hfirst, hsecond⟩ := reformat_hidden_label
  rw [hfinal {} _ _ hfirst] at hsecond
  exact absurd hsecond (by decide)

/-- A text whose second layout is another one, and is final; and a text with errors whose first
layout is final, as its blanks are margins. -/
theorem second_layout_is_final_of_hidden_label :
    Options.HasRoomFor {} "\x0cfoo:\njr $ra" ∧
      (∃ a a', assemble {} "\x0cfoo:\njr $ra" = some a ∧ assemble {} a.reformat = some a' ∧
        a.reformat = "foo:\n  jr $ra" ∧ reformat {} a.reformat ≠ some a.reformat ∧
        reformat {} a'.reformat = some a'.reformat) ∧
      ∃ text, reformat {} "9 x :\n\tli\r\nfoo" = some text ∧ reformat {} text = some text := by
  have hroom : Options.HasRoomFor {} "\x0cfoo:\njr $ra" := ⟨by decide, by decide⟩
  obtain ⟨hlayout, hagain⟩ := reformat_hidden_label
  obtain ⟨a, ha, htext⟩ := Option.map_eq_some_iff.mp hlayout
  refine ⟨hroom, ?_, ?_⟩
  · obtain ⟨hexists, hall⟩ := second_layout_is_final {} "\x0cfoo:\njr $ra"
    obtain ⟨text, text', hfirst, hsecond⟩ := hexists hroom
    obtain ⟨hgives, -, hfinal⟩ := hall a ha
    obtain rfl := Option.some.inj (hgives.symm.trans hfirst)
    obtain ⟨a', ha', rfl⟩ := Option.map_eq_some_iff.mp hsecond
    refine ⟨a, a', ha, ha', htext, ?_, (hfinal a' ha').1⟩
    rw [htext, hagain]
    decide
  · have hroom' : Options.HasRoomFor {} "9 x :\n\tli\r\nfoo" := ⟨by decide, by decide⟩
    obtain ⟨b, hb⟩ := exists_assemble_of_room hroom'
    obtain ⟨hgives, hstable, -⟩ := (second_layout_is_final {} "9 x :\n\tli\r\nfoo").2 b hb
    have hmargins : ((Text.splitLines "9 x :\n\tli\r\nfoo".toList).all fun cs ↦
        (Line.code cs).all fun c ↦ !isBlank c || Line.isMargin c) = true := by
      decide
    refine ⟨b.reformat, hgives, hstable (.inl fun cs hcs c hc hblank ↦ ?_)⟩
    have hmargin := List.all_eq_true.mp (List.all_eq_true.mp hmargins cs hcs) c hc
    rwa [hblank, Bool.not_true, Bool.false_or] at hmargin

end MipsAsm
