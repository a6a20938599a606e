import MipsAsm.Proofs.Assembly.Alike
import MipsAsm.Proofs.Assembly.Stop
import MipsAsm.Proofs.Assembly.Words
import MipsAsm.Proofs.Layout.Line

/-!
# Layout and meaning

A source that is assembled without errors says the same in its new layout.  This is no matter of the
layout alone: blank characters that do not divide tokens are part of a token, and the layout puts
spaces in their place, so that a line with such a token may come to say something else.  But an
instruction with such a token has no word, and a label with one is no label name.

So the argument goes from the end to the beginning.  The source has no errors, so every line of the
listing has a word; every instruction with a word is spelled in simple characters, and so are the
operands that it has from the source line; hence no token of the source line has a blank within, and
the layout keeps all tokens.  Only the last step is about layouts.

What the layout does to places is not kept: diagnostics have other columns afterwards, and only
their lines and their order are the same.

* `Text.Plain` — a text without blanks.
* `Instruction.plain_of_outcome`, `Instruction.plain_of_expand` — the texts of an instruction are
  plain if it has a word, or stands for instructions that have words.
* `Layout.alike_line`, `alike_reformat` — a line with a label name and a plain instruction says the
  same in its new layout, and so does each line of a source without errors.
* `layout_preserves_meaning` — what follows for the whole source.
-/

set_option autoImplicit false

namespace MipsAsm

/-! ## Plain texts

Operands that are accepted consist of letters, digits and a few marks, which are no blanks. -/

/-- A text without blanks. -/
def Text.Plain (w : String) : Prop := ∀ c ∈ w.toList, isBlank c = false

open Text (isBlank Plain)

instance (w : String) : Decidable (Plain w) :=
  decidable_of_iff (w.toList.all (!isBlank ·) = true) (by simp [Plain])

theorem Text.isBlank_of_isSimple {c : Char} (h : isSimple c = true) : isBlank c = false := by
  simp only [isSimple, Bool.or_eq_true, beq_iff_eq] at h
  rcases h with ((h | rfl) | rfl) | rfl
  · exact (Label.of_isContinue h).1
  all_goals decide

theorem Text.Simple.plain {w : String} (h : Simple w) : Plain w :=
  fun c hc ↦ isBlank_of_isSimple (h c hc)

/-! ## Plain instructions

What is known of an instruction without errors is that it has a word.  For a pseudo-instruction that
is known of the instructions that it stands for, and they have its operands in them, or have a
number that was read from one.  So neither has a blank in an operand. -/

namespace Instruction

/-- The texts of the instruction have no blanks. -/
def Plain (i : Instruction) : Prop := ∀ w ∈ i.mnemonic :: i.args, Text.Plain w

/-- **An instruction that has a word is plain.** -/
theorem plain_of_outcome {o : Options} {labels : SymbolTable} {position : Nat} {i : Instruction}
    {word : UInt32} (h : Image.outcome o labels position i = .ok word) : i.Plain :=
  fun w hw ↦ (simple_of_encode h w hw).plain

theorem plain_of_reread {i : Instruction} (h : i.reread.Plain) : i.Plain := by
  intro w hw
  rcases List.mem_cons.mp hw with rfl | hw
  · exact h _ List.mem_cons_self
  · by_cases htop : w = Pseudo.stackTop
    · rw [htop]
      decide
    · exact h w (List.mem_cons_of_mem _ (List.mem_flatMap.mpr ⟨w, hw, by simp [htop]⟩))

/-- A pseudo-instruction passes each of its operands on, or reads it as a literal. -/
theorem plain_args_of_expand {p : Pseudo} {args : List String} {is : List Instruction}
    (h : p.expand args = .ok is) (hall : ∀ i ∈ is, i.Plain) : ∀ w ∈ args, Text.Plain w := by
  rw [Pseudo.expand.eq_def] at h
  split at h
  case h_1 rd literal =>
    split at h
    · cases h
    · rename_i value hvalue
      obtain rfl := Except.ok.inj h
      have hliteral := (Literal.simple_of_parse hvalue).plain
      rw [Pseudo.loadConstant] at hall
      split at hall
      · simp only [List.forall_mem_cons, Plain] at hall
        simp [hall]
      · simp only [List.forall_mem_cons, Plain] at hall
        simp [hall, hliteral]
  case h_6 => cases h
  all_goals
    obtain rfl := Except.ok.inj h
    simp only [List.forall_mem_cons, Plain] at hall
    simp [hall]

/-- **An instruction is plain** if the instructions that it stands for are. -/
theorem plain_of_expand {i : Instruction} {is : List Instruction} (h : i.expand = .ok is)
    (hall : ∀ j ∈ is, j.Plain) : i.Plain := by
  rw [expand] at h
  split at h
  · cases h
  · split at h
    · obtain rfl := Except.ok.inj h
      exact hall i (List.mem_singleton_self i)
    · rename_i p hp
      have hname : p.name = i.mnemonic := eq_of_beq (List.find?_some hp :)
      intro w hw
      rcases List.mem_cons.mp hw with rfl | hw
      · rw [← hname]
        cases p <;> decide
      · exact plain_args_of_expand h hall w hw

end Instruction

/-! ## Lines of a source without errors

Now that the label of a line and the texts of its instruction have no blanks within, the layout of
the line is known to say the same.  A directive is kept as well, as its dot is. -/

/-- Without errors, each label is a label name. -/
theorem Scan.isValid_of_ofLines {o : Options} {labels : SymbolTable} {lines : List (List Char)}
    {s : Scan} (h : ofLines o labels lines = some s) (herrors : s.hasErrors = false) :
    ∀ cs ∈ lines, ∀ name, (Line.read cs).label? = some name → Label.isValid name.text = true := by
  revert herrors
  refine foldlM_induction (P := fun lines s ↦ s.hasErrors = false → ∀ cs ∈ lines, ∀ name,
    (Line.read cs).label? = some name → Label.isValid name.text = true) (by simp) h ?_
  intro done cs s s' _ _ ih hstep herrors line hline name hname
  have hbefore : s.hasErrors = false := (readLine_extends hstep).hasErrors_eq_false herrors
  rcases List.mem_append.mp hline with hline | hline
  · exact ih hbefore line hline name hname
  · obtain rfl := List.mem_singleton.mp hline
    rw [readLine, if_neg (by simp [hbefore]), Option.bind_eq_bind, Option.bind_eq_some_iff] at hstep
    obtain ⟨t, hdefine, hread⟩ := hstep
    obtain rfl := Option.some.inj hread
    have hlabel : t.hasErrors = false :=
      (readInstruction_extends t (Line.read line)).hasErrors_eq_false herrors
    obtain ⟨hnone, -⟩ | ⟨name', labels', hsome, hvalid, -⟩ | ⟨name', d, log, -, hd, -, rfl⟩ :=
      defineLabel_cases hdefine
    · rw [hnone] at hname
      cases hname
    · rw [hname] at hsome
      obtain rfl := Option.some.inj hsome
      exact hvalid
    · simp [hasErrors, hd] at hlabel

namespace Assembly.Describes

variable {o : Options} {a : Assembly} {lines : List (List Char)}

/-- Without errors, the instructions of the listing are plain. -/
theorem plain_of_mem_entries (h : a.Describes o lines) (herrors : a.hasErrors = false)
    {e : Nat × Instruction} (he : e ∈ a.entries) : e.2.Plain := by
  obtain ⟨k, hk⟩ := List.mem_iff_getElem?.mp he
  obtain ⟨word, hword⟩ := h.exists_outcome herrors hk
  exact Instruction.plain_of_reread (Instruction.plain_of_outcome hword)

/-- Without errors, the instructions of the source are plain. -/
theorem plain_of_instruction? (h : a.Describes o lines) (herrors : a.hasErrors = false)
    {cs : List Char} (hcs : cs ∈ lines) {i : Instruction}
    (hi : (Line.read cs).instruction? = some i) : i.Plain := by
  obtain ⟨number, hnumber⟩ := List.mem_iff_getElem?.mp hcs
  have hall : lines.take a.scan.lines = lines := by rw [h.lines_eq herrors, List.take_length]
  cases hexpand : i.expand with
  | error e =>
    obtain ⟨d, hd, hdError, -⟩ := Line.exists_remark hi hexpand number
    have hmem := h.scan.remarks number cs (by rw [hall, hnumber]) d hd
    rw [a.hasErrors_eq, Bool.or_eq_false_iff, Scan.hasErrors, Array.any_eq_false'] at herrors
    exact absurd hdError (herrors.1 d hmem)
  | ok is =>
    refine Instruction.plain_of_expand hexpand fun j hj ↦ ?_
    have hmem : (number, j) ∈ a.entries := by
      rw [h.entries_eq, hall]
      exact mem_expandLines.mpr ⟨cs, hnumber, Line.mem_expansion.mpr ⟨i, is, hi, hexpand, hj⟩⟩
    exact h.plain_of_mem_entries herrors hmem

end Assembly.Describes

/-- A line has a directive if the first character of its body that divides no tokens is a dot. -/
theorem Line.isDirective_iff {l : Line} :
    l.IsDirective ↔ l.body.find? (!isSeparator ·) = some '.' := by
  rw [← Text.head?_words, ← Text.map_text_tokens l.bodyStart, IsDirective, tokens]
  cases Text.tokens isSeparator l.bodyStart l.body with
  | nil => simp
  | cons first rest => simp [Scan.isDirective]

/-- **A line says the same in its new layout**, if its label is a label name and the texts of its
instruction are plain. -/
theorem Layout.alike_line {cs : List Char} (indent : Nat)
    (hlabel : ∀ name, (Line.read cs).label? = some name → Label.isValid name.text = true)
    (hplain : ∀ i, (Line.read cs).instruction? = some i → i.Plain) :
    (Line.read cs).Alike (Line.read (line indent cs)) := by
  obtain ⟨hsame, hbody⟩ := read_line indent hlabel
  refine ⟨.inr hsame.symm, ?_⟩
  by_cases hdirective : (Line.read cs).IsDirective
  · refine .inl ⟨hdirective, ?_⟩
    rw [Line.isDirective_iff] at hdirective ⊢
    rw [hbody.find?, find?_squeeze (by decide) hdirective]
  · right
    rw [Line.tokens, Line.tokens, Text.map_text_tokens, Text.map_text_tokens, hbody.words,
      words_squeeze]
    rw [← Text.map_text_tokens (Line.read cs).bodyStart]
    show ∀ w ∈ (Line.read cs).tokens.map Text.Token.text, Plain w
    cases htokens : (Line.read cs).tokens with
    | nil => simp
    | cons first rest =>
      have hfirst : Scan.isDirective first.text = false :=
        Bool.eq_false_iff.mpr fun h ↦ hdirective ⟨first, by simp [htokens], h⟩
      refine hplain { mnemonic := first.text, args := rest.map Text.Token.text } ?_
      simp [Line.instruction?, htokens, Instruction.ofTokens?, hfirst]

/-! ## The whole source

An assembly depends on the source only in what its lines say.  That its diagnostics are on the same
lines is what is left of them when the columns change. -/

/-- The lines of a source in its new layout are its lines, each in its new form. -/
theorem splitLines_reformat {o : Options} {source : String} {a : Assembly}
    (h : assemble o source = some a) :
    Text.splitLines a.reformat.toList =
      (Text.splitLines source.toList).map (Layout.line (Layout.labelWidth a.labels + 2)) := by
  rw [Assembly.reformat, (assemble_describes h).source, String.toList_ofList,
    Text.splitLines_joinLines]
  · simpa using Text.splitLines_ne_nil _
  · intro l hl
    obtain ⟨cs, hcs, rfl⟩ := List.mem_map.mp hl
    exact Layout.lineFeed_not_mem_line _ (Text.not_mem_of_mem_splitLines hcs)

/-- Each line of a source without errors says the same in its new layout. -/
theorem alike_reformat {o : Options} {source : String} {a : Assembly}
    (h : assemble o source = some a) (herrors : a.hasErrors = false) :
    List.Forall₂ (fun cs ds ↦ (Line.read cs).Alike (Line.read ds))
      (Text.splitLines source.toList) (Text.splitLines a.reformat.toList) := by
  have hdescribes := assemble_describes h
  obtain ⟨labels, -, -, -, -, hscan, -⟩ := assemble_cases h
  have hscanErrors : a.scan.hasErrors = false := by
    rw [a.hasErrors_eq, Bool.or_eq_false_iff] at herrors
    exact herrors.1
  rw [splitLines_reformat h, List.forall₂_map_right_iff, List.forall₂_same]
  intro cs hcs
  exact Layout.alike_line _ (Scan.isValid_of_ofLines hscan hscanErrors cs hcs) fun i hi ↦
    hdescribes.plain_of_instruction? herrors hcs hi

theorem Diagnostic.lines_of_coarse {ds ds' : Array Diagnostic}
    (h : ds.map coarse = ds'.map coarse) :
    ds.map (·.range.start.line) = ds'.map (·.range.start.line) := by
  have hlines := congrArg (Array.map (·.range.start.line)) h
  rwa [Array.map_map, Array.map_map] at hlines

/-- **Layout keeps the meaning.**  A source that is assembled without errors is assembled without
errors in its new layout, to the same listing, words, labels, relocations, lines of labels and lines
of addresses.  What there is to warn of is on the same lines, in the same order. -/
theorem layout_preserves_meaning (o : Options) (source : String) (a : Assembly)
    (h : assemble o source = some a) (herrors : a.hasErrors = false) :
    ∃ text a', reformat o source = some text ∧ assemble o text = some a' ∧
      a'.hasErrors = false ∧ a'.listing = a.listing ∧ a'.words = a.words ∧
      a'.hexText = a.hexText ∧ a'.labels = a.labels ∧ a'.relocations = a.relocations ∧
      a'.scan.labelLines = a.scan.labelLines ∧ a'.addressMap = a.addressMap ∧
      a'.diagnostics.map (·.range.start.line) = a.diagnostics.map (·.range.start.line) := by
  have hcoarse := assemble_coarse (o := o) (alike_reformat h herrors)
  rw [h, Option.map_some, eq_comm, Option.map_eq_some_iff] at hcoarse
  obtain ⟨a', ha', hsame⟩ := hcoarse
  obtain ⟨hscan, himage⟩ := Prod.mk.inj hsame
  have hplacements : a'.image.placements = a.image.placements :=
    (congrArg Image.placements himage :)
  have hwords : a'.words = a.words := by rw [Assembly.words, hplacements, Assembly.words]
  refine ⟨a.reformat, a', by rw [reformat, h, Option.map_some], ha', ?_,
    (congrArg Scan.listing hscan :), hwords, ?_, (congrArg Scan.labels hscan :),
    (congrArg Image.relocations himage :), (congrArg Scan.labelLines hscan :), ?_, ?_⟩
  · rw [a'.hasErrors_eq, Scan.hasErrors_eq_of_coarse hscan, Image.hasErrors_eq_of_coarse himage,
      ← a.hasErrors_eq, herrors]
  · rw [Assembly.hexText, hwords, Assembly.hexText]
  · rw [Assembly.addressMap, hplacements, Assembly.addressMap]
  · apply Diagnostic.lines_of_coarse
    rw [Assembly.diagnostics, Assembly.diagnostics, Array.map_append, Array.map_append]
    exact congr (congrArg _ (congrArg Scan.diagnostics hscan))
      (congrArg Image.diagnostics himage)

/-- A source with margins around a label, a directive with blanks that divide no tokens, commas, a
carriage return and a comment has a warning on its second line, before and after. -/
theorem layout_preserves_meaning_mixed :
    let source := "\tx :  li $t0,70000 # big \r\n.word\u00A01,\u00A02\nbeq $t0 $0 x\r\n\ny:j   z"
    let text := "x : li $t0,70000 # big\n.word 1, 2\n   beq $t0 $0 x\n\ny: j z"
    ∃ a a', assemble {} source = some a ∧ a.hasErrors = false ∧ reformat {} source = some text ∧
      assemble {} text = some a' ∧ a'.hasErrors = false ∧ a.words.size = 4 ∧ a'.words = a.words ∧
      a.diagnostics.map (·.range.start.line) = #[1] ∧
      a'.diagnostics.map (·.range.start.line) = #[1] := by
  intro source text
  have hrun : (assemble {} source).map (fun a ↦
      (a.hasErrors, a.words.size, a.diagnostics.map (·.range.start.line), a.reformat)) =
      some (false, 4, #[1], text) := by
    decide +kernel
  obtain ⟨a, ha, hparts⟩ := Option.map_eq_some_iff.mp hrun
  simp only [Prod.mk.injEq] at hparts
  obtain ⟨herrors, hsize, hlines, hlayout⟩ := hparts
  have htext : reformat {} source = some text := by rw [reformat, ha, Option.map_some, hlayout]
  obtain ⟨text', a', hreformat, ha', herrors', -, hwords, -, -, -, -, -, hlines'⟩ :=
    layout_preserves_meaning {} source a ha herrors
  obtain rfl := Option.some.inj (htext.symm.trans hreformat)
  exact ⟨a, a', ha, herrors, htext, ha', herrors', hsize, hwords, hlines, hlines'.trans hlines⟩

end MipsAsm
