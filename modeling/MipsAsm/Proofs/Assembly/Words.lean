import MipsAsm.Command.FileTree
import MipsAsm.Proofs.Assembly.Basic
import MipsAsm.Proofs.Command.Basic
import MipsAsm.Proofs.Text.Digits

/-!
# No instruction is lost

Words can drop out at three places: an instruction cannot be expanded, one of the instructions it
stands for cannot be encoded, or there is nothing to encode at all.  What is left is accounted for.
Each line of the listing has a word or a diagnostic, and each instruction of the source has all of
its words or an error on its own line.

An assembler that drops an instruction without a word about it is worse than one that fails, so the
three places are gone through one by one.  In the first pass, an instruction that cannot be expanded
adds nothing to the listing, and there is an error on its line.  In the second, a line of the
listing that cannot be encoded adds no word, and there is an error on the source line that it comes
from.  The numbers of the two passes are tied together by the origins, which say from which source
line a line of the listing comes.

What the command writes is part of the result.  It writes files only if there are no errors, and
this is stated without a file system: where there are errors, the command does the same with any two
systems that differ only in how files and the standard output are written.

* `Assembly.Describes.words_eq` — the words are those of the lines of the listing that have one.
* `Assembly.Describes.length_entries` — each line of the listing has a word or a diagnostic.
* `Assembly.Describes.words_of_line` — the words from one source line are those of the instructions
  that it stands for, if there is no error on it.
* `no_instruction_lost` — all of that together, and what the command to assemble makes of it.
-/

set_option autoImplicit false

namespace MipsAsm

namespace Image

variable {o : Options} {labels : SymbolTable} {entry : (Nat × Instruction) × Nat}

theorem line_of_placement? {p : Placement} (h : placement? o labels entry = some p) :
    p.line = entry.1.1 := by
  rw [placement?] at h
  split at h
  · obtain rfl := Option.some.inj h
    rfl
  · cases h

/-- Of the words of some instructions those from other lines can be left out. -/
theorem filter_line_of_ne {number : Nat} {entries : List ((Nat × Instruction) × Nat)}
    (h : ∀ e ∈ entries, e.1.1 ≠ number) :
    (entries.filterMap (placement? o labels)).filter (·.line = number) = [] := by
  refine List.filter_eq_nil_iff.mpr fun p hp ↦ ?_
  obtain ⟨e, he, hplaced⟩ := List.mem_filterMap.mp hp
  rw [decide_eq_true_eq, line_of_placement? hplaced]
  exact h e he

theorem filter_line_of_eq {number : Nat} {entries : List ((Nat × Instruction) × Nat)}
    (h : ∀ e ∈ entries, e.1.1 = number) :
    (entries.filterMap (placement? o labels)).filter (·.line = number) =
      entries.filterMap (placement? o labels) := by
  refine List.filter_eq_self.mpr fun p hp ↦ ?_
  obtain ⟨e, he, hplaced⟩ := List.mem_filterMap.mp hp
  rw [decide_eq_true_eq, line_of_placement? hplaced]
  exact h e he

end Image

namespace Assembly

variable {o : Options} {a : Assembly}

/-! ## Words and lines of the listing

The words are counted by the lines of the listing.  A line has an outcome, which is a word or a
diagnostic, so where there is no error every line has a word and the words stand at the places of
their lines. -/

namespace Describes

variable {lines : List (List Char)}

/-- **The words are those of the lines of the listing**, in order. -/
theorem words_eq (h : a.Describes o lines) (hall : a.image.read = a.entries.length) :
    a.words.toList = (List.range a.entries.length).filterMap (a.wordAt? o) := by
  have hplacements := h.image.placements
  rw [hall, List.take_length] at hplacements
  rw [words, Array.toList_map, hplacements, filterMap_zipIdx, List.map_filterMap]
  exact List.filterMap_congr fun k _ ↦ (h.wordAt?_eq k).symm

/-- **Each line of the listing has a word or a diagnostic.** -/
theorem length_entries (h : a.Describes o lines) (hall : a.image.read = a.entries.length) :
    a.entries.length = a.words.size + a.image.diagnostics.size := by
  have hplacements := h.image.placements
  have hdiagnostics := h.image.diagnostics
  rw [hall, List.take_length] at hplacements hdiagnostics
  rw [words, Array.size_map, ← Array.length_toList, ← Array.length_toList, hplacements,
    hdiagnostics, ← Image.length_eq_add, List.length_zipIdx]

theorem isError_of_mem_diagnostics (h : a.Describes o lines) {d : Diagnostic}
    (hd : d ∈ a.image.diagnostics) : d.isError = true := by
  rw [← Array.mem_toList_iff, h.image.diagnostics] at hd
  obtain ⟨e, -, he⟩ := List.mem_filterMap.mp hd
  exact (Image.error_of_diagnostic? he).1

/-- Without errors, the first pass has read the whole source. -/
theorem lines_eq (h : a.Describes o lines) (herrors : a.hasErrors = false) :
    a.scan.lines = lines.length := by
  rw [a.hasErrors_eq, Bool.or_eq_false_iff] at herrors
  refine h.scanned.resolve_right fun hstop ↦ ?_
  rw [herrors.1] at hstop
  exact Bool.false_ne_true hstop.2

/-- Without errors, each instruction of the source can be expanded. -/
theorem exists_expand (h : a.Describes o lines) (herrors : a.hasErrors = false) {number : Nat}
    {cs : List Char} (hcs : lines[number]? = some cs) {i : Instruction}
    (hi : (Line.read cs).instruction? = some i) : ∃ is, i.expand = .ok is := by
  cases hexpand : i.expand with
  | ok is => exact ⟨is, rfl⟩
  | error e =>
    obtain ⟨d, hd, herror, -⟩ := Line.exists_remark hi hexpand number
    have hread : (lines.take a.scan.lines)[number]? = some cs := by
      rw [h.lines_eq herrors, List.take_length, hcs]
    have hscan : a.scan.hasErrors = true :=
      Array.any_eq_true'.mpr ⟨d, h.scan.remarks number cs hread d hd, herror⟩
    rw [a.hasErrors_eq, hscan] at herrors
    cases herrors

/-- Without errors, the second pass has read the whole listing. -/
theorem read_eq (h : a.Describes o lines) (herrors : a.hasErrors = false) :
    a.image.read = a.entries.length := by
  refine h.placed.resolve_right fun hstop ↦ ?_
  rw [herrors] at hstop
  exact Bool.false_ne_true hstop.2

/-- Without errors, the second pass has nothing to say. -/
theorem diagnostics_eq_empty (h : a.Describes o lines) (herrors : a.hasErrors = false) :
    a.image.diagnostics = #[] := by
  rw [a.hasErrors_eq, Bool.or_eq_false_iff, Image.hasErrors, Array.any_eq_false'] at herrors
  refine Array.eq_empty_iff_forall_not_mem.mpr fun d hd ↦ ?_
  exact herrors.2 d hd (h.isError_of_mem_diagnostics hd)

/-- Without errors, each instruction of the listing has a word. -/
theorem exists_outcome (h : a.Describes o lines) (herrors : a.hasErrors = false) {k : Nat}
    {e : Nat × Instruction} (he : a.entries[k]? = some e) :
    ∃ word, Image.outcome o a.labels k e.2.reread = .ok word := by
  have hmem : (e, k) ∈ a.entries.zipIdx := List.mk_mem_zipIdx_iff_getElem?.mpr he
  have hdiagnostics := h.image.diagnostics
  rw [h.read_eq herrors, List.take_length, h.diagnostics_eq_empty herrors] at hdiagnostics
  obtain ⟨p, hp, -⟩ | ⟨d, -, hd⟩ := Image.placement?_or_diagnostic? o a.source a.labels (e, k)
  · rw [Image.placement?] at hp
    split at hp
    · rename_i word hword
      exact ⟨word, hword⟩
    · cases hp
  · have hsome : d ∈ a.entries.zipIdx.filterMap (Image.diagnostic? o a.source a.labels) :=
      List.mem_filterMap.mpr ⟨(e, k), hmem, hd⟩
    rw [← hdiagnostics] at hsome
    cases hsome

/-- Without errors, there are as many words as lines of the listing. -/
theorem size_words (h : a.Describes o lines) (herrors : a.hasErrors = false) :
    a.words.size = a.entries.length := by
  rw [h.length_entries (h.read_eq herrors), h.diagnostics_eq_empty herrors, Array.size_empty,
    Nat.add_zero]

/-- Without errors, the words stand at the places of their lines. -/
theorem getElem?_words (h : a.Describes o lines) (herrors : a.hasErrors = false) {k : Nat}
    (hk : k < a.entries.length) : a.words.toList[k]? = a.wordAt? o k := by
  have hword : ∀ j ∈ List.range a.entries.length, ∃ word, a.wordAt? o j = some word := by
    intro j hj
    have he := List.getElem?_eq_getElem (List.mem_range.mp hj)
    obtain ⟨word, hword⟩ := h.exists_outcome herrors he
    rw [wordAt?, h.instructionAt?_eq, he, Option.map_some, Option.bind_some, hword]
    exact ⟨word, rfl⟩
  have hall := congrArg (fun words ↦ words[k]?) (map_some_filterMap hword id)
  simp only [← h.words_eq (h.read_eq herrors), List.getElem?_map, List.getElem?_range hk,
    Option.map_some, Option.map_id, id] at hall
  obtain ⟨word, hat, hsome⟩ := Option.map_eq_some_iff.mp hall
  rw [hat, hsome]

/-! ## Words and lines of the source

A source line has the lines of the listing that its instruction stands for, and they stand together,
behind those of the lines before.  So the words that come from a line are found by cutting the
listing in three. -/

variable {number : Nat} {cs : List Char}

/-- The lines of the listing that come from a source line, after those from the lines before it. -/
theorem getElem?_entries (h : a.Describes o lines) (hscanned : a.scan.lines = lines.length)
    (hcs : lines[number]? = some cs) {j : Nat} (hj : j < (Line.read cs).expansion.length) :
    a.entries[(expandLines (lines.take number)).length + j]? =
      (Line.read cs).expansion[j]?.map fun i ↦ (number, i) := by
  obtain ⟨rest, hsplit, -, -⟩ := expandLines_around hcs
  rw [h.entries_eq, hscanned, List.take_length, hsplit, List.append_assoc,
    List.getElem?_append_right (Nat.le_add_right _ _), Nat.add_sub_cancel_left,
    List.getElem?_append_left (by rwa [List.length_map]), List.getElem?_map]

/-- The words from a source line are those of the lines of the listing that come from it. -/
theorem filter_placements (h : a.Describes o lines) (hscanned : a.scan.lines = lines.length)
    (hall : a.image.read = a.entries.length) (hcs : lines[number]? = some cs) :
    a.image.placements.toList.filter (·.line = number) =
      (((Line.read cs).expansion.map fun i ↦ (number, i)).zipIdx
        (expandLines (lines.take number)).length).filterMap (Image.placement? o a.labels) := by
  obtain ⟨rest, hsplit, hbefore, hafter⟩ := expandLines_around hcs
  rw [h.image.placements, hall, List.take_length, h.entries_eq, hscanned, List.take_length, hsplit,
    List.zipIdx_append, List.zipIdx_append, List.filterMap_append, List.filterMap_append,
    List.filter_append, List.filter_append, Nat.zero_add]
  rw [Image.filter_line_of_ne fun e he ↦
      Nat.ne_of_lt (hbefore e.1 (List.fst_mem_of_mem_zipIdx he)),
    Image.filter_line_of_ne fun e he ↦
      Nat.ne_of_gt (hafter e.1 (List.fst_mem_of_mem_zipIdx he)),
    Image.filter_line_of_eq fun e he ↦ ?_, List.nil_append, List.append_nil]
  obtain ⟨i, -, heq⟩ := List.mem_map.mp (List.fst_mem_of_mem_zipIdx he)
  rw [← heq]

/-- A diagnostic of an instruction from a source line is one of the second pass. -/
theorem mem_diagnostics (h : a.Describes o lines) (hscanned : a.scan.lines = lines.length)
    (hall : a.image.read = a.entries.length) (hcs : lines[number]? = some cs)
    {e : (Nat × Instruction) × Nat}
    (he : e ∈ ((Line.read cs).expansion.map fun i ↦ (number, i)).zipIdx
      (expandLines (lines.take number)).length)
    {d : Diagnostic} (hd : Image.diagnostic? o a.source a.labels e = some d) :
    d ∈ a.image.diagnostics := by
  obtain ⟨rest, hsplit, -, -⟩ := expandLines_around hcs
  rw [← Array.mem_toList_iff, h.image.diagnostics, hall, List.take_length, h.entries_eq, hscanned,
    List.take_length, hsplit, List.zipIdx_append, List.zipIdx_append, Nat.zero_add]
  refine List.mem_filterMap.mpr ⟨e, ?_, hd⟩
  exact List.mem_append_left _ (List.mem_append_right _ he)

/-- **The words from one source line** are those of the instructions that it stands for, each of
which has one, if there is no error on the line. -/
theorem words_of_line (h : a.Describes o lines) (hscanned : a.scan.lines = lines.length)
    (hall : a.image.read = a.entries.length) (hcs : lines[number]? = some cs) :
    (a.image.placements.toList.filter (·.line = number)).map (fun p ↦ some p.word) =
        (List.range (Line.read cs).expansion.length).map
          (fun j ↦ a.wordAt? o ((expandLines (lines.take number)).length + j)) ∨
      ∃ d ∈ a.image.diagnostics, d.isError = true ∧ d.range.start.line = number := by
  by_cases hplaced : ∀ e ∈ ((Line.read cs).expansion.map fun i ↦ (number, i)).zipIdx
      (expandLines (lines.take number)).length, ∃ p, Image.placement? o a.labels e = some p
  · left
    rw [h.filter_placements hscanned hall hcs, map_some_filterMap hplaced]
    refine List.ext_getElem? fun j ↦ ?_
    rw [List.getElem?_map, List.getElem?_map, List.getElem?_zipIdx]
    by_cases hj : j < (Line.read cs).expansion.length
    · rw [List.getElem?_range hj, Option.map_some, h.wordAt?_eq, h.getElem?_entries hscanned hcs hj,
        List.getElem?_map, List.getElem?_eq_getElem hj]
      rfl
    · rw [List.getElem?_eq_none (by rw [List.length_map]; omega),
        List.getElem?_eq_none (by rw [List.length_range]; omega)]
      rfl
  · right
    obtain ⟨e, he⟩ := Classical.not_forall.mp hplaced
    rw [Classical.not_imp] at he
    obtain ⟨hmem, hnone⟩ := he
    obtain ⟨p, hp, -⟩ | ⟨d, -, hd⟩ := Image.placement?_or_diagnostic? o a.source a.labels e
    · exact absurd ⟨p, hp⟩ hnone
    · obtain ⟨i, -, heq⟩ := List.mem_map.mp (List.fst_mem_of_mem_zipIdx hmem)
      obtain ⟨herror, hline⟩ := Image.error_of_diagnostic? hd
      refine ⟨d, h.mem_diagnostics hscanned hall hcs hmem hd, herror, ?_⟩
      rw [hline, ← heq]

end Describes

/-- The words as text are lines of eight digits each. -/
theorem hexText_digits (a : Assembly) :
    ∃ digits : List (List Char), a.hexText.toList = digits.flatMap (· ++ ['\n']) ∧
      List.Forall₂ (fun ds w ↦ ds.length = 8 ∧ (∀ c ∈ ds, c ∈ Text.lowerHexDigits) ∧
        Literal.readDigits 16 0 ds = .ok w.toNat) digits a.words.toList := by
  refine ⟨a.words.toList.map Text.hexWordDigits, ?_, ?_⟩
  · rw [hexText, String.toList_join, List.flatMap_map, List.flatMap_map]
    refine List.flatMap_congr fun w _ ↦ ?_
    rw [String.toList_append, Text.hexWord, String.toList_ofList]
    rfl
  · rw [List.forall₂_map_left_iff, List.forall₂_same]
    exact fun w _ ↦ ⟨Text.length_hexWordDigits w, fun c hc ↦ Text.hexWordDigits_mem hc,
      Literal.readDigits_hexWordDigits w⟩

end Assembly

theorem Line.expansion_of_expand {l : Line} {i : Instruction} {is : List Instruction}
    (hi : l.instruction? = some i) (his : i.expand = .ok is) : l.expansion = is := by
  rw [expansion, hi, Option.map_some, his]

/-- **No instruction is lost silently.**  Without the option to stop, the words of an assembly are
those of the lines of its listing that can be encoded, in order, and every other line of the listing
has a diagnostic.  The words as text are lines of eight digits, from which they can be read back.
An instruction on a source line either has all the words of the instructions it stands for, or there
is an error on its line.  So without errors each line of the listing has its word.  That is the only
case in which the command to assemble writes anything: where it does not hold, a change of how files
and the standard output are written makes no difference. -/
theorem no_instruction_lost (o : Options) (source : String) (a : Assembly)
    (h : assemble o source = some a) (hstop : o.stopOnFirstError = false) :
    a.words.toList =
      (List.range (Image.listingLines a.listing).length).filterMap (a.wordAt? o) ∧
    (Image.listingLines a.listing).length = a.words.size + a.image.diagnostics.size ∧
    (∃ digits : List (List Char), a.hexText.toList = digits.flatMap (· ++ ['\n']) ∧
      List.Forall₂ (fun ds w ↦ ds.length = 8 ∧ (∀ c ∈ ds, c ∈ Text.lowerHexDigits) ∧
        Literal.readDigits 16 0 ds = .ok w.toNat) digits a.words.toList) ∧
    (∀ number cs i, (Text.splitLines source.toList)[number]? = some cs →
      (Line.read cs).instruction? = some i →
      let first := (expandLines ((Text.splitLines source.toList).take number)).length
      (∃ is, i.expand = .ok is ∧
        (∀ j < is.length, a.instructionAt? (first + j) = is[j]?.map Instruction.reread) ∧
        (a.image.placements.toList.filter (·.line = number)).map (fun p ↦ some p.word) =
          (List.range is.length).map fun j ↦ a.wordAt? o (first + j)) ∨
      ∃ d ∈ a.diagnostics, d.isError = true ∧ d.range.start.line = number) ∧
    (a.hasErrors = false → a.words.size = (Image.listingLines a.listing).length) ∧
    ∀ (σ : Type) (system system' : Command.System (StateM σ)) (settings : Settings)
      (arguments : Command.Arguments) (path : String) (s : σ),
      system'.read = system.read → system'.printError = system.printError →
      (Command.assembleFile system settings arguments path).run s ≠
        (Command.assembleFile system' settings arguments path).run s →
      ∃ text s' b, (system.read path).run s = (.ok text, s') ∧
        assemble settings.options text = some b ∧ b.hasErrors = false ∧
        b.words.size = (Image.listingLines b.listing).length := by
  have hdescribes := assemble_describes h
  have hgo : ∀ {p : Prop}, ¬(o.stopOnFirstError = true ∧ p) := fun hp ↦ by
    rw [hstop] at hp
    exact Bool.false_ne_true hp.1
  have hscanned := hdescribes.scanned.resolve_right hgo
  have hall := hdescribes.placed.resolve_right hgo
  rw [hdescribes.length_listingLines]
  refine ⟨hdescribes.words_eq hall, hdescribes.length_entries hall, a.hexText_digits, ?_,
    hdescribes.size_words, ?_⟩
  · intro number cs i hcs hi first
    cases hexpand : i.expand with
    | error e =>
      right
      obtain ⟨d, hd, herror, hline⟩ := Line.exists_remark hi hexpand number
      refine ⟨d, Array.mem_append_left _ ?_, herror, hline⟩
      refine hdescribes.scan.remarks number cs ?_ d hd
      rw [hscanned, List.take_length, hcs]
    | ok is =>
      have his := Line.expansion_of_expand hi hexpand
      obtain hwords | ⟨d, hd, herror, hline⟩ := hdescribes.words_of_line hscanned hall hcs
      · refine .inl ⟨is, rfl, fun j hj ↦ ?_, his ▸ hwords⟩
        rw [hdescribes.instructionAt?_eq, hdescribes.getElem?_entries hscanned hcs (his ▸ hj), his,
          Option.map_map]
        rfl
      · exact .inr ⟨d, Array.mem_append_right _ hd, herror, hline⟩
  · intro σ system system' settings arguments path s hread hprint hwrites
    obtain ⟨text, s', b, htext, hb, hcount⟩ :=
      Command.assembleFile_writes_only_without_errors hread hprint hwrites
    have herrors : b.hasErrors = false := by
      rw [Assembly.hasErrors, Array.any_eq_false']
      exact Array.countP_eq_zero.mp hcount
    have hdescribes := assemble_describes hb
    refine ⟨text, s', b, htext, hb, herrors, ?_⟩
    rw [hdescribes.length_listingLines, hdescribes.size_words herrors]

/-- Two lines with all their words, an instruction that cannot be expanded and two that cannot be
encoded; and a file without errors, of which the command prints the words. -/
theorem no_instruction_lost_mixed :
    ∃ a, assemble {} "li $t0, 100000\nfoo 1\npush\naddu $t0, $t1, $t2\nbeq $0, $0, nowhere" =
        some a ∧
      (List.range 5).filterMap (a.wordAt? {}) = [0x3c010001, 0x342886a0, 0x012a4021] ∧
      a.image.diagnostics.size = 2 ∧
      (∃ d ∈ a.diagnostics, d.isError = true ∧ d.range.start.line = 2) ∧
      (Command.assembleFile Command.FileTree.system {} .empty "a.s").run
          (.ofList [] [("a.s", "jr $ra")]) ≠
        (Command.assembleFile { Command.FileTree.system with print := fun _ ↦ pure () } {} .empty
          "a.s").run (.ofList [] [("a.s", "jr $ra")]) ∧
      ∃ text s' b, (Command.FileTree.system.read "a.s").run (.ofList [] [("a.s", "jr $ra")]) =
          (.ok text, s') ∧ assemble {} text = some b ∧ b.hasErrors = false ∧
        b.words.size = (Image.listingLines b.listing).length := by
  have hrun : (assemble {}
      "li $t0, 100000\nfoo 1\npush\naddu $t0, $t1, $t2\nbeq $0, $0, nowhere").map
        (fun a ↦ (a.words.toList, (Image.listingLines a.listing).length)) =
      some ([0x3c010001, 0x342886a0, 0x012a4021], 5) := by
    decide +kernel
  obtain ⟨a, ha, hrun⟩ := Option.map_eq_some_iff.mp hrun
  obtain ⟨hwords, hlength⟩ := Prod.mk.inj hrun
  obtain ⟨hencoded, hcount, -, hlines, -, hcommand⟩ := no_instruction_lost {} _ a ha rfl
  rw [hlength] at hencoded hcount
  have hsize : a.words.size = 3 := by rw [← Array.length_toList, hwords]; rfl
  refine ⟨a, ha, hencoded.symm.trans hwords, by omega, ?_, ?_⟩
  · -- the operand of `push` is missing on line 2
    rcases hlines 2 "push".toList ⟨"push", []⟩ (by decide +kernel) (by decide +kernel) with
      ⟨is, his, -⟩ | herror
    · cases his
    · exact herror
  · have hwrites : (Command.assembleFile Command.FileTree.system {} .empty "a.s").run
        (.ofList [] [("a.s", "jr $ra")]) ≠
        (Command.assembleFile { Command.FileTree.system with print := fun _ ↦ pure () } {} .empty
          "a.s").run (.ofList [] [("a.s", "jr $ra")]) := by
      intro heq
      exact absurd (congrArg (fun r ↦ r.2.output) heq) (by decide +kernel)
    refine ⟨hwrites, hcommand _ _ _ {} .empty "a.s" _ ?_ ?_ hwrites⟩
    · rfl
    · rfl

end MipsAsm
