import MipsAsm.Proofs.Assembly.Labels
import MipsAsm.Proofs.Assembly.Relocations

/-!
# Joining two sources

Two sources are joined by putting one below the other.  What the assembler makes of the whole can be
read off what it makes of the parts, if the second part is assembled at the address at which it will
stand.  The parts know nothing of each other but for the labels: a label that the first part defines
is taken from it, and a branch finds the labels of both.

The sources are joined with a line feed between them, so that the lines of the whole are the lines
of the parts, and the steps are about lists of lines.

A label that both parts define belongs to the first, and what the second part says of it is an error
in the whole.  So the labels of the whole are not those of the parts, but those of the first and the
rest of the second.  The words are those of the parts only if no branch looks at a label that the
other part defines.  A branch within its own part has the same distance in the whole, because the
second part is assembled at the address at which it stands there.

Everything is derived from what is known of the three assemblies (`Assembly.OfAll`), and the passes
are not opened again.

* `expandLines_append`, `isFirstLabel_append` — instructions and first definitions of joined lines.
* `Instruction.encode_congr_labels` — an instruction reads one label at most, that of a branch.
* `Assembly.Joins` — the three assemblies that are compared.
* `assembly_is_compositional` — listing, labels, records and words of the whole.
-/

set_option autoImplicit false

namespace MipsAsm

/-! ## Lines below other lines

The first pass makes nothing of a line from what follows it, so the lines of the first part keep
what they have.  Those of the second have it at numbers that are larger by the length of the first
part, and a label that the first part has as well is not first there any more. -/

/-- The instructions of joined lines are those of the first lines and then those of the others, with
the numbers that their lines have below the first. -/
theorem expandLines_append (xs ys : List (List Char)) :
    expandLines (xs ++ ys) =
      expandLines xs ++ (expandLines ys).map fun e ↦ (xs.length + e.1, e.2) := by
  induction ys using List.reverseRecOn with
  | nil => simp
  | append_singleton ys cs ih =>
    rw [← List.append_assoc, expandLines_concat, ih, expandLines_concat]
    simp [Function.comp_def]

section

variable {xs ys : List (List Char)} {name : String} {n : Nat}

theorem labelAt_append_left (h : n < xs.length) :
    LabelAt (xs ++ ys) n name ↔ LabelAt xs n name := by
  rw [LabelAt, LabelAt, List.getElem?_append_left h]

theorem labelAt_append_right (n : Nat) :
    LabelAt (xs ++ ys) (xs.length + n) name ↔ LabelAt ys n name := by
  rw [LabelAt, LabelAt, List.getElem?_append_right (Nat.le_add_right _ _),
    Nat.add_sub_cancel_left]

/-- The first line with a label is one of the first lines, or the label is on none of them. -/
theorem isFirstLabel_append :
    IsFirstLabel (xs ++ ys) name n ↔
      IsFirstLabel xs name n ∨
        (∀ m, ¬LabelAt xs m name) ∧ ∃ m, n = xs.length + m ∧ IsFirstLabel ys name m := by
  constructor
  · rintro ⟨hlabel, hfirst⟩
    rcases Nat.lt_or_ge n xs.length with hlt | hge
    · refine .inl ⟨(labelAt_append_left hlt).mp hlabel, fun m hm hold ↦ hfirst m hm ?_⟩
      exact (labelAt_append_left (Nat.lt_trans hm hlt)).mpr hold
    · obtain ⟨m, rfl⟩ := Nat.exists_eq_add_of_le hge
      refine .inr ⟨fun l hl ↦ hfirst l ?_ ((labelAt_append_left hl.lt).mpr hl), m, rfl,
        (labelAt_append_right m).mp hlabel, fun l hl hold ↦ hfirst (xs.length + l) ?_ ?_⟩
      · have hlt := hl.lt
        omega
      · omega
      · exact (labelAt_append_right l).mpr hold
  · rintro (⟨hlabel, hfirst⟩ | ⟨hnew, m, rfl, hlabel, hfirst⟩)
    · refine ⟨(labelAt_append_left hlabel.lt).mpr hlabel, fun m hm hold ↦ hfirst m hm ?_⟩
      exact (labelAt_append_left (Nat.lt_trans hm hlabel.lt)).mp hold
    · refine ⟨(labelAt_append_right m).mpr hlabel, fun l hl hold ↦ ?_⟩
      rcases Nat.lt_or_ge l xs.length with hlt | hge
      · exact hnew l ((labelAt_append_left hlt).mp hold)
      · obtain ⟨k, rfl⟩ := Nat.exists_eq_add_of_le hge
        exact hfirst k (by omega) ((labelAt_append_right k).mp hold)

end

/-! ## What an instruction reads of the labels

Whether the words of the parts are words of the whole depends on what an instruction sees of the
table of labels, which is larger in the whole.  A jump leaves its label to the linker and looks up
nothing, and of the operands of a branch it is only the last that is looked up. -/

theorem Operand.value_of_ne_branchTarget {o : Operand} (h : o ≠ .branchTarget) (mnemonic : String)
    (symbols symbols' : Option SymbolTable) (address : UInt32) (arg : String) :
    o.value mnemonic symbols address arg = o.value mnemonic symbols' address arg := by
  cases o with
  | branchTarget => exact absurd rfl h
  | register field => rfl
  | number field lower upper => rfl
  | jumpTarget => rfl

theorem Mnemonic.branch_of_branchTarget_mem {m : Mnemonic}
    (h : Operand.branchTarget ∈ m.family.operands) :
    m.family = .branch ∧ (m.name = "beq" ∨ m.name = "bne") := by
  cases m <;> first | exact absurd h (by decide) | exact ⟨rfl, by decide⟩

namespace Instruction

/-- The label that a branch names. -/
def branchLabel? (i : Instruction) : Option String :=
  match i.args with
  | [_, _, label] => if i.mnemonic = "beq" ∨ i.mnemonic = "bne" then some label else none
  | _ => none

theorem branchLabel?_eq_some_iff {i : Instruction} {label : String} :
    i.branchLabel? = some label ↔
      (i.mnemonic = "beq" ∨ i.mnemonic = "bne") ∧ ∃ rs rt, i.args = [rs, rt, label] := by
  rw [branchLabel?]
  split
  · rename_i rs rt other hargs
    simp [hargs]
  · rename_i hargs
    simp only [reduceCtorEq, false_iff]
    rintro ⟨-, rs, rt, hthree⟩
    exact hargs rs rt label hthree

variable {i : Instruction} {address : UInt32} {t t' : SymbolTable}

/-- The target of a branch is the label that it names. -/
theorem branchLabel?_of_mem_pairOperands {m : Mnemonic} {arg : String}
    (hm : Mnemonic.ofName? i.mnemonic = some m) (hlength : i.args.length = m.family.arity)
    (h : (Operand.branchTarget, arg) ∈ m.family.pairOperands i.args) :
    i.branchLabel? = some arg := by
  have hzip := (m.family.pairOperands_perm i.args).mem_iff.mp h
  obtain ⟨hfamily, hname⟩ := Mnemonic.branch_of_branchTarget_mem (List.of_mem_zip hzip).1
  rw [hfamily] at hlength hzip
  obtain ⟨rs, rt, label, hargs⟩ := List.length_eq_three.mp hlength
  have harg : arg = label := by
    rw [hargs] at hzip
    simpa [Family.operands] using hzip
  rw [branchLabel?_eq_some_iff, ← Mnemonic.name_eq_of_ofName?_eq_some hm]
  exact ⟨hname, rs, rt, by rw [hargs, harg]⟩

theorem fieldValues_congr_labels {m : Mnemonic} (hm : Mnemonic.ofName? i.mnemonic = some m)
    (hlength : i.args.length = m.family.arity)
    (h : ∀ label, i.branchLabel? = some label → t.find? label = t'.find? label) :
    i.fieldValues m (some t) address = i.fieldValues m (some t') address := by
  have hvalue : ∀ oa ∈ m.family.pairOperands i.args,
      oa.1.value i.mnemonic (some t) address oa.2 =
        oa.1.value i.mnemonic (some t') address oa.2 := by
    rintro ⟨o, arg⟩ hoa
    by_cases ho : o = .branchTarget
    · subst ho
      have hfind := h arg (branchLabel?_of_mem_pairOperands hm hlength hoa)
      simp only [Operand.value, Option.bind_some, hfind]
    · exact Operand.value_of_ne_branchTarget ho _ _ _ _ _
  simp only [fieldValues]
  congr 1
  generalize m.family.pairOperands i.args = pairs at hvalue
  induction pairs with
  | nil => rfl
  | cons oa pairs ih =>
    rw [List.mapM_cons, List.mapM_cons, hvalue oa List.mem_cons_self,
      ih fun oa' hoa' ↦ hvalue oa' (List.mem_cons_of_mem _ hoa')]

theorem record_snd_symbols (limit : Int) (symbols symbols' relocations : Option SymbolTable)
    (f : Family) :
    (Tables.record limit { symbols, relocations } f i address).2 =
      (Tables.record limit { symbols := symbols', relocations } f i address).2 := by
  obtain ⟨label, rest, rfl, hargs⟩ | hnothing := record_cases limit i address f
  · cases relocations <;> simp [Tables.record, hargs]
  · rw [hnothing, hnothing]

theorem check_symbols (i : Instruction) (t t' : SymbolTable) (relocations : Option SymbolTable) :
    i.check { symbols := some t, relocations } = i.check { symbols := some t', relocations } := by
  have hmissing : ∀ f, Tables.missing? { symbols := some t, relocations } f =
      Tables.missing? { symbols := some t', relocations } f := by
    intro f
    cases f <;> cases relocations <;> rfl
  simp only [check, hmissing]

/-- **What becomes of an instruction** depends on the labels only where it is a branch, and then
only on the label that it names. -/
theorem encode_congr_labels (limit : Int) (relocations : Option SymbolTable)
    (h : ∀ label, i.branchLabel? = some label → t.find? label = t'.find? label) :
    (i.encode limit address { symbols := some t, relocations }).2 =
      (i.encode limit address { symbols := some t', relocations }).2 := by
  rw [encode, encode, check_symbols i t t']
  cases hm : i.check { symbols := some t', relocations } with
  | error e => rfl
  | ok m =>
    obtain ⟨hname, -, hlength, -⟩ := check_eq_ok_iff.mp hm
    simp only [fieldValues_congr_labels hname hlength h]
    cases i.fieldValues m (some t') address with
    | error e => rfl
    | ok values => simp only [record_snd_symbols limit (some t) (some t')]

end Instruction

/-! ## Positions below other instructions

The second part is assembled at a base address of its own, `Options.below`, and then each of its
instructions has the address that it has in the whole.  So the outcome at position `k` of the
part is that at position `n + k` of the whole, with no condition on `n`: addresses wrap around in
both. -/

theorem Image.addressOf_addressOf (base : UInt32) (m n : Nat) :
    addressOf (addressOf base m) n = addressOf base (m + n) :=
  (addressOf_add base m n).symm

/-- The options of a source that stands below `n` instructions. -/
def Options.below (n : Nat) (o : Options) : Options := { o with base := Image.addressOf o.base n }

theorem Options.addressOf_below (n k : Nat) (o : Options) :
    Image.addressOf (o.below n).base k = Image.addressOf o.base (n + k) :=
  Image.addressOf_addressOf o.base n k

/-- What stands below other lines has the positions after theirs. -/
theorem zipIdx_expandLines_append (xs ys : List (List Char)) :
    (expandLines (xs ++ ys)).zipIdx = (expandLines xs).zipIdx ++
      (expandLines ys).zipIdx.map fun e ↦
        ((xs.length + e.1.1, e.1.2), (expandLines xs).length + e.2) := by
  rw [expandLines_append, List.zipIdx_append, Nat.zero_add, List.zipIdx_map,
    List.zipIdx_eq_map_add (i := (expandLines xs).length), List.map_map]
  rfl

namespace Image

variable {o : Options} {labels labels' : SymbolTable}

theorem outcome_below (n k : Nat) (i : Instruction) :
    outcome (o.below n) labels k i = outcome o labels (n + k) i := by
  rw [outcome, outcome, Options.addressOf_below]
  rfl

theorem outcome_congr_labels {k : Nat} {i : Instruction}
    (h : ∀ label, i.branchLabel? = some label → labels.find? label = labels'.find? label) :
    outcome o labels k i = outcome o labels' k i :=
  Instruction.encode_congr_labels _ _ h

/-- The word of an instruction that came from a source line, if it has one. -/
def word? (o : Options) (labels : SymbolTable) (entry : (Nat × Instruction) × Nat) :
    Option UInt32 :=
  (outcome o labels entry.2 entry.1.2.reread).toOption

theorem map_word_placement? (entry : (Nat × Instruction) × Nat) :
    (placement? o labels entry).map Placement.word = word? o labels entry := by
  rw [placement?, word?]
  cases outcome o labels entry.2 entry.1.2.reread <;> rfl

/-- A branch is the only instruction whose record could depend on labels, and it has none. -/
theorem record?_congr_labels (o : Options) (labels labels' : SymbolTable)
    (entry : (Nat × Instruction) × Nat) : record? o labels entry = record? o labels' entry := by
  rw [record?, record?]
  by_cases hjump : entry.1.2.reread.IsJump
  · have hsame : outcome o labels entry.2 entry.1.2.reread =
        outcome o labels' entry.2 entry.1.2.reread := by
      refine outcome_congr_labels fun label hlabel ↦ ?_
      obtain ⟨hbranch, -⟩ := Instruction.branchLabel?_eq_some_iff.mp hlabel
      rcases hjump with hjump | hjump <;> simp [hjump] at hbranch
    rw [hsame]
  · have hnone : ∀ address, entry.1.2.reread.record? address = none := fun _ ↦ if_neg hjump
    simp [hnone]

end Image

/-! ## Assemblies of whole sources

A run that does not stop reads all lines, and at a base address that is a multiple of four it has
labels.  `Assembly.OfAll` is what such a run leaves, in terms of the lines alone, and is all that is
used of the three assemblies below. -/

namespace Assembly

/-- The names of the labels that are defined. -/
def labelNames (a : Assembly) : List String := a.labels.entries.toList.map Symbol.name

/-- The labels that the branches of the listing name. -/
def branchLabels (a : Assembly) : List String :=
  (Image.listingLines a.listing).filterMap fun cs ↦
    (Instruction.ofTokens? (Text.tokens Line.isSeparator 0 cs)).bind Instruction.branchLabel?

/-- The assembly of lines that were all read, at a base address that is a multiple of four. -/
structure OfAll (o : Options) (lines : List (List Char)) (a : Assembly) : Prop where
  /-- The first pass has found what the lines stand for. -/
  scan : a.scan.Describes o.base lines
  /-- The labels are the first definitions. -/
  labels : a.scan.LabelsOf lines
  /-- The lines of the listing are the instructions that the lines stand for. -/
  listingLines : Image.listingLines a.listing =
    (expandLines lines).map fun e ↦ e.2.text.toList
  /-- The instructions are spelled in tokens. -/
  wellSpelled : ∀ e ∈ expandLines lines, e.2.WellSpelled
  /-- The words are those of the instructions. -/
  words : a.words.toList = (expandLines lines).zipIdx.filterMap (Image.word? o a.labels)
  /-- The records are those of the instructions. -/
  relocations : a.relocations.entries.toList =
    (expandLines lines).zipIdx.filterMap (Image.record? o a.labels)

end Assembly

theorem assemble_ofAll {o : Options} {source : String} {a : Assembly}
    (hbase : o.base % 4 = 0) (hstop : o.stopOnFirstError = false)
    (h : assemble o source = some a) : a.OfAll o (Text.splitLines source.toList) := by
  have hdescribes := assemble_describes h
  have hgo : ∀ {p : Prop}, ¬(o.stopOnFirstError = true ∧ p) := fun hp ↦ by
    rw [hstop] at hp
    exact Bool.false_ne_true hp.1
  have hall := hdescribes.placed.resolve_right hgo
  have hentries := hdescribes.entries_eq
  have hscan := hdescribes.scan
  rw [hdescribes.scanned.resolve_right hgo, List.take_length] at hentries hscan
  obtain ⟨labels, -, hnew, -, -, hrun, -⟩ := assemble_cases h
  refine ⟨hscan, Scan.LabelsOf.ofLines hnew hbase hstop hrun, ?_, fun e he ↦ ?_, ?_, ?_⟩
  · rw [hdescribes.listingLines, hentries]
  · exact hdescribes.wellSpelled (hentries ▸ he)
  · have hplacements := hdescribes.image.placements
    rw [hall, List.take_length, hentries] at hplacements
    rw [Assembly.words, Array.toList_map, hplacements, List.map_filterMap]
    exact List.filterMap_congr fun e _ ↦ Image.map_word_placement? e
  · have hrecords := assemble_relocations h
    rwa [hall, List.take_length, hentries] at hrecords

namespace Assembly

variable {o : Options} {xs ys : List (List Char)} {a b c : Assembly}

namespace OfAll

theorem length_listingLines (h : a.OfAll o xs) :
    (Image.listingLines a.listing).length = (expandLines xs).length := by
  rw [h.listingLines, List.length_map]

theorem labelNames_eq (h : a.OfAll o xs) :
    a.labelNames = a.scan.labelLines.toList.map Prod.fst :=
  h.scan.map_labelLines.symm

/-- A label is defined if it is a label name and some line has it. -/
theorem mem_labelNames_iff (h : a.OfAll o xs) {name : String} :
    name ∈ a.labelNames ↔ Label.isValid name = true ∧ ∃ n, LabelAt xs n name := by
  rw [h.labelNames_eq, List.mem_map]
  constructor
  · rintro ⟨⟨name, n⟩, hmem, rfl⟩
    obtain ⟨hvalid, hfirst⟩ := (h.labels.mem_iff name n).mp hmem
    exact ⟨hvalid, n, hfirst.1⟩
  · rintro ⟨hvalid, n, hn⟩
    obtain ⟨m, hm⟩ := hn.exists_isFirstLabel
    exact ⟨(name, m), (h.labels.mem_iff name m).mpr ⟨hvalid, hm⟩, rfl⟩

theorem mem_branchLabels (h : a.OfAll o xs) {e : Nat × Instruction} (he : e ∈ expandLines xs)
    {label : String} (hlabel : e.2.reread.branchLabel? = some label) :
    label ∈ a.branchLabels := by
  rw [branchLabels, h.listingLines, List.filterMap_map, List.mem_filterMap]
  refine ⟨e, he, ?_⟩
  simp only [Function.comp_apply, Instruction.ofTokens?_text (h.wellSpelled e he),
    Option.bind_some, hlabel]

/-- The table of labels follows from the lines of labels. -/
theorem entries_labels (h : a.OfAll o xs) :
    a.labels.entries.toList = a.scan.labelLines.toList.map fun e ↦
      { name := e.1, address := Image.addressOf o.base (expandLines (xs.take e.2)).length } := by
  have hentries := h.scan.entries_labels
  simp only [h.scan.origins, countP_expandLines] at hentries
  exact hentries

theorem find?_labels (h : a.OfAll o xs) (label : String) :
    a.labels.find? label =
      (a.labels.entries.toList.find? (·.name == label)).map Symbol.address :=
  SymbolTable.find?_eq h.scan.wellFormed label

end OfAll

/-! ## The whole and its parts

Listing, labels and records need nothing but `Assembly.Joins`.  The words do need more: a branch in
one part to a label that only the other has is an error in the part and none in the whole, and a
label that both have is looked up in the first. -/

/-- The third assembly is that of the lines of the first and below them those of the second, which
is assembled at the address at which its lines stand there. -/
structure Joins (o : Options) (xs ys : List (List Char)) (a b c : Assembly) : Prop where
  /-- The first part. -/
  left : a.OfAll o xs
  /-- The second part. -/
  right : b.OfAll (o.below (expandLines xs).length) ys
  /-- The whole. -/
  whole : c.OfAll o (xs ++ ys)

namespace Joins

/-- **The listing** of the whole is that of the first part and that of the second. -/
theorem listing (h : Joins o xs ys a b c) : c.listing = a.listing ++ b.listing := by
  have ha : a.listing = _ := h.left.scan.listing
  have hb : b.listing = _ := h.right.scan.listing
  have hc : c.listing = _ := h.whole.scan.listing
  rw [ha, hb, hc, expandLines_append, List.map_append, Instruction.listing_append, List.map_map]
  rfl

/-- The labels of the whole are first on the lines on which those of the first part are, and then
on those of the other labels of the second part. -/
theorem labelLines (h : Joins o xs ys a b c) :
    c.scan.labelLines.toList = a.scan.labelLines.toList ++
      (b.scan.labelLines.toList.filter (·.1 ∉ a.labelNames)).map
        fun e ↦ (e.1, xs.length + e.2) := by
  refine eq_of_ascending h.whole.labels.ascending ?_ ?_
  · rw [List.pairwise_append]
    refine ⟨h.left.labels.ascending, ?_, ?_⟩
    · refine ((h.right.labels.ascending.filter _).map _ ?_)
      intro e e' hlt
      exact Nat.add_lt_add_left hlt _
    · rintro ⟨name, n⟩ hold e hnew
      obtain ⟨e', -, rfl⟩ := List.mem_map.mp hnew
      exact Nat.lt_add_right _ (h.left.labels.lt_of_mem hold)
  · rintro ⟨name, n⟩
    rw [h.whole.labels.mem_iff, isFirstLabel_append, List.mem_append, h.left.labels.mem_iff,
      List.mem_map, and_or_left]
    refine or_congr_right ⟨?_, ?_⟩
    · rintro ⟨hvalid, hnew, m, rfl, hfirst⟩
      have hmem := (h.right.labels.mem_iff _ _).mpr ⟨hvalid, hfirst⟩
      refine ⟨(name, m), List.mem_filter.mpr ⟨hmem, ?_⟩, rfl⟩
      simp [h.left.mem_labelNames_iff, hnew]
    · rintro ⟨⟨name, m⟩, hmem, heq⟩
      obtain ⟨rfl, rfl⟩ := Prod.mk.inj heq
      obtain ⟨hmem, hnew⟩ := List.mem_filter.mp hmem
      obtain ⟨hvalid, hfirst⟩ := (h.right.labels.mem_iff name m).mp hmem
      refine ⟨hvalid, fun k hk ↦ ?_, m, rfl, hfirst⟩
      exact of_decide_eq_true hnew (h.left.mem_labelNames_iff.mpr ⟨hvalid, k, hk⟩)

/-- **The labels** of the whole are those of the first part and the others of the second. -/
theorem labels (h : Joins o xs ys a b c) :
    c.labels.entries.toList = a.labels.entries.toList ++
      b.labels.entries.toList.filter (·.name ∉ a.labelNames) := by
  rw [h.whole.entries_labels, h.labelLines, List.map_append, h.left.entries_labels,
    h.right.entries_labels, List.filter_map, List.map_map]
  congr 1
  · refine List.map_congr_left fun e he ↦ ?_
    have hlt := h.left.labels.lt_of_mem he
    rw [List.take_append_of_le_length (Nat.le_of_lt hlt)]
  · refine List.map_congr_left fun e _ ↦ ?_
    simp only [Function.comp_apply, List.take_length_add_append, expandLines_append,
      List.length_append, List.length_map, Options.addressOf_below]

theorem find?_left (h : Joins o xs ys a b c) {label : String} (hlabel : label ∉ b.labelNames) :
    c.labels.find? label = a.labels.find? label := by
  have hnone : (b.labels.entries.toList.filter (·.name ∉ a.labelNames)).find? (·.name == label) =
      none := by
    refine List.find?_eq_none.mpr fun s hs heq ↦ hlabel ?_
    exact List.mem_map.mpr ⟨s, List.mem_of_mem_filter hs, eq_of_beq heq⟩
  rw [h.whole.find?_labels, h.left.find?_labels, h.labels, List.find?_append, hnone,
    Option.or_none]

theorem find?_right (h : Joins o xs ys a b c) {label : String} (hlabel : label ∉ a.labelNames) :
    c.labels.find? label = b.labels.find? label := by
  have hnone : a.labels.entries.toList.find? (·.name == label) = none := by
    refine List.find?_eq_none.mpr fun s hs heq ↦ hlabel ?_
    exact List.mem_map.mpr ⟨s, hs, eq_of_beq heq⟩
  have hkept : (b.labels.entries.toList.filter (·.name ∉ a.labelNames)).find? (·.name == label) =
      b.labels.entries.toList.find? (·.name == label) := by
    rw [List.find?_filter]
    congr 1
    funext s
    by_cases hs : s.name = label
    · simp [hs, hlabel]
    · simp [hs]
  rw [h.whole.find?_labels, h.right.find?_labels, h.labels, List.find?_append, hnone,
    Option.none_or, hkept]

/-- **The records** of the whole are those of the first part and those of the second. -/
theorem relocations (h : Joins o xs ys a b c) :
    c.relocations.entries.toList =
      a.relocations.entries.toList ++ b.relocations.entries.toList := by
  rw [h.whole.relocations, h.left.relocations, h.right.relocations, zipIdx_expandLines_append,
    List.filterMap_append, List.filterMap_map]
  congr 1
  · exact List.filterMap_congr fun e _ ↦ Image.record?_congr_labels o c.labels a.labels e
  · refine List.filterMap_congr fun e _ ↦ ?_
    rw [Function.comp_apply, Image.record?_congr_labels o c.labels b.labels]
    simp only [Image.record?, Image.outcome_below, Options.addressOf_below]

/-- **The words** of the whole are those of the first part and those of the second, if no branch
leads from one part to the other. -/
theorem words (h : Joins o xs ys a b c) (hleft : ∀ label ∈ a.branchLabels, label ∉ b.labelNames)
    (hright : ∀ label ∈ b.branchLabels, label ∉ a.labelNames) :
    c.words.toList = a.words.toList ++ b.words.toList := by
  rw [h.whole.words, h.left.words, h.right.words, zipIdx_expandLines_append,
    List.filterMap_append, List.filterMap_map]
  congr 1
  · refine List.filterMap_congr fun e he ↦ ?_
    refine congrArg Except.toOption (Image.outcome_congr_labels fun label hlabel ↦ ?_)
    exact h.find?_left (hleft label
      (h.left.mem_branchLabels (List.fst_mem_of_mem_zipIdx he) hlabel))
  · refine List.filterMap_congr fun e he ↦ ?_
    simp only [Function.comp_apply, Image.word?, Image.outcome_below]
    refine congrArg Except.toOption (Image.outcome_congr_labels fun label hlabel ↦ ?_)
    exact h.find?_right (hright label
      (h.right.mem_branchLabels (List.fst_mem_of_mem_zipIdx he) hlabel))

end Joins

theorem hexText_append (h : c.words.toList = a.words.toList ++ b.words.toList) :
    c.hexText = a.hexText ++ b.hexText := by
  rw [hexText, hexText, hexText, h, List.map_append, String.join_append]

end Assembly

/-- **Assembly is compositional.**  Say a source is assembled at a base address that is a multiple
of four, and another at the address after its last instruction.  Then the source that has the second
below the first has both listings, the labels of the first and those of the second that are not
among them, and the records of both, in this order.  If no branch of one part names a label that the
other defines, its words are those of the first part and then those of the second. -/
theorem assembly_is_compositional (o : Options) (first second : String) (a b c : Assembly)
    (hbase : o.base % 4 = 0) (hstop : o.stopOnFirstError = false)
    (ha : assemble o first = some a)
    (hb : assemble
      { o with base := Image.addressOf o.base (Image.listingLines a.listing).length } second =
      some b)
    (hc : assemble o (first ++ "\n" ++ second) = some c) :
    c.listing = a.listing ++ b.listing ∧
    (c.labels.entries.toList = a.labels.entries.toList ++
      b.labels.entries.toList.filter (·.name ∉ a.labelNames)) ∧
    c.relocations.entries = a.relocations.entries ++ b.relocations.entries ∧
    ((∀ label ∈ a.branchLabels, label ∉ b.labelNames) →
      (∀ label ∈ b.branchLabels, label ∉ a.labelNames) →
      c.words = a.words ++ b.words ∧ c.hexText = a.hexText ++ b.hexText) := by
  have hlines : Text.splitLines (first ++ "\n" ++ second).toList =
      Text.splitLines first.toList ++ Text.splitLines second.toList := by
    rw [String.toList_append, String.toList_append, List.append_assoc]
    exact Text.splitLines_append_lineFeed _ _
  have hleft := assemble_ofAll hbase hstop ha
  have hwhole := assemble_ofAll hbase hstop hc
  rw [hlines] at hwhole
  rw [hleft.length_listingLines] at hb
  have hright := assemble_ofAll (o := o.below _) ((Image.addressOf_mod_four _ _).trans hbase)
    hstop hb
  have hjoins : Assembly.Joins o _ _ a b c := ⟨hleft, hright, hwhole⟩
  refine ⟨hjoins.listing, hjoins.labels, ?_, fun hab hba ↦ ?_⟩
  · rw [← Array.toList_inj, Array.toList_append, hjoins.relocations]
  · have hwords := hjoins.words hab hba
    refine ⟨?_, Assembly.hexText_append hwords⟩
    rw [← Array.toList_inj, Array.toList_append, hwords]

/-- Two parts that both define `z`, each with a branch and a jump of its own, joined at the end of
the address space. -/
theorem assembly_is_compositional_at_the_end :
    ∃ a b c, assemble { base := 0xfffffff8 } "x: bne $t0, $0, x\nj y\nz:" = some a ∧
      assemble {} "z: jal z\ny: beq $0, $0, y" = some b ∧
      assemble { base := 0xfffffff8 }
        ("x: bne $t0, $0, x\nj y\nz:" ++ "\n" ++ "z: jal z\ny: beq $0, $0, y") = some c ∧
      c.labels.entries.toList = [⟨"x", 0xfffffff8⟩, ⟨"z", 0⟩, ⟨"y", 4⟩] ∧
      c.relocations.entries = a.relocations.entries ++ b.relocations.entries ∧
      c.relocations.entries = #[⟨"y", 0xfffffffc⟩, ⟨"z", 0⟩] ∧
      c.words = a.words ++ b.words ∧
      c.words = #[0x1500ffff, 0x08000000, 0x0c000000, 0x1000ffff] := by
  have hrunA : (assemble { base := 0xfffffff8 } "x: bne $t0, $0, x\nj y\nz:").map (fun a ↦
      ((Image.listingLines a.listing).length, a.labels.entries, a.branchLabels, a.words,
        a.relocations.entries)) =
      some (2, #[⟨"x", 0xfffffff8⟩, ⟨"z", 0⟩], ["x"], #[0x1500ffff, 0x08000000],
        #[⟨"y", 0xfffffffc⟩]) := by
    decide +kernel
  have hrunB : (assemble {} "z: jal z\ny: beq $0, $0, y").map (fun b ↦
      (b.labels.entries, b.branchLabels, b.words, b.relocations.entries)) =
      some (#[⟨"z", 0⟩, ⟨"y", 4⟩], ["y"], #[0x0c000000, 0x1000ffff], #[⟨"z", 0⟩]) := by
    decide +kernel
  have hrunC : (assemble { base := 0xfffffff8 }
      ("x: bne $t0, $0, x\nj y\nz:" ++ "\n" ++ "z: jal z\ny: beq $0, $0, y")).isSome = true := by
    decide +kernel
  obtain ⟨a, ha, hrunA⟩ := Option.map_eq_some_iff.mp hrunA
  obtain ⟨b, hb, hrunB⟩ := Option.map_eq_some_iff.mp hrunB
  obtain ⟨c, hc⟩ := Option.isSome_iff_exists.mp hrunC
  simp only [Prod.mk.injEq] at hrunA hrunB
  obtain ⟨hlength, hlabelsA, hbranchesA, hwordsA, hrecordsA⟩ := hrunA
  obtain ⟨hlabelsB, hbranchesB, hwordsB, hrecordsB⟩ := hrunB
  obtain ⟨-, hlabels, hrelocations, hjoined⟩ :=
    assembly_is_compositional { base := 0xfffffff8 } _ _ a b c rfl rfl ha
      (by rw [hlength]; exact hb) hc
  obtain ⟨hwords, -⟩ := hjoined (by simp [hbranchesA, Assembly.labelNames, hlabelsB])
    (by simp [hbranchesB, Assembly.labelNames, hlabelsA])
  refine ⟨a, b, c, ha, hb, hc, ?_, hrelocations, ?_, hwords, ?_⟩
  · rw [hlabels, Assembly.labelNames, hlabelsA, hlabelsB]
    decide +kernel
  · rw [hrelocations, hrecordsA, hrecordsB]
    rfl
  · rw [hwords, hwordsA, hwordsB]
    rfl

end MipsAsm
