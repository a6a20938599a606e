import MipsAsm.Proofs.Assembly.Alike
import MipsAsm.Proofs.Assembly.Append
import MipsAsm.Proofs.Assembly.Branch
import MipsAsm.Proofs.Assembly.Expansion
import MipsAsm.Proofs.Assembly.Stop
import MipsAsm.Proofs.Assembly.Words
import MipsAsm.Proofs.Encoding.Spelling

/-!
# A listing as a source

The listing of a source without errors is a source itself.  All of its instructions have words, so
that none of them has a text with the mark of a comment, a label or a directive in it, and none of
them is a pseudo-instruction.  The first pass over the listing finds the same instructions again,
but no label, and the second differs only where an instruction reads a label, that is at branches.

That a listing can be a source is not clear from the way it is written, with spaces between words
and no marks.  A word with a hash sign, a colon or a dot in front would be read as something else,
and a pseudo-instruction would be replaced a second time.  None of this happens in a source without
errors, because the words of an instruction that could be encoded are of a limited kind: register
names, numbers and label names.

One word of a listing is changed when it is read.  The operand of `push` and `pop` for the top of
the stack has parentheses in it, which divide tokens, so it comes back as two operands.  This is
what `Instruction.reread` stands for, and why the second listing is read as the same instructions
without being the same text.

Labels do not appear in a listing at all.  A branch in it has nothing to go to, and is reported; a
jump does not look its label up and keeps its word and its record.

* `Line.Lists`, `Instruction.lists_of_encode` — the line of an instruction that has a word stands
  for that instruction.
* `Scan.ofLines_of_quiet` — the first pass over lines without labels and without errors.
* `Instruction.encode_relocations_congr`, `Image.ofListing_progress` — what the second pass does to
  the relocations does not depend on the labels, for one instruction and for a whole listing.
* `Instruction.encode_of_undefined` — a branch whose label is not defined.
* `Assembly.Relists` — the two assemblies, and what they have in common.
* `listing_assembles_alike` — all of that together.
-/

set_option autoImplicit false

namespace MipsAsm

/-! ## Lines of a listing

A line of the listing is read as a source line now, with its comment cut off and divided at a colon.
That does nothing to it because the texts of an instruction that has a word are simple: names,
registers and literals, and none of them has the mark of a comment or a colon in it. -/

namespace Line

/-- A line that has no label and stands for one instruction, which stands for itself. -/
structure Lists (l : Line) (i : Instruction) : Prop where
  /-- There is no label. -/
  label : l.label? = none
  /-- The instruction is the one of the line. -/
  instruction : l.instruction? = some i
  /-- The instruction is no pseudo-instruction. -/
  expand : i.expand = .ok [i]

/-- A line that says nothing of labels and that there is nothing to say of. -/
structure Quiet (l : Line) : Prop where
  /-- There is no label. -/
  label : l.label? = none
  /-- There is nothing to say of its body. -/
  remarks : ∀ number, l.remarks number = []

variable {l : Line} {i : Instruction}

theorem Lists.expansion (h : l.Lists i) : l.expansion = [i] := by
  rw [Line.expansion, h.instruction, Option.map_some, h.expand]

/-- There is nothing to say of a line whose instruction can be expanded. -/
theorem remarks_of_expand {is : List Instruction} (hi : l.instruction? = some i)
    (his : i.expand = .ok is) (number : Nat) : l.remarks number = [] := by
  obtain ⟨htokens, hdirective⟩ := Option.filter_eq_some_iff.mp hi
  rw [Line.remarks]
  cases hl : l.tokens with
  | nil => rfl
  | cons first rest =>
    rw [hl] at htokens
    have hi : { mnemonic := first.text, args := rest.map Text.Token.text } = i :=
      Option.some.inj htokens
    rw [← hi, Bool.not_eq_true'] at hdirective
    simp [hdirective, hi, his]

theorem Lists.quiet (h : l.Lists i) : l.Quiet :=
  ⟨h.label, remarks_of_expand h.instruction h.expand⟩

end Line

namespace Instruction

variable {i : Instruction}

/-- A mark that no text of an instruction can have does not stand on its line. -/
theorem not_mem_text {mark : Char} (h : i.reread.Simple) (hmark : Text.isSimple mark = false)
    (hspace : mark ≠ ' ') (htop : mark ∉ Pseudo.stackTop.toList) : mark ∉ i.text.toList := by
  have htext : ∀ w ∈ i.reread.mnemonic :: i.reread.args, mark ∉ w.toList := by
    intro w hw hmem
    rw [h w hw mark hmem] at hmark
    cases hmark
  intro hmem
  rcases Text.mem_intercalate hmem with hblank | ⟨w, hw, hc⟩
  · exact hspace (List.mem_singleton.mp hblank)
  · rcases List.mem_cons.mp hw with rfl | hw
    · exact htext _ List.mem_cons_self hc
    · by_cases hw' : w = Pseudo.stackTop
      · exact htop (hw' ▸ hc)
      · exact htext w (List.mem_cons_of_mem _ (List.mem_flatMap.mpr ⟨w, hw, by simp [hw']⟩)) hc

/-- The line of a simple instruction has no comment and no label. -/
theorem read_text (h : i.reread.Simple) :
    Line.read i.text.toList = { labelText := none, body := i.text.toList, bodyStart := 0 } := by
  have hhash : '#' ∉ i.text.toList :=
    not_mem_text h (by decide) (by decide) (by decide)
  have hcolon : ':' ∉ i.text.toList :=
    not_mem_text h (by decide) (by decide) (by decide)
  have hcode : Line.code i.text.toList = i.text.toList := Line.code_of_not_mem hhash
  rw [Line.read_of_not_mem (by rwa [hcode]), Line.unlabelled, hcode]

/-- An instruction that has a word is no directive and no pseudo-instruction. -/
theorem expand_of_encode {limit : Int} {address word : UInt32} {tables : Tables}
    (h : (i.encode limit address tables).2 = .ok word) :
    Scan.isDirective i.mnemonic = false ∧ i.expand = .ok [i] := by
  obtain ⟨m, -, hcheck, -⟩ := encode_eq_ok (Prod.ext rfl h)
  obtain ⟨hm, -, -, hempty⟩ := check_eq_ok_iff.mp hcheck
  exact expand_of_ofName? hm hempty

/-- **The line of an instruction that has a word** stands for that instruction. -/
theorem lists_of_encode {limit : Int} {address word : UInt32} {tables : Tables}
    (hspelled : i.WellSpelled) (h : (i.reread.encode limit address tables).2 = .ok word) :
    (Line.read i.text.toList).Lists i.reread := by
  obtain ⟨hdirective, hexpand⟩ := expand_of_encode h
  rw [read_text (simple_of_encode h)]
  refine ⟨rfl, ?_, hexpand⟩
  rw [Line.instruction?, Line.tokens, ofTokens?_text hspelled, Option.filter_some]
  simp [hdirective]

end Instruction

/-! ## The first pass over a listing

A line that stands for one instruction and has no label is quiet: it adds to the listing and to
nothing else.  The listing of a listing is the listing, then, up to operands that were read back as
two. -/

theorem Line.quiet_nil : (read []).Quiet := by
  have htokens : (read []).tokens = [] := by
    rw [Line.tokens, Line.read_of_not_mem (by simp [code]), unlabelled, code, List.takeWhile_nil,
      Text.tokens]
  exact ⟨by decide, fun number ↦ by rw [remarks, htokens]⟩

namespace Scan

variable {o : Options} {s : Scan}

/-- Reading a quiet line adds to the listing only. -/
theorem readLine_of_quiet {cs : List Char} (hs : s.diagnostics = #[]) (h : (Line.read cs).Quiet) :
    ∃ s', s.readLine o cs = some s' ∧ s'.labels = s.labels ∧ s'.diagnostics = #[] := by
  have hgo : (o.stopOnFirstError && s.hasErrors) = false := by simp [hasErrors, hs]
  have hdefine : s.defineLabel o.tableLimit (Line.read cs) = some s := by
    rw [defineLabel, h.label]
  obtain ⟨log, hread⟩ := readInstruction_eq s (Line.read cs)
  rw [h.remarks] at hread
  rw [readLine, hgo, if_neg Bool.false_ne_true]
  simp only [hdefine, Option.bind_eq_bind, Option.bind_some, hread]
  exact ⟨_, rfl, rfl, by simp [hs]⟩

/-- **A first pass over quiet lines** finds no label and has nothing to say. -/
theorem ofLines_of_quiet {lines : List (List Char)} (h : ∀ cs ∈ lines, (Line.read cs).Quiet)
    (labels : SymbolTable) :
    ∃ s, ofLines o labels lines = some s ∧ s.labels = labels ∧ s.diagnostics = #[] := by
  have hfold : ∀ s : Scan, s.diagnostics = #[] →
      ∃ s', lines.foldlM (readLine o) s = some s' ∧ s'.labels = s.labels ∧
        s'.diagnostics = #[] := by
    induction lines with
    | nil => exact fun s hs ↦ ⟨s, rfl, rfl, hs⟩
    | cons cs lines ih =>
      intro s hs
      obtain ⟨t, ht, hlabels, hdiagnostics⟩ :=
        readLine_of_quiet (o := o) hs (h cs List.mem_cons_self)
      obtain ⟨s', hs', hlabels', hdiagnostics'⟩ :=
        ih (fun cs' hcs' ↦ h cs' (List.mem_cons_of_mem cs hcs')) t hdiagnostics
      refine ⟨s', ?_, hlabels'.trans hlabels, hdiagnostics'⟩
      rw [List.foldlM_cons, ht]
      exact hs'
  exact hfold _ rfl

end Scan

/-- The instructions of lines that each stand for one instruction, which come one from each line. -/
theorem expandLines_of_lists {is : List Instruction} {f : Instruction → Instruction}
    (h : ∀ i ∈ is, (Line.read i.text.toList).Lists (f i)) :
    expandLines (is.map (·.text.toList)) = is.zipIdx.map fun p ↦ (p.2, f p.1) := by
  induction is using List.reverseRecOn with
  | nil => rfl
  | append_singleton is i ih =>
    have hlast := (h i (by simp)).expansion
    rw [List.map_append, List.map_singleton, expandLines_concat, hlast,
      ih fun j hj ↦ h j (List.mem_append_left _ hj), List.zipIdx_append, List.map_append]
    simp

/-! ## The second pass over a listing

The two runs of the second pass have the same instructions and different labels.  An instruction
that is no branch does not look at the labels at all.  One that is a branch finds its label in the
one run and not in the other, so it has a word there and an error here.  In either case it does the
same to the relocations, and so both runs go through with the same room. -/

theorem Operand.value_of_undefined {mnemonic label : String} {t t' : SymbolTable}
    {address v : UInt32} (h : branchTarget.value mnemonic (some t) address label = .ok v)
    (hundefined : t'.find? label = none) :
    branchTarget.value mnemonic (some t') address label =
      .error { kind := .undefinedSymbol, mnemonic, construct := label } := by
  rw [value] at h ⊢
  split at h
  · rename_i hvalid
    rw [if_pos hvalid, Option.bind_some, hundefined]
  · cases h

namespace Instruction

variable {limit : Int} {i : Instruction} {address : UInt32} {t t' : SymbolTable}

theorem branchLabel?_of_isJump (h : i.IsJump) : i.branchLabel? = none := by
  refine Option.eq_none_iff_forall_ne_some.mpr fun label hlabel ↦ ?_
  obtain ⟨hbranch, -⟩ := branchLabel?_eq_some_iff.mp hlabel
  rcases h with h | h <;> rw [h] at hbranch <;> exact absurd hbranch (by decide)

/-- What becomes of a jump does not depend on the labels. -/
theorem encode_snd_of_isJump (h : i.IsJump) (limit : Int) (address : UInt32) (t t' : SymbolTable)
    (relocations : Option SymbolTable) :
    (i.encode limit address { symbols := some t, relocations }).2 =
      (i.encode limit address { symbols := some t', relocations }).2 :=
  encode_congr_labels limit relocations fun label hlabel ↦ by
    rw [branchLabel?_of_isJump h] at hlabel
    cases hlabel

/-- **What an instruction does to the relocations** does not depend on the labels, and neither does
whether it finds room. -/
theorem encode_relocations_congr (limit : Int) (i : Instruction) (address : UInt32)
    (t t' r : SymbolTable) :
    ∃ r', (i.encode limit address { symbols := some t, relocations := some r }).1 =
        { symbols := some t, relocations := some r' } ∧
      (i.encode limit address { symbols := some t', relocations := some r }).1 =
        { symbols := some t', relocations := some r' } ∧
      ((i.encode limit address { symbols := some t, relocations := some r }).2 =
          .error .outOfMemory ↔
        (i.encode limit address { symbols := some t', relocations := some r }).2 =
          .error .outOfMemory) := by
  have hsnd : i.IsJump → _ := fun hjump ↦ encode_snd_of_isJump hjump limit address t t' (some r)
  have hroom : (i.encode limit address { symbols := some t, relocations := some r }).2 =
        .error .outOfMemory ↔
      (i.encode limit address { symbols := some t', relocations := some r }).2 =
        .error .outOfMemory :=
    ⟨fun h ↦ (hsnd (isJump_of_outOfMemory h)).symm.trans h,
      fun h ↦ (hsnd (isJump_of_outOfMemory h)).trans h⟩
  obtain ⟨hsame, hnone⟩ | ⟨label, r₁, r', w, hjump, hargs, hr, hinsert, hencode⟩ :=
      encode_cases limit i address { symbols := some t, relocations := some r } <;>
    obtain ⟨hsame', hnone'⟩ | ⟨label', r₁', r'', w', hjump', hargs', hr', hinsert', hencode'⟩ :=
      encode_cases limit i address { symbols := some t', relocations := some r }
  · exact ⟨r, hsame, hsame', hroom⟩
  · exact absurd ⟨hjump', w', (hsnd hjump').trans (congrArg Prod.snd hencode')⟩ hnone
  · exact absurd ⟨hjump, w, (hsnd hjump).symm.trans (congrArg Prod.snd hencode)⟩ hnone'
  · -- both insert the same label at the same address
    obtain rfl := Option.some.inj hr
    obtain rfl := Option.some.inj hr'
    obtain rfl := List.singleton_inj.mp (hargs.symm.trans hargs')
    obtain ⟨rfl, -⟩ := Prod.mk.inj (hinsert.symm.trans hinsert')
    exact ⟨r', congrArg Prod.fst hencode, congrArg Prod.fst hencode', hroom⟩

/-- A branch to a label that is not defined has no word, and that the label is not defined is why,
if it has a word where the label is defined. -/
theorem encode_of_undefined {label : String} {relocations : Option SymbolTable} {word : UInt32}
    (hlabel : i.branchLabel? = some label) (hundefined : t'.find? label = none)
    (h : (i.encode limit address { symbols := some t, relocations }).2 = .ok word) :
    (i.encode limit address { symbols := some t', relocations }).2 =
      .error (.rejected
        { kind := .undefinedSymbol, mnemonic := i.mnemonic, construct := label }) := by
  obtain ⟨hbranch, rs, rt, hargs⟩ := branchLabel?_eq_some_iff.mp hlabel
  obtain ⟨m, -, hcheck, -⟩ := encode_eq_ok (Prod.ext rfl h)
  obtain ⟨hm, -⟩ := check_eq_ok_iff.mp hcheck
  have hfamily := family_of_branch hbranch hm
  cases hvalues : i.fieldValues m (some t) address with
  | error e =>
    rw [encode_of_fieldValues_error hcheck hvalues] at h
    cases h
  | ok values =>
    obtain ⟨value, hvalue, -⟩ := exists_values hvalues
    rw [hfamily, hargs] at hvalue
    simp only [Family.operands, List.zip_cons_cons, List.zip_nil_left, List.forall_mem_cons]
      at hvalue
    obtain ⟨hrs, hrt, htarget, -⟩ := hvalue
    have hrejected : i.fieldValues m (some t') address = .error
        { kind := .undefinedSymbol, mnemonic := i.mnemonic, construct := label } := by
      have hpairs : m.family.pairOperands i.args =
          [(.register Field.rs, rs), (.register Field.rt, rt), (.branchTarget, label)] := by
        rw [hfamily, hargs]
        rfl
      -- the registers have the values that they have with the other labels
      rw [Operand.value_of_ne_branchTarget (by simp) _ _ (some t')] at hrs hrt
      rw [fieldValues, hpairs, List.mapM_cons, List.mapM_cons, List.mapM_cons]
      simp only [hrs, hrt, Operand.value_of_undefined htarget hundefined]
      rfl
    rw [check_symbols i t t'] at hcheck
    rw [encode_of_fieldValues_error hcheck hrejected]

end Instruction

namespace Image

/-- What is left of a state of the second pass if only its place and the relocations count. -/
def progress (m : Image) : Nat × SymbolTable := (m.read, m.relocations)

variable {o : Options} {m n : Image}

theorem map_progress_place (labels : SymbolTable) (number : Nat) (line : Line) (m : Image)
    (i : Instruction) :
    let encoded := i.encode o.tableLimit (addressOf o.base m.read)
      { symbols := some labels, relocations := some m.relocations }
    (m.place o labels number line i).map progress =
      if encoded.2 = .error .outOfMemory then none
      else encoded.1.relocations.map fun r ↦ (m.read + 1, r) := by
  intro encoded
  have hencoded : i.encode o.tableLimit (addressOf o.base m.read)
      { symbols := some labels, relocations := some m.relocations } = encoded := rfl
  obtain ⟨⟨symbols, relocations⟩, outcome⟩ := encoded
  simp only [place, hencoded]
  cases relocations with
  | none => cases outcome <;> simp
  | some r =>
    cases outcome with
    | ok word => simp [progress]
    | error fault => cases fault <;> simp [progress]

/-- Encoding an instruction keeps two runs of the second pass together, whatever their labels. -/
theorem place_progress (labels labels' : SymbolTable) (number number' : Nat) (line line' : Line)
    (i : Instruction) (h : m.progress = n.progress) :
    (m.place o labels number line i).map progress =
      (n.place o labels' number' line' i).map progress := by
  obtain ⟨hread, hrelocations⟩ := Prod.mk.inj h
  obtain ⟨r, hfst, hfst', hroom⟩ := i.encode_relocations_congr o.tableLimit
    (addressOf o.base n.read) labels labels' n.relocations
  simp only [map_progress_place, hread, hrelocations, hfst, hfst', hroom]

/-- **Two runs of the second pass stay together** over listings that are read back as the same
instructions, if they do not stop. -/
theorem ofListing_progress (source source' : Array (List Char)) {s s' : Scan}
    (hgo : o.stopOnFirstError = false)
    (h : List.Forall₂ (fun cs ds ↦ ∃ i : Instruction,
        Instruction.ofTokens? (Text.tokens Line.isSeparator 0 cs) = some i ∧
        Instruction.ofTokens? (Text.tokens Line.isSeparator 0 ds) = some i)
      (listingLines s.listing) (listingLines s'.listing)) (relocations : SymbolTable) :
    (ofListing o source s relocations).map progress =
      (ofListing o source' s' relocations).map progress := by
  refine foldlM_map_eq ?_ h rfl
  rintro cs ds ⟨i, hcs, hds⟩ m n hmn
  rw [readLine, readLine, hgo, Bool.false_and, Bool.false_and, if_neg Bool.false_ne_true,
    if_neg Bool.false_ne_true, hcs, hds]
  exact place_progress _ _ _ _ _ _ i hmn

end Image

/-! ## Both passes over a listing

`Assembly.Relists` holds the two assemblies and the little that is needed of them.  From it the
words and the diagnostics are computed line by line, and each of them is a list over the positions
of the listing from which some positions drop out: words where there is a branch, diagnostics
elsewhere. -/

namespace Instruction

/-- Whether an instruction is a branch. -/
def IsBranch (i : Instruction) : Prop := i.mnemonic = "beq" ∨ i.mnemonic = "bne"

instance : DecidablePred IsBranch := fun _ ↦ inferInstanceAs (Decidable (_ ∨ _))

/-- The rejection of a branch to a label that is not defined. -/
def undefinedTarget (i : Instruction) : Error :=
  { kind := .undefinedSymbol, mnemonic := i.mnemonic, construct := i.args.getLast?.getD "" }

end Instruction

namespace Image

variable {o : Options} {labels labels' : SymbolTable} {k : Nat} {i : Instruction} {word : UInt32}

/-- An instruction that is no branch has the same outcome with all labels. -/
theorem outcome_of_not_isBranch (h : ¬i.IsBranch) :
    outcome o labels' k i = outcome o labels k i :=
  outcome_congr_labels fun _ hlabel ↦ absurd (Instruction.branchLabel?_eq_some_iff.mp hlabel).1 h

/-- Where no label is defined, a branch that has a word elsewhere is rejected. -/
theorem outcome_of_isBranch (h : outcome o labels k i = .ok word) (hbranch : i.IsBranch) :
    outcome o (.empty .unique) k i = .error (.rejected i.undefinedTarget) := by
  obtain ⟨rs, rt, label, -, hargs, -⟩ := Instruction.encode_branch hbranch (Prod.ext rfl h)
  have hlabel : i.branchLabel? = some label :=
    Instruction.branchLabel?_eq_some_iff.mpr ⟨hbranch, rs, rt, hargs⟩
  have hundefined : (SymbolTable.empty .unique).find? label = none := by
    simp [SymbolTable.find?, SymbolTable.empty]
  rw [Instruction.undefinedTarget, hargs]
  exact Instruction.encode_of_undefined hlabel hundefined h

end Image

namespace Assembly

variable {o : Options} {a b : Assembly} {source : String}

/-- The lines of the listing of a source without errors stand for their instructions. -/
theorem Describes.lists {lines : List (List Char)} (h : a.Describes o lines)
    (herrors : a.hasErrors = false) :
    ∀ i ∈ a.entries.map Prod.snd, (Line.read i.text.toList).Lists i.reread := by
  intro i hi
  obtain ⟨e, he, rfl⟩ := List.mem_map.mp hi
  obtain ⟨k, hk⟩ := List.mem_iff_getElem?.mp he
  obtain ⟨word, hword⟩ := h.exists_outcome herrors hk
  exact Instruction.lists_of_encode (h.wellSpelled he) hword

/-- The lines of the listing, as those of a source. -/
theorem Describes.splitLines_listing {lines : List (List Char)} (h : a.Describes o lines) :
    Text.splitLines a.listing.toList = Image.listingLines a.listing ++ [[]] := by
  have hspelled : ∀ i ∈ a.entries.map Prod.snd, i.WellSpelled := by
    intro i hi
    obtain ⟨e, he, rfl⟩ := List.mem_map.mp hi
    exact h.wellSpelled he
  have hlisting : a.listing = Instruction.listing (a.entries.map Prod.snd) := by
    rw [h.entries_eq]
    exact h.scan.listing
  rw [hlisting, Instruction.splitLines_listing hspelled, Image.listingLines_listing hspelled]

/-- The instructions that the listing of a source without errors stands for. -/
theorem Describes.expandLines_listing {lines : List (List Char)} (h : a.Describes o lines)
    (herrors : a.hasErrors = false) :
    expandLines (Text.splitLines a.listing.toList) =
      a.entries.zipIdx.map fun p ↦ (p.2, p.1.2.reread) := by
  have hempty : (Line.read []).expansion = [] := by decide +kernel
  have hlines : Image.listingLines a.listing = (a.entries.map Prod.snd).map (·.text.toList) := by
    rw [h.listingLines, List.map_map]
    rfl
  rw [h.splitLines_listing, expandLines_concat, hempty, List.map_nil, List.append_nil, hlines,
    expandLines_of_lists (h.lists herrors), List.zipIdx_map, List.map_map]
  rfl

/-- **The listing of a source without errors can be assembled**, without a label and with the same
relocations. -/
theorem exists_relisting (h : assemble o source = some a) (herrors : a.hasErrors = false)
    (hgo : o.stopOnFirstError = false) :
    ∃ b, assemble o a.listing = some b ∧ b.labels = .empty .unique ∧ b.scan.diagnostics = #[] ∧
      b.relocations = a.relocations := by
  have hdescribes := assemble_describes h
  obtain ⟨labels, relocations, hlabels, hrelocations, -, -, hpass⟩ := assemble_cases h
  obtain ⟨-, hrun⟩ := hpass.resolve_left fun hstop ↦ by
    rw [hgo] at hstop
    exact Bool.false_ne_true hstop.1.1
  -- no line of the listing has a label, a directive or an error
  have hquiet : ∀ cs ∈ Text.splitLines a.listing.toList, (Line.read cs).Quiet := by
    intro cs hcs
    rw [hdescribes.splitLines_listing, hdescribes.listingLines] at hcs
    rcases List.mem_append.mp hcs with hcs | hcs
    · obtain ⟨e, he, rfl⟩ := List.mem_map.mp hcs
      exact (hdescribes.lists herrors _ (List.mem_map_of_mem he)).quiet
    · rw [List.mem_singleton.mp hcs]
      exact Line.quiet_nil
  obtain ⟨s, hs, hsame, hsilent⟩ := Scan.ofLines_of_quiet (o := o) hquiet labels
  obtain ⟨-, hscan, hall, -⟩ := Scan.ofLines_describes hlabels hs
  have hlisted : Image.listingLines s.listing =
      a.entries.map fun e ↦ e.2.reread.text.toList := by
    have hstop : ¬(o.stopOnFirstError = true ∧ s.hasErrors = true) := by simp [hgo]
    rw [hall.resolve_right hstop, List.take_length] at hscan
    rw [hscan.listingLines fun l hl ↦ Text.not_mem_of_mem_splitLines hl,
      hdescribes.expandLines_listing herrors, List.map_map]
    conv_rhs => rw [← List.zipIdx_map_fst 0 a.entries, List.map_map]
    rfl
  -- so the second pass reads the same instructions from both listings
  have hread : List.Forall₂ (fun cs ds ↦ ∃ i : Instruction,
      Instruction.ofTokens? (Text.tokens Line.isSeparator 0 cs) = some i ∧
      Instruction.ofTokens? (Text.tokens Line.isSeparator 0 ds) = some i)
      (Image.listingLines a.listing) (Image.listingLines s.listing) := by
    rw [hdescribes.listingLines, hlisted, List.forall₂_map_left_iff, List.forall₂_map_right_iff,
      List.forall₂_same]
    intro e he
    have htokenized := (hdescribes.wellSpelled he).tokenized_reread
    refine ⟨e.2.reread, Instruction.ofTokens?_text (hdescribes.wellSpelled he), ?_⟩
    rw [Instruction.ofTokens?_text htokenized.wellSpelled, htokenized.reread_eq]
  have hprogress := Image.ofListing_progress a.source (Text.splitLines a.listing.toList).toArray
    hgo hread relocations
  rw [hrun, Option.map_some, eq_comm, Option.map_eq_some_iff] at hprogress
  obtain ⟨m, hm, hsteps⟩ := hprogress
  obtain ⟨b, hb, rfl, rfl⟩ := exists_assemble hlabels hrelocations hs
    (.inr ⟨fun hstop ↦ by rw [hgo] at hstop; exact Bool.false_ne_true hstop.1, hm⟩)
  refine ⟨b, hb, ?_, hsilent, congrArg Prod.snd hsteps⟩
  rw [Assembly.labels, hsame, SymbolTable.new_eq_ok hlabels]

/-- Whether there is a branch on a line of the listing. -/
def isBranchAt (a : Assembly) (k : Nat) : Bool := (a.instructionAt? k).any fun i ↦ i.IsBranch

/-- What there is to say of a line of the listing on which there is a branch, if its label is not
defined. -/
def undefinedTarget? (a : Assembly) (k : Nat) : Option Diagnostic :=
  ((a.instructionAt? k).filter fun i ↦ i.IsBranch).map fun i ↦
    .ofError i.undefinedTarget
      ((Line.read ((Image.listingLines a.listing)[k]?.getD [])).errorRange k i.undefinedTarget)

/-- An assembly of the listing of another one, which describes a source and has no errors. -/
structure Relists (o : Options) (lines : List (List Char)) (a b : Assembly) : Prop where
  /-- The other assembly describes a source. -/
  original : a.Describes o lines
  /-- The other assembly has no errors. -/
  errors : a.hasErrors = false
  /-- The listing was assembled. -/
  relisted : b.Describes o (Text.splitLines a.listing.toList)
  /-- Nothing was left unread. -/
  stop : o.stopOnFirstError = false
  /-- The listing has no labels. -/
  labels : b.labels = .empty .unique

namespace Relists

variable {lines : List (List Char)}

theorem entries_eq (h : Relists o lines a b) :
    b.entries = a.entries.zipIdx.map fun p ↦ (p.2, p.1.2.reread) := by
  have hlines := h.relisted.scanned.resolve_right (by simp [h.stop])
  rw [h.relisted.entries_eq, hlines, List.take_length, h.original.expandLines_listing h.errors]

theorem getElem?_entries (h : Relists o lines a b) (k : Nat) :
    b.entries[k]? = a.entries[k]?.map fun e ↦ (k, e.2.reread) := by
  rw [h.entries_eq, List.getElem?_map, List.getElem?_zipIdx, Option.map_map, Nat.zero_add]
  rfl

theorem length_entries (h : Relists o lines a b) : b.entries.length = a.entries.length := by
  rw [h.entries_eq, List.length_map, List.length_zipIdx]

theorem read_eq (h : Relists o lines a b) : b.image.read = b.entries.length :=
  h.relisted.placed.resolve_right (by simp [h.stop])

/-- **The instructions are the same**, line for line. -/
theorem instructionAt?_eq (h : Relists o lines a b) (k : Nat) :
    b.instructionAt? k = a.instructionAt? k := by
  rw [h.relisted.instructionAt?_eq, h.original.instructionAt?_eq, h.getElem?_entries,
    Option.map_map]
  refine Option.map_congr fun e he ↦ ?_
  exact (h.original.wellSpelled (List.mem_of_getElem? he)).tokenized_reread.reread_eq

/-- What becomes of a line of the listing: it is rejected if there is a branch on it, and else it
has the word that it had. -/
theorem outcome_cases (h : Relists o lines a b) {k : Nat} (hk : k < a.entries.length) :
    ∃ i word, a.instructionAt? k = some i ∧ a.words.toList[k]? = some word ∧
      Image.outcome o b.labels k i =
        if i.IsBranch then .error (.rejected i.undefinedTarget) else .ok word := by
  have he := List.getElem?_eq_getElem hk
  obtain ⟨word, hword⟩ := h.original.exists_outcome h.errors he
  have hinstruction : a.instructionAt? k = some (a.entries.get ⟨k, hk⟩).2.reread := by
    rw [h.original.instructionAt?_eq, he]
    rfl
  refine ⟨_, word, hinstruction, ?_, ?_⟩
  · rw [h.original.getElem?_words h.errors hk, wordAt?, hinstruction, Option.bind_some]
    exact congrArg Except.toOption hword
  · rw [h.labels]
    split
    · rename_i hbranch
      exact Image.outcome_of_isBranch hword hbranch
    · rename_i hbranch
      exact (Image.outcome_of_not_isBranch hbranch).trans hword

/-- **The words are those that there were**, without those of branches. -/
theorem words_eq (h : Relists o lines a b) :
    b.words.toList =
      a.words.toList.zipIdx.filterMap fun p ↦ if a.isBranchAt p.2 then none else some p.1 := by
  have hsize : a.words.toList.length = a.entries.length := h.original.size_words h.errors
  rw [h.relisted.words_eq h.read_eq, filterMap_zipIdx, hsize, h.length_entries]
  refine List.filterMap_congr fun k hk ↦ ?_
  obtain ⟨i, word, hi, hword, houtcome⟩ := h.outcome_cases (List.mem_range.mp hk)
  rw [wordAt?, h.instructionAt?_eq, hi, hword, Option.bind_some, Option.bind_some, houtcome,
    isBranchAt, hi, Option.any_some]
  by_cases hbranch : i.IsBranch
  · simp only [hbranch, if_true, decide_true]
    rfl
  · simp only [hbranch, if_false, decide_false]
    rfl

/-- The line that a line of the listing comes from is that line. -/
theorem getElem?_source (h : Relists o lines a b) {k : Nat} (hk : k < a.entries.length) :
    b.source[k]? = (Image.listingLines a.listing)[k]? := by
  rw [← Array.getElem?_toList, h.relisted.source, h.original.splitLines_listing,
    List.getElem?_append_left (by rwa [h.original.length_listingLines])]

/-- **All that there is to say** is of the branches. -/
theorem diagnostics_eq (h : Relists o lines a b) :
    b.image.diagnostics.toList =
      (List.range (Image.listingLines a.listing).length).filterMap a.undefinedTarget? := by
  have hdiagnostics := h.relisted.image.diagnostics
  rw [h.relisted.filterMap_entries, h.read_eq, h.length_entries] at hdiagnostics
  rw [hdiagnostics, h.original.length_listingLines]
  refine List.filterMap_congr fun k hk ↦ ?_
  have hlt := List.mem_range.mp hk
  have hreread := h.instructionAt?_eq k
  obtain ⟨i, word, hi, -, houtcome⟩ := h.outcome_cases hlt
  rw [h.relisted.instructionAt?_eq, hi, Option.map_eq_some_iff] at hreread
  obtain ⟨e, he, rfl⟩ := hreread
  have hnumber : e.1 = k := by
    rw [h.getElem?_entries, Option.map_eq_some_iff] at he
    obtain ⟨e', -, rfl⟩ := he
    rfl
  rw [he, Option.bind_some, Image.diagnostic?, houtcome, undefinedTarget?, hi, hnumber,
    h.getElem?_source hlt]
  by_cases hbranch : e.2.reread.IsBranch
  · simp only [hbranch, if_true, Option.filter_some, decide_true, Option.map_some]
  · simp only [hbranch, if_false, Option.filter_some, decide_false, Bool.false_eq_true,
      Option.map_none]

end Relists
end Assembly

/-- **A listing is a program with the same words.**  Take any source that is assembled without
errors.  Its listing is assembled as a source at the same address, without stopping at errors, to a
listing with as many lines, which are read as the same instructions, and to the same relocations.
There are no labels.  All there is to say is that the label of each branch is not defined, and the
words are those that there were but for those of the branches. -/
theorem listing_assembles_alike (o : Options) (source : String) (a : Assembly)
    (h : assemble o source = some a) (herrors : a.hasErrors = false) :
    let listed := Image.listingLines a.listing
    let kept := a.words.toList.zipIdx.filterMap fun p ↦ if a.isBranchAt p.2 then none else some p.1
    ∃ b, assemble { o with stopOnFirstError := false } a.listing = some b ∧
      (Image.listingLines b.listing).length = listed.length ∧
      (∀ k, b.instructionAt? k = a.instructionAt? k) ∧
      b.relocations = a.relocations ∧
      b.labels = .empty .unique ∧
      b.diagnostics.toList = (List.range listed.length).filterMap a.undefinedTarget? ∧
      a.words.size = listed.length ∧
      b.words.toList = kept ∧
      b.hexText = String.join (kept.map fun w ↦ Text.hexWord w ++ "\n") := by
  intro listed kept
  have hgo := assemble_without_stopping h herrors
  have hdescribes := assemble_describes hgo
  obtain ⟨b, hb, hlabels, hsilent, hrelocations⟩ := Assembly.exists_relisting hgo herrors rfl
  have hrelists : Assembly.Relists _ _ a b :=
    ⟨hdescribes, herrors, assemble_describes hb, rfl, hlabels⟩
  have hlength : listed.length = a.entries.length := hdescribes.length_listingLines
  refine ⟨b, hb, ?_, hrelists.instructionAt?_eq, hrelocations, hlabels, ?_, ?_, hrelists.words_eq,
    by rw [Assembly.hexText, hrelists.words_eq]⟩
  · rw [hrelists.relisted.length_listingLines, hlength, hrelists.length_entries]
  · rw [Assembly.diagnostics, hsilent, Array.empty_append, hrelists.diagnostics_eq]
  · rw [hlength, hdescribes.size_words herrors]

/-- A directive, a comment, two labels, two pseudo-instructions, a branch and a jump. -/
theorem listing_assembles_alike_mixed :
    let source := ".text\nx: push $t0 # keep\ny: bne $t0 $0 x\njal y\nli $t1 0x12345678"
    ∃ a b, assemble { base := 16, stopOnFirstError := true } source = some a ∧
      a.hasErrors = false ∧ a.words.size = 6 ∧ assemble { base := 16 } a.listing = some b ∧
      b.instructionAt? 1 = some ⟨"sw", ["$t0", "0", "$sp"]⟩ ∧
      b.labels.entries = #[] ∧ b.relocations.entries = #[⟨"y", 28⟩] ∧
      b.words.toList = [0x27bdfffc, 0xafa80000, 0x0c000000, 0x3c011234, 0x34295678] ∧
      b.diagnostics.toList =
        [.failure "Unresolved symbol name: \"x\"" (Range.onLine 2 11 12)] := by
  intro source
  have hrun : (assemble { base := 16, stopOnFirstError := true } source).map (fun a ↦
      (((a.hasErrors, a.words.size), a.instructionAt? 1, a.relocations.entries),
        a.words.toList.zipIdx.filterMap fun p ↦ if a.isBranchAt p.2 then none else some p.1,
        (List.range (Image.listingLines a.listing).length).filterMap a.undefinedTarget?)) =
      some (((false, 6), some ⟨"sw", ["$t0", "0", "$sp"]⟩, #[⟨"y", 28⟩]),
        [0x27bdfffc, 0xafa80000, 0x0c000000, 0x3c011234, 0x34295678],
        [.failure "Unresolved symbol name: \"x\"" (Range.onLine 2 11 12)]) := by
    decide +kernel
  obtain ⟨a, ha, hparts⟩ := Option.map_eq_some_iff.mp hrun
  simp only [Prod.mk.injEq] at hparts
  obtain ⟨⟨⟨herrors, hsize⟩, hinstruction, hrecords⟩, hrest⟩ := hparts
  obtain ⟨b, hb, -, hsame, hrelocations, hlabels, hdiagnostics, -, hwords, -⟩ :=
    listing_assembles_alike _ source a ha herrors
  exact ⟨a, b, ha, herrors, hsize, hb, (hsame 1).trans hinstruction, by rw [hlabels]; rfl,
    by rw [hrelocations, hrecords], hwords.trans hrest.1, hdiagnostics.trans hrest.2⟩

end MipsAsm
