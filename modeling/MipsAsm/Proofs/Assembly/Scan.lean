import MipsAsm.Assembly.Image
import MipsAsm.Proofs.Lists
import MipsAsm.Proofs.SymbolTable

/-!
# What the first pass knows

The first pass goes through the lines of a source and carries a state of eight parts along.  Here
the state is described by the lines that were read, without the pass: `Line.expansion` is what a
line adds to the listing, `expandLines` collects that over the lines with the number of each, and
`Scan.Describes` says how listing, origins, address, labels and diagnostics follow from it.

The description is about a list of lines that grows at its end, since that is how the pass goes, and
`expandLines` has an equation for one more line to go with it.

The description has no diagnostics in it but for one part: what a line gives rise to by itself,
whatever stands around it, has been said.  Diagnostics that depend on other lines, which are those
of labels that were defined before, are described in `MipsAsm.Proofs.Assembly.Labels`.

Addresses are words of 32 bits and wrap around, so the address of an instruction is a function of
its position in the listing (`Image.addressOf`), and all that is known of addresses comes from
positions.

* `Scan.Describes.readLine` — reading one more line keeps the description.
* `Scan.ofLines_describes` — a whole pass ends in a state that describes the lines it read, and
  with the option to stop, they end at the first line with an error.
* `Scan.Describes.labelLine?_of_find?` — the address of a label is the address of the first
  instruction at or after the line that defines it.
-/

set_option autoImplicit false

namespace MipsAsm

/-! ## Addresses

The first pass raises an address by four for each instruction, and the second computes it from the
position.  `Image.addressOf` is the second form, and the remainder modulo four is that of the base
address at every position, even past the end of the address space. -/

theorem add_mod_four {δ : UInt32} (hδ : δ % 4 = 0) (x : UInt32) : (x + δ) % 4 = x % 4 := by
  have h4 : (4 : UInt32).toNat = 4 := rfl
  have hnat := congrArg UInt32.toNat hδ
  apply UInt32.toNat_inj.mp
  rw [UInt32.toNat_mod, h4, UInt32.toNat_zero] at hnat
  rw [UInt32.toNat_mod, UInt32.toNat_mod, UInt32.toNat_add, h4]
  omega

theorem four_mul_mod_four (x : UInt32) : 4 * x % 4 = 0 := by
  have h4 : (4 : UInt32).toNat = 4 := rfl
  apply UInt32.toNat_inj.mp
  rw [UInt32.toNat_mod, UInt32.toNat_mul, h4, UInt32.toNat_zero]
  omega

/-- All addresses of a listing leave the same remainder as the base address. -/
theorem Image.addressOf_mod_four (base : UInt32) (position : Nat) :
    addressOf base position % 4 = base % 4 :=
  add_mod_four (four_mul_mod_four _) base

theorem Image.addressOf_add (base : UInt32) (m n : Nat) :
    addressOf base (m + n) = addressOf base m + 4 * UInt32.ofNat n := by
  rw [addressOf, addressOf, UInt32.ofNat_add, UInt32.mul_add, UInt32.add_assoc]

/-! ## What a line stands for

`expandLines` is the list that both passes go through, one by its lines and the other by its items.
Later results count in it: the position of the first instruction of a line is the number of
instructions of the lines before, and all that is needed for that is that the numbers of the lines
never go down. -/

namespace Line

/-- The instruction of a line: it has one if its body has a token and the first is no directive. -/
def instruction? (l : Line) : Option Instruction :=
  (Instruction.ofTokens? l.tokens).filter fun i ↦ !Scan.isDirective i.mnemonic

/-- The instructions a line adds to the listing: those its own stands for, if there are any. -/
def expansion (l : Line) : List Instruction :=
  match l.instruction?.map Instruction.expand with
  | some (.ok is) => is
  | _ => []

/-- What the first pass has to say of the body of the line with the given number. -/
def remarks (l : Line) (number : Nat) : List Diagnostic :=
  match l.tokens with
  | [] => []
  | first :: rest =>
    if Scan.isDirective first.text then
      [Diagnostic.ignoredDirective first.text (Range.onLine number first.start first.stop)]
    else
      match Instruction.expand { mnemonic := first.text, args := rest.map Text.Token.text } with
      | .error e => [Diagnostic.ofError e (l.errorRange number e)]
      | .ok _ => []

theorem start_line_errorRange (l : Line) (number : Nat) (e : Error) :
    (l.errorRange number e).start.line = number := by
  rw [errorRange]
  split
  · rfl
  · split <;> rfl

/-- An instruction that cannot be expanded is remarked on. -/
theorem mem_remarks_of_expand {l : Line} {i : Instruction} {e : Error}
    (hi : l.instruction? = some i) (he : i.expand = .error e) (number : Nat) :
    .ofError e (l.errorRange number e) ∈ l.remarks number := by
  obtain ⟨htokens, hdirective⟩ := Option.filter_eq_some_iff.mp hi
  rw [remarks]
  cases hl : l.tokens with
  | nil =>
    rw [hl] at htokens
    cases htokens
  | cons first rest =>
    rw [hl] at htokens
    obtain rfl := Option.some.inj htokens
    rw [Bool.not_eq_true'] at hdirective
    simp only [hdirective, Bool.false_eq_true, ↓reduceIte, he, List.mem_singleton]

theorem exists_remark {l : Line} {i : Instruction} {e : Error} (hi : l.instruction? = some i)
    (he : i.expand = .error e) (number : Nat) :
    ∃ d ∈ l.remarks number, d.isError = true ∧ d.range.start.line = number :=
  ⟨_, mem_remarks_of_expand hi he number, rfl, start_line_errorRange l number e⟩

end Line

/-- The instructions that lines stand for, each with the number of its line. -/
def expandLines (lines : List (List Char)) : List (Nat × Instruction) :=
  lines.zipIdx.flatMap fun (cs, number) ↦ (Line.read cs).expansion.map fun i ↦ (number, i)

@[simp]
theorem expandLines_nil : expandLines [] = [] := rfl

theorem expandLines_concat (lines : List (List Char)) (cs : List Char) :
    expandLines (lines ++ [cs]) =
      expandLines lines ++ (Line.read cs).expansion.map fun i ↦ (lines.length, i) := by
  rw [expandLines, List.zipIdx_append, List.flatMap_append]
  simp [expandLines]

theorem mem_expandLines {lines : List (List Char)} {number : Nat} {i : Instruction} :
    (number, i) ∈ expandLines lines ↔
      ∃ cs, lines[number]? = some cs ∧ i ∈ (Line.read cs).expansion := by
  rw [expandLines, List.mem_flatMap]
  constructor
  · rintro ⟨⟨cs, n⟩, hcs, hi⟩
    obtain ⟨j, hj, heq⟩ := List.mem_map.mp hi
    obtain ⟨rfl, rfl⟩ := Prod.mk.inj heq
    exact ⟨cs, by simpa [List.mem_zipIdx_iff_getElem?] using hcs, hj⟩
  · rintro ⟨cs, hcs, hi⟩
    exact ⟨(cs, number), by simpa [List.mem_zipIdx_iff_getElem?] using hcs,
      List.mem_map.mpr ⟨i, hi, rfl⟩⟩

/-- The instructions of the first `n` lines come first, and those of the other lines have numbers
from `n` on. -/
theorem expandLines_split (lines : List (List Char)) (n : Nat) :
    ∃ rest, expandLines lines = expandLines (lines.take n) ++ rest ∧
      (∀ e ∈ expandLines (lines.take n), e.1 < n) ∧ ∀ e ∈ rest, n ≤ e.1 := by
  refine ⟨((lines.drop n).zipIdx (lines.take n).length).flatMap fun (cs, number) ↦
    (Line.read cs).expansion.map fun i ↦ (number, i), ?_, fun e he ↦ ?_, fun e he ↦ ?_⟩
  · conv_lhs => rw [← List.take_append_drop n lines, expandLines, List.zipIdx_append,
      List.flatMap_append, Nat.zero_add]
    rfl
  · obtain ⟨cs, hcs, -⟩ := mem_expandLines.mp he
    obtain ⟨hlt, -⟩ := List.getElem?_eq_some_iff.mp hcs
    exact Nat.lt_of_lt_of_le hlt (List.length_take_le n lines)
  · obtain ⟨⟨cs, number⟩, hcs, he⟩ := List.mem_flatMap.mp he
    obtain ⟨i, -, rfl⟩ := List.mem_map.mp he
    have hnumber := List.le_snd_of_mem_zipIdx hcs
    have hlength := List.length_pos_of_mem (List.fst_mem_of_mem_zipIdx hcs)
    rw [List.length_drop] at hlength
    rw [List.length_take] at hnumber
    show n ≤ number
    omega

/-- The instructions of one line stand together, between those of the lines before and after. -/
theorem expandLines_around {lines : List (List Char)} {number : Nat} {cs : List Char}
    (hcs : lines[number]? = some cs) :
    ∃ rest, expandLines lines = expandLines (lines.take number) ++
        (Line.read cs).expansion.map (fun i ↦ (number, i)) ++ rest ∧
      (∀ e ∈ expandLines (lines.take number), e.1 < number) ∧ ∀ e ∈ rest, number < e.1 := by
  obtain ⟨-, -, hbefore, -⟩ := expandLines_split lines number
  obtain ⟨rest, hsplit, -, hafter⟩ := expandLines_split lines (number + 1)
  obtain ⟨hlt, -⟩ := List.getElem?_eq_some_iff.mp hcs
  have hlength : (lines.take number).length = number := by
    rw [List.length_take]
    omega
  rw [List.take_add_one, hcs, Option.toList_some, expandLines_concat, hlength] at hsplit
  exact ⟨rest, hsplit, hbefore, fun e he ↦ hafter e he⟩

/-- As many instructions have numbers below `n` as the first `n` lines stand for. -/
theorem countP_expandLines (lines : List (List Char)) (n : Nat) :
    ((expandLines lines).map Prod.fst).countP (· < n) = (expandLines (lines.take n)).length := by
  obtain ⟨rest, hsplit, hbefore, hafter⟩ := expandLines_split lines n
  rw [hsplit, List.map_append, List.countP_append, List.countP_map, List.countP_map,
    List.countP_eq_length.mpr, List.countP_eq_zero.mpr, Nat.add_zero]
  · intro e he
    simpa using hafter e he
  · intro e he
    simpa using hbefore e he

/-- The instructions with numbers below `n` are the first. -/
theorem lt_iff_of_getElem?_expandLines {lines : List (List Char)} {j : Nat} {e : Nat × Instruction}
    (he : (expandLines lines)[j]? = some e) (n : Nat) :
    e.1 < n ↔ j < (expandLines (lines.take n)).length := by
  obtain ⟨rest, hsplit, hbefore, hafter⟩ := expandLines_split lines n
  rw [hsplit] at he
  constructor
  · intro hlt
    refine Classical.byContradiction fun hge ↦ ?_
    rw [List.getElem?_append_right (Nat.not_lt.mp hge)] at he
    exact absurd (hafter e (List.mem_of_getElem? he)) (Nat.not_le.mpr hlt)
  · intro hlt
    rw [List.getElem?_append_left hlt] at he
    exact hbefore e (List.mem_of_getElem? he)

/-- The numbers of the lines never go down. -/
theorem expandLines_sorted (lines : List (List Char)) :
    ((expandLines lines).map Prod.fst).Pairwise (· ≤ ·) := by
  induction lines using List.reverseRecOn with
  | nil => exact List.Pairwise.nil
  | append_singleton lines cs ih =>
    rw [expandLines_concat, List.map_append, List.pairwise_append]
    refine ⟨ih, ?_, ?_⟩
    · simp [List.pairwise_iff_getElem]
    · intro a ha b hb
      obtain ⟨⟨n, i⟩, hi, rfl⟩ := List.mem_map.mp ha
      obtain ⟨cs', hcs, -⟩ := mem_expandLines.mp hi
      obtain ⟨hlt, -⟩ := List.getElem?_eq_some_iff.mp hcs
      obtain ⟨_, hj, rfl⟩ := List.mem_map.mp hb
      obtain ⟨_, -, rfl⟩ := List.mem_map.mp hj
      exact Nat.le_of_lt hlt

/-! ## What reading a line can do

One equation for the body of a line and one case distinction for its label.  Invariants of the first
pass are proved from these two and do not open the step again. -/

namespace Instruction

theorem listing_append (is js : List Instruction) :
    listing (is ++ js) = listing is ++ listing js := by
  rw [listing, List.map_append, String.join_append, listing, listing]

end Instruction

namespace Scan

/-- Reading the body of a line adds its expansion to the listing and its remarks to the
diagnostics. -/
theorem readInstruction_eq (s : Scan) (line : Line) :
    ∃ log, s.readInstruction line =
      { s with
        listing := s.listing ++ Instruction.listing line.expansion
        origins := s.origins ++ Array.replicate line.expansion.length s.lines
        address := s.address + 4 * UInt32.ofNat line.expansion.length
        diagnostics := s.diagnostics ++ (line.remarks s.lines).toArray
        log } := by
  rw [readInstruction, Line.expansion, Line.instruction?, Line.remarks]
  cases line.tokens with
  | nil => exact ⟨s.log, by simp [Instruction.ofTokens?, Instruction.listing]⟩
  | cons first rest =>
    by_cases hdirective : isDirective first.text = true
    · exact ⟨s.log, by simp [Instruction.ofTokens?, Instruction.listing, hdirective]⟩
    · cases hexpand : Instruction.expand ⟨first.text, rest.map Text.Token.text⟩ with
      | error e =>
        exact ⟨_, by simp [Instruction.ofTokens?, Instruction.listing, hdirective, hexpand]; rfl⟩
      | ok is =>
        exact ⟨s.log, by simp [Instruction.ofTokens?, Option.filter, hdirective, hexpand]⟩

/-- Reading the label of a line can do three things: nothing, define the label at the address of
the next instruction, or add one error. -/
theorem defineLabel_cases {limit : Int} {s s' : Scan} {line : Line}
    (h : s.defineLabel limit line = some s') :
    line.label? = none ∧ s' = s ∨
      (∃ name labels, line.label? = some name ∧ Label.isValid name.text = true ∧
        s.labels.insert limit name.text s.address = (labels, .ok ()) ∧
        s' = { s with labels, labelLines := s.labelLines.push (name.text, s.lines) }) ∨
      ∃ name diagnostic log, line.label? = some name ∧
        diagnostic.isError = true ∧
        diagnostic.range = Range.onLine s.lines name.start name.stop ∧
        s' = { s with diagnostics := s.diagnostics.push diagnostic, log } := by
  rw [defineLabel] at h
  split at h
  · rename_i hlabel
    exact .inl ⟨hlabel, (Option.some.inj h).symm⟩
  · rename_i name hlabel
    right
    split at h
    · rename_i hvalid
      split at h
      · rename_i labels hinsert
        exact .inl ⟨name, labels, hlabel, hvalid, hinsert, (Option.some.inj h).symm⟩
      · rename_i labels e hinsert
        obtain ⟨fault, -, -, rfl⟩ | ⟨-, hok, -⟩ := SymbolTable.insert_cases hinsert
        · refine .inr ⟨name, _, _, hlabel, ?_, ?_, (Option.some.inj h).symm⟩
          · rw [labelDiagnostic]
            split <;> rfl
          · rw [labelDiagnostic]
            split <;> rfl
        · cases hok
      · cases h
    · exact .inr ⟨name, _, s.log, hlabel, rfl, rfl, (Option.some.inj h).symm⟩

/-! ## The invariant of the first pass

Listing, origins and address follow from the lines that were read.  Labels and diagnostics depend on
what the table refuses as well, so the description says less of them: each label has a line that
defines it, and what there is to say of the bodies of lines is among the diagnostics.  Which lines
define a label is a theory of its own. -/

/-- The line numbered `entry.2` of those read has the label `entry.1`, and `symbol` binds that name
to the address of the next instruction. -/
structure DefinedBy (base : UInt32) (read : List (List Char)) (symbol : Symbol)
    (entry : String × Nat) : Prop where
  /-- Both speak of the same label. -/
  name : entry.1 = symbol.name
  /-- The line has the label in front. -/
  label : ∃ cs, read[entry.2]? = some cs ∧
    (Line.read cs).label?.map Text.Token.text = some entry.1
  /-- As many instructions stand before the label as the lines before it stand for. -/
  address : symbol.address = Image.addressOf base (expandLines (read.take entry.2)).length

/-- The state follows from the lines that were read. -/
structure Describes (base : UInt32) (read : List (List Char)) (s : Scan) : Prop where
  /-- Lines are counted. -/
  lines : s.lines = read.length
  /-- The next instruction comes after those so far. -/
  address : s.address = Image.addressOf base (expandLines read).length
  /-- The listing has the instructions that the lines stand for. -/
  listing : s.listing = Instruction.listing ((expandLines read).map Prod.snd)
  /-- The origins are the numbers of their lines. -/
  origins : s.origins.toList = (expandLines read).map Prod.fst
  /-- The table of labels can be searched. -/
  wellFormed : s.labels.WellFormed
  /-- No label is in the table twice. -/
  unique : s.labels.mode = .unique
  /-- Each label in the table is defined by its line. -/
  labels : List.Forall₂ (DefinedBy base read) s.labels.entries.toList s.labelLines.toList
  /-- What there is to say of a line has been said. -/
  remarks : ∀ number cs, read[number]? = some cs →
    ∀ d ∈ (Line.read cs).remarks number, d ∈ s.diagnostics

variable {base : UInt32} {read : List (List Char)} {s s' : Scan}

theorem describes_start {limit : Int} {labels : SymbolTable}
    (h : SymbolTable.new limit .unique = .ok labels) (base : UInt32) :
    Describes base [] (start base labels) := by
  obtain rfl := SymbolTable.new_eq_ok h
  refine ⟨rfl, ?_, rfl, rfl, SymbolTable.wellFormed_new h, rfl, .nil, ?_⟩
  · simp [start, Image.addressOf]
  · intro number cs hcs
    cases hcs

theorem DefinedBy.concat {symbol : Symbol} {entry : String × Nat}
    (h : DefinedBy base read symbol entry) (cs : List Char) :
    DefinedBy base (read ++ [cs]) symbol entry := by
  obtain ⟨line, hline, hlabel⟩ := h.label
  obtain ⟨hlt, -⟩ := List.getElem?_eq_some_iff.mp hline
  refine ⟨h.name, ⟨line, ?_, hlabel⟩, ?_⟩
  · rw [List.getElem?_append_left hlt, hline]
  · rw [List.take_append_of_le_length (Nat.le_of_lt hlt), h.address]

/-- Reading a label keeps what is said of the instructions and adds at most a label that the line
defines. -/
theorem Describes.defineLabel {limit : Int} {cs : List Char} (h : Describes base read s)
    (hdefine : s.defineLabel limit (Line.read cs) = some s') :
    Describes base read { s' with labels := s.labels, labelLines := s.labelLines } ∧
      s'.labels.WellFormed ∧ s'.labels.mode = .unique ∧
      List.Forall₂ (DefinedBy base (read ++ [cs])) s'.labels.entries.toList
        s'.labelLines.toList := by
  have hold := h.labels.imp fun _ _ hdef ↦ hdef.concat cs
  obtain ⟨-, rfl⟩ | ⟨name, labels, hlabel, -, hinsert, rfl⟩ |
    ⟨name, diagnostic, log, -, -, -, rfl⟩ := defineLabel_cases hdefine
  · exact ⟨h, h.wellFormed, h.unique, hold⟩
  · obtain ⟨fault, -, hfault, -⟩ | ⟨-, -, hmode, hentries, -⟩ := SymbolTable.insert_cases hinsert
    · cases hfault
    · refine ⟨h, SymbolTable.wellFormed_insert h.wellFormed hinsert, hmode.trans h.unique, ?_⟩
      show List.Forall₂ _ labels.entries.toList (s.labelLines.push (name.text, s.lines)).toList
      rw [hentries, Array.toList_push, Array.toList_push]
      refine List.rel_append hold (.cons ⟨rfl, ⟨cs, ?_, ?_⟩, ?_⟩ .nil)
      · rw [h.lines, List.getElem?_concat_length]
      · rw [hlabel]
        rfl
      · show s.address = _
        rw [h.lines, List.take_left, h.address]
  · refine ⟨⟨h.lines, h.address, h.listing, h.origins, h.wellFormed, h.unique, h.labels, ?_⟩,
      h.wellFormed, h.unique, hold⟩
    intro number line hline d hd
    exact Array.mem_push_of_mem _ (h.remarks number line hline d hd)

/-- **Reading a line keeps the description**, unless the pass has stopped and the line is not
read. -/
theorem Describes.readLine {o : Options} {cs : List Char} (h : Describes o.base read s)
    (hstep : s.readLine o cs = some s') :
    (o.stopOnFirstError = true ∧ s.hasErrors = true) ∧ s' = s ∨
      ¬(o.stopOnFirstError = true ∧ s.hasErrors = true) ∧
        Describes o.base (read ++ [cs]) s' := by
  rw [Scan.readLine] at hstep
  rw [← Bool.and_eq_true]
  split at hstep
  · rename_i hstop
    exact .inl ⟨hstop, (Option.some.inj hstep).symm⟩
  · rename_i hgo
    refine .inr ⟨hgo, ?_⟩
    rw [Option.bind_eq_bind, Option.bind_eq_some_iff] at hstep
    obtain ⟨t, hdefine, hread⟩ := hstep
    -- the label of the line changes the table of labels only, and its instruction the rest
    obtain ⟨hframe, hwell, hunique, hlabels⟩ := h.defineLabel hdefine
    obtain ⟨log, hinstruction⟩ := readInstruction_eq t (Line.read cs)
    rw [hinstruction] at hread
    obtain rfl := Option.some.inj hread
    have hlines : t.lines = read.length := hframe.lines
    refine ⟨?_, ?_, ?_, ?_, hwell, hunique, hlabels, ?_⟩
    · simp [hlines]
    · have haddress : t.address = _ := hframe.address
      rw [expandLines_concat, List.length_append, List.length_map, Image.addressOf_add, ← haddress]
    · have hlisting : t.listing = _ := hframe.listing
      simp only [expandLines_concat, List.map_append, Instruction.listing_append, hlisting,
        List.map_map, Function.comp_def, List.map_id']
    · have horigins : t.origins.toList = _ := hframe.origins
      simp only [expandLines_concat, List.map_append, Array.toList_append, Array.toList_replicate,
        horigins, hlines, List.map_map, Function.comp_def, List.map_const']
    · intro number line hline d hd
      rw [Array.mem_append]
      rcases Nat.lt_or_ge number read.length with hlt | hge
      · rw [List.getElem?_append_left hlt] at hline
        exact .inl (hframe.remarks number line hline d hd)
      · -- the only line after those read is the new one
        rw [List.getElem?_append_right hge, List.getElem?_singleton] at hline
        split at hline
        · rename_i hnumber
          obtain rfl := Option.some.inj hline
          obtain rfl : number = t.lines := by omega
          exact .inr (List.mem_toArray.mpr hd)
        · cases hline

/-! ## The whole pass

By induction on the lines, where the pass may stop on the way.  Once it has stopped a step does
nothing, so the number of lines that were read does not grow any more. -/

/-- **What the first pass ends with.**  It has read a first part of the lines, all of them unless it
stopped at an error, and without an error before the last of them if it had to stop at one. -/
theorem ofLines_describes {o : Options} {labels : SymbolTable}
    (hnew : SymbolTable.new o.tableLimit .unique = .ok labels) {lines : List (List Char)}
    (h : ofLines o labels lines = some s) :
    s.lines ≤ lines.length ∧ Describes o.base (lines.take s.lines) s ∧
      (s.lines = lines.length ∨ o.stopOnFirstError = true ∧ s.hasErrors = true) ∧
      ∀ n < s.lines, ∀ t, ofLines o labels (lines.take n) = some t →
        ¬(o.stopOnFirstError = true ∧ t.hasErrors = true) := by
  refine foldlM_induction (P := fun lines s ↦ s.lines ≤ lines.length ∧
    Describes o.base (lines.take s.lines) s ∧
    (s.lines = lines.length ∨ o.stopOnFirstError = true ∧ s.hasErrors = true) ∧
    ∀ n < s.lines, ∀ t, ofLines o labels (lines.take n) = some t →
      ¬(o.stopOnFirstError = true ∧ t.hasErrors = true))
    ?_ h ?_
  · exact ⟨Nat.le_refl _, describes_start hnew o.base, .inl rfl,
      fun n hn ↦ absurd hn (Nat.not_lt_zero n)⟩
  · rintro done cs s s' - hdone ⟨hle, hdescribes, hend, hbefore⟩ hstep
    -- the lines that were read end where the pass has stopped, if it has
    obtain ⟨hstop, rfl⟩ | ⟨hgo, hnext⟩ := hdescribes.readLine hstep
    · refine ⟨?_, ?_, .inr hstop, fun n hn t ht ↦ hbefore n hn t ?_⟩
      · rw [List.length_append]
        omega
      · rwa [List.take_append_of_le_length hle]
      · rwa [List.take_append_of_le_length (by omega)] at ht
    · have hall : s.lines = done.length := hend.resolve_right hgo
      rw [hall, List.take_length] at hnext
      have hlines : s'.lines = (done ++ [cs]).length := hnext.lines
      refine ⟨Nat.le_of_eq hlines, ?_, .inl hlines, fun n hn t ht ↦ ?_⟩
      · rwa [hlines, List.take_length]
      · rw [hlines, List.length_append, List.length_singleton] at hn
        rw [List.take_append_of_le_length (by omega)] at ht
        rcases Nat.lt_or_ge n done.length with hlt | hge
        · exact hbefore n (hall ▸ hlt) t ht
        · rw [List.take_of_length_le hge] at ht
          obtain rfl := Option.some.inj (hdone.symm.trans ht)
          exact hgo

/-! ## Labels

A label is bound to the address of the next instruction at the time when its line is read.  Counted
in all instructions of the source, that is the number of instructions of the lines before it. -/

/-- **The address of a label** is that of the first instruction at or after the line that defines
it: as many instructions before it as the lines before that line stand for. -/
theorem Describes.labelLine?_of_find? (h : Describes base read s) {name : String} {dest : UInt32}
    (hfind : s.labels.find? name = some dest) :
    ∃ number, s.labelLine? name = some number ∧ number < read.length ∧
      dest = Image.addressOf base (expandLines (read.take number)).length := by
  rw [SymbolTable.find?_eq h.wellFormed, Option.map_eq_some_iff] at hfind
  obtain ⟨symbol, hsymbol, rfl⟩ := hfind
  obtain ⟨entry, hentry, hdef⟩ := find?_of_forall₂ (q := (·.1 == name))
    (fun x y hxy ↦ by rw [hxy.name]) h.labels hsymbol
  obtain ⟨cs, hcs, -⟩ := hdef.label
  obtain ⟨hlt, -⟩ := List.getElem?_eq_some_iff.mp hcs
  refine ⟨entry.2, ?_, hlt, hdef.address⟩
  rw [labelLine?, ← Array.find?_toList, hentry, Option.map_some]

end Scan
end MipsAsm
