import MipsAsm.Proofs.Assembly.Basic
import MipsAsm.Proofs.Encoding.Jumps

/-!
# Jumps and their records

A jump has a word whose target is left to be filled in, and a record of where to do that.  The
second pass makes the record together with the word, so the records are taken from the same lines of
the listing as the words of jumps, and in the same order.

A linker relies on two things: that every jump is recorded, and that every record is that of a jump
which is there.  One of the two would be easy to have by recording too much or too little.  The
result has both, as one list of lines of the listing from which the records and the words are read
off.

The table of labels and the records are of the same kind, but the records are never looked up, and a
label may have any number of them.

* `assemble_relocations` — the records after the second pass, line of the listing by line.
* `Assembly.recordAt?_of_jump`, `Assembly.jump_of_recordAt?` — the lines of the listing with records
  are the jumps that have words.
* `relocations_match_jumps` — the records and the words of jumps belong to the same lines.
-/

set_option autoImplicit false

namespace MipsAsm

/-! ## The records of the second pass

That an instruction adds a record is a fact of the encoder, and `assemble_image_induction` carries
it through the pass: the records of an assembly are those of the instructions that were read, in
order.  Everything else is about single lines of the listing. -/

namespace Image

variable {o : Options} {labels : SymbolTable} {m m' : Image}

/-- The record of an instruction that came from a source line, if it has one. -/
def record? (o : Options) (labels : SymbolTable) (entry : (Nat × Instruction) × Nat) :
    Option Symbol :=
  (outcome o labels entry.2 entry.1.2.reread).toOption.bind fun _ ↦
    entry.1.2.reread.record? (addressOf o.base entry.2)

/-- Encoding the next instruction adds its record, if it has one. -/
theorem relocations_of_place {number : Nat} {line : Line} {i : Instruction}
    (hmode : m.relocations.mode = .repeatable)
    (h : m.place o labels number line i = some m') :
    m'.relocations.entries.toList = m.relocations.entries.toList ++
      ((outcome o labels m.read i).toOption.bind fun _ ↦
        i.record? (addressOf o.base m.read)).toList := by
  rw [← encode_of_place hmode h]
  rw [place] at h
  cases hencode : i.encode o.tableLimit (addressOf o.base m.read)
      { symbols := some labels, relocations := some m.relocations } with
  | mk tables result =>
    obtain ⟨r, hr, hentries⟩ := Instruction.encode_relocations hencode
    simp only [hencode, hr] at h
    cases result with
    | ok word =>
      obtain rfl := Option.some.inj h
      exact hentries
    | error fault =>
      cases fault with
      | rejected e =>
        obtain rfl := Option.some.inj h
        exact hentries
      | outOfMemory => cases h

end Image

/-- **The records after the second pass** are those of the instructions that it has read. -/
theorem assemble_relocations {o : Options} {source : String} {a : Assembly}
    (h : assemble o source = some a) :
    a.relocations.entries.toList =
      (a.entries.take a.image.read).zipIdx.filterMap (Image.record? o a.labels) := by
  refine assemble_image_induction h (P := fun done m ↦
    m.relocations.entries.toList = done.zipIdx.filterMap (Image.record? o a.labels)) rfl ?_
  intro done number i m m' hdescribes hdone hplace
  rw [Image.relocations_of_place hdescribes.repeatable hplace, hdone, List.zipIdx_append,
    List.filterMap_append, Nat.zero_add, hdescribes.read]
  rfl

namespace Assembly

variable {o : Options} {a : Assembly} {k : Nat}

/-- The record of a line of the listing, if it has one. -/
def recordAt? (o : Options) (a : Assembly) (k : Nat) : Option Symbol :=
  (a.instructionAt? k).bind fun i ↦ (Image.outcome o a.labels k i).toOption.bind fun _ ↦
    i.record? (Image.addressOf o.base k)

/-- The word of a line of the listing with its address, if it has one. -/
def placementAt? (o : Options) (a : Assembly) (k : Nat) : Option Placement :=
  a.entries[k]?.bind fun e ↦ Image.placement? o a.labels (e, k)

theorem wordAt?_eq_some {w : UInt32} (h : a.wordAt? o k = some w) :
    ∃ i tables, a.instructionAt? k = some i ∧
      i.encode o.tableLimit (Image.addressOf o.base k)
        { symbols := some a.labels, relocations := some (.empty .repeatable) } =
        (tables, .ok w) := by
  obtain ⟨i, hi, hw⟩ := Option.bind_eq_some_iff.mp h
  exact ⟨i, _, hi, Prod.ext rfl (eq_ok_of_toOption_eq_some hw)⟩

/-- **A jump with a word has a record.** -/
theorem recordAt?_of_jump {i : Instruction} {w : UInt32} (hi : a.instructionAt? k = some i)
    (hjump : i.IsJump) (hw : a.wordAt? o k = some w) :
    ∃ label, i.args = [label] ∧ Label.isValid label = true ∧ IsJumpWord w ∧
      (JType.ofWord w).target = 0 ∧
      a.recordAt? o k = some { name := label, address := Image.addressOf o.base k } := by
  obtain ⟨i', tables, hi', hencode⟩ := wordAt?_eq_some hw
  obtain rfl := Option.some.inj (hi.symm.trans hi')
  obtain ⟨label, hargs, hvalid, htarget⟩ := Instruction.encode_jump hjump hencode
  refine ⟨label, hargs, hvalid, (Instruction.isJumpWord_iff hencode).mpr hjump, htarget, ?_⟩
  have houtcome : Image.outcome o a.labels k i = .ok w := congrArg Prod.snd hencode
  rw [recordAt?, hi, Option.bind_some, houtcome, Instruction.record?, if_pos hjump, hargs]
  rfl

/-- **A line of the listing with a record is a jump with a word.** -/
theorem jump_of_recordAt? {s : Symbol} (h : a.recordAt? o k = some s) :
    ∃ i w, a.instructionAt? k = some i ∧ i.IsJump ∧ a.wordAt? o k = some w := by
  obtain ⟨i, hi, h⟩ := Option.bind_eq_some_iff.mp h
  obtain ⟨w, hw, h⟩ := Option.bind_eq_some_iff.mp h
  rw [Instruction.record?] at h
  split at h
  · rename_i hjump
    exact ⟨i, w, hi, hjump, by rw [wordAt?, hi, Option.bind_some, hw]⟩
  · cases h

/-- A line of the listing with the word of a jump is a jump. -/
theorem jump_of_isJumpWord {w : UInt32} (hw : a.wordAt? o k = some w) (hjump : IsJumpWord w) :
    ∃ i, a.instructionAt? k = some i ∧ i.IsJump := by
  obtain ⟨i, tables, hi, hencode⟩ := wordAt?_eq_some hw
  exact ⟨i, hi, (Instruction.isJumpWord_iff hencode).mp hjump⟩

theorem placementAt?_eq_some {source : String} (h : assemble o source = some a) {p : Placement}
    (hp : a.placementAt? o k = some p) :
    a.wordAt? o k = some p.word ∧ p.address = Image.addressOf o.base k := by
  refine ⟨?_, ?_⟩
  · have hword := (assemble_describes h).wordAt?_eq k
    rw [hword]
    exact congrArg (Option.map Placement.word) hp
  · obtain ⟨e, -, hp⟩ := Option.bind_eq_some_iff.mp hp
    rw [Image.placement?] at hp
    split at hp
    · obtain rfl := Option.some.inj hp
      rfl
    · cases hp

theorem exists_placementAt? {source : String} (h : assemble o source = some a) {w : UInt32}
    (hw : a.wordAt? o k = some w) : ∃ p, a.placementAt? o k = some p ∧ p.word = w := by
  have hword := (assemble_describes h).wordAt?_eq k
  rw [hw] at hword
  exact Option.map_eq_some_iff.mp hword.symm

theorem placements_eq {source : String} (h : assemble o source = some a) :
    a.image.placements.toList = (List.range a.image.read).filterMap (a.placementAt? o) := by
  have hdescribes := assemble_describes h
  rw [hdescribes.image.placements, hdescribes.filterMap_entries]
  rfl

theorem relocations_eq {source : String} (h : assemble o source = some a) :
    a.relocations.entries.toList = (List.range a.image.read).filterMap (a.recordAt? o) := by
  have hdescribes := assemble_describes h
  rw [assemble_relocations h, hdescribes.filterMap_entries]
  refine List.filterMap_congr fun k _ ↦ ?_
  rw [recordAt?, hdescribes.instructionAt?_eq, Option.bind_map]
  rfl

/-- The lines of the listing that the second pass has read and that have a record. -/
def jumpLines (o : Options) (a : Assembly) : List Nat :=
  (List.range a.image.read).filter fun k ↦ (a.recordAt? o k).isSome

/-- They are the jumps that the second pass encodes. -/
theorem mem_jumpLines_iff {source : String} (h : assemble o source = some a) :
    k ∈ a.jumpLines o ↔ ∃ i w, a.instructionAt? k = some i ∧ i.IsJump ∧ a.Encodes o k w := by
  rw [jumpLines, List.mem_filter, List.mem_range, Option.isSome_iff_exists]
  constructor
  · rintro ⟨hread, s, hs⟩
    obtain ⟨i, w, hi, hjump, hw⟩ := jump_of_recordAt? hs
    exact ⟨i, w, hi, hjump, (encodes_iff h).mpr ⟨hread, hw⟩⟩
  · rintro ⟨i, w, hi, hjump, hencodes⟩
    obtain ⟨hread, hw⟩ := (encodes_iff h).mp hencodes
    obtain ⟨label, -, -, -, -, hrecord⟩ := recordAt?_of_jump hi hjump hw
    exact ⟨hread, _, hrecord⟩

/-- **The records belong to these lines**, in order. -/
theorem forall₂_relocations {source : String} (h : assemble o source = some a) :
    List.Forall₂ (fun k s ↦ (∃ i, a.instructionAt? k = some i ∧ i.args = [s.name]) ∧
      s.address = Image.addressOf o.base k) (a.jumpLines o) a.relocations.entries.toList := by
  have hmatch := @forall₂_filter_filterMap _ _ (a.recordAt? o) (fun _ ↦ true)
    (fun k ↦ (a.recordAt? o k).isSome) (List.range a.image.read)
    fun k _ ↦ by simp [Option.isSome_iff_exists]
  rw [List.filter_true, ← relocations_eq h] at hmatch
  refine hmatch.imp ?_
  rintro k s ⟨-, hs, -⟩
  obtain ⟨i, w, hi, hjump, hw⟩ := jump_of_recordAt? hs
  obtain ⟨label, hargs, -, -, -, hrecord⟩ := recordAt?_of_jump hi hjump hw
  obtain rfl := Option.some.inj (hs.symm.trans hrecord)
  exact ⟨⟨i, hi, hargs⟩, rfl⟩

/-- **The words of jumps belong to these lines**, in order. -/
theorem forall₂_jumpWords {source : String} (h : assemble o source = some a) :
    List.Forall₂ (fun k p ↦ a.Encodes o k p.word ∧ p.address = Image.addressOf o.base k ∧
        (JType.ofWord p.word).target = 0)
      (a.jumpLines o) (a.image.placements.toList.filter fun p ↦ IsJumpWord p.word) := by
  have hpicked : ∀ k ∈ List.range a.image.read, (a.recordAt? o k).isSome = true ↔
      ∃ p, a.placementAt? o k = some p ∧ decide (IsJumpWord p.word) = true := by
    intro k _
    rw [Option.isSome_iff_exists]
    constructor
    · rintro ⟨s, hs⟩
      obtain ⟨i, w, hi, hjump, hw⟩ := jump_of_recordAt? hs
      obtain ⟨-, -, -, hjumpWord, -, -⟩ := recordAt?_of_jump hi hjump hw
      obtain ⟨p, hp, rfl⟩ := exists_placementAt? h hw
      exact ⟨p, hp, decide_eq_true hjumpWord⟩
    · rintro ⟨p, hp, hjumpWord⟩
      obtain ⟨hw, -⟩ := placementAt?_eq_some h hp
      obtain ⟨i, hi, hjump⟩ := jump_of_isJumpWord hw (of_decide_eq_true hjumpWord)
      obtain ⟨label, -, -, -, -, hrecord⟩ := recordAt?_of_jump hi hjump hw
      exact ⟨_, hrecord⟩
  have hmatch := forall₂_filter_filterMap hpicked
  rw [← placements_eq h] at hmatch
  refine hmatch.imp ?_
  rintro k p ⟨hk, hp, hjumpWord⟩
  obtain ⟨hw, haddress⟩ := placementAt?_eq_some h hp
  obtain ⟨i, hi, hjump⟩ := jump_of_isJumpWord hw (of_decide_eq_true hjumpWord)
  obtain ⟨label, -, -, -, htarget, -⟩ := recordAt?_of_jump hi hjump hw
  exact ⟨(encodes_iff h).mpr ⟨List.mem_range.mp hk, hw⟩, haddress, htarget⟩

/-- Each record names a label, and there is a word at its address. -/
theorem of_mem_relocations {source : String} (h : assemble o source = some a) {s : Symbol}
    (hs : s ∈ a.relocations.entries) : Label.isValid s.name = true ∧ s.address ∈ a.addressMap := by
  rw [← Array.mem_toList_iff, relocations_eq h] at hs
  obtain ⟨k, hk, hs⟩ := List.mem_filterMap.mp hs
  obtain ⟨i, w, hi, hjump, hw⟩ := jump_of_recordAt? hs
  obtain ⟨label, -, hvalid, -, -, hrecord⟩ := recordAt?_of_jump hi hjump hw
  obtain rfl := Option.some.inj (hs.symm.trans hrecord)
  obtain ⟨p, hp, -⟩ := exists_placementAt? h hw
  refine ⟨hvalid, ?_⟩
  rw [Std.TreeMap.mem_iff_isSome_getElem?, getElem?_addressMap, List.find?_isSome, placements_eq h]
  exact ⟨p, List.mem_reverse.mpr (List.mem_filterMap.mpr ⟨k, hk, hp⟩),
    beq_iff_eq.mpr (placementAt?_eq_some h hp).2⟩

end Assembly

/-- **Records match jumps.**  There are lines of the listing, in order and each once, to which both
the records and the words of jumps belong: those with a jump that the second pass encodes.  The
record of such a line has its label and its address, and its word has no target yet.  So each record
names a label, and there is a word at its address.  The second pass leaves the labels as the first
has found them. -/
theorem relocations_match_jumps (o : Options) (source : String) (a : Assembly)
    (h : assemble o source = some a) :
    (∃ ks : List Nat, ks.Pairwise (· < ·) ∧
      (∀ k, k ∈ ks ↔
        ∃ i w, a.instructionAt? k = some i ∧ (i.mnemonic = "j" ∨ i.mnemonic = "jal") ∧
          a.Encodes o k w) ∧
      List.Forall₂ (fun k s ↦ (∃ i, a.instructionAt? k = some i ∧ i.args = [s.name]) ∧
          s.address = Image.addressOf o.base k)
        ks a.relocations.entries.toList ∧
      List.Forall₂ (fun k p ↦ a.Encodes o k p.word ∧ p.address = Image.addressOf o.base k ∧
          (JType.ofWord p.word).target = 0)
        ks (a.image.placements.toList.filter fun p ↦ IsJumpWord p.word)) ∧
    (∀ s ∈ a.relocations.entries, Label.isValid s.name = true ∧ s.address ∈ a.addressMap) ∧
    (∃ labels, SymbolTable.new o.tableLimit .unique = .ok labels ∧
      (Scan.ofLines o labels (Text.splitLines source.toList)).map Scan.labels = some a.labels) ∧
    ∀ (i : Instruction) address relocations,
      (i.encode o.tableLimit address { symbols := some a.labels, relocations }).1.symbols =
        some a.labels := by
  refine ⟨⟨a.jumpLines o, ?_, fun k ↦ Assembly.mem_jumpLines_iff h,
    Assembly.forall₂_relocations h, Assembly.forall₂_jumpWords h⟩,
    fun s ↦ Assembly.of_mem_relocations h, ?_, fun i address relocations ↦ ?_⟩
  · exact List.pairwise_lt_range.filter _
  · obtain ⟨labels, -, hlabels, -, -, hscan, -⟩ := assemble_cases h
    exact ⟨labels, hlabels, by rw [hscan]; rfl⟩
  · exact Instruction.encode_symbols _ i address _

/-- Two jumps to one label, one to a label that is not defined here, and between them one that has
no word, over the end of the address space. -/
theorem relocations_match_jumps_repeated :
    ∃ a, assemble { base := 0xfffffff8 } "x: jal x\nj 5\nj x\njal y\njr $ra" = some a ∧
      a.words = #[0x0c000000, 0x08000000, 0x0c000000, 0x03e00008] ∧
      (∃ ks : List Nat, ks.Pairwise (· < ·) ∧ 1 ∉ ks ∧
        List.Forall₂ (fun k (s : Symbol) ↦
            (∃ i, a.instructionAt? k = some i ∧ i.args = [s.name]) ∧
              s.address = Image.addressOf 0xfffffff8 k)
          ks [⟨"x", 0xfffffff8⟩, ⟨"x", 0⟩, ⟨"y", 4⟩]) ∧
      (4 : UInt32) ∈ a.addressMap := by
  have hrun : (assemble { base := 0xfffffff8 } "x: jal x\nj 5\nj x\njal y\njr $ra").map
      (fun a ↦ (a.words, a.relocations.entries, a.wordAt? { base := 0xfffffff8 } 1)) =
      some (#[0x0c000000, 0x08000000, 0x0c000000, 0x03e00008],
        #[⟨"x", 0xfffffff8⟩, ⟨"x", 0⟩, ⟨"y", 4⟩], none) := by
    decide +kernel
  obtain ⟨a, ha, hrun⟩ := Option.map_eq_some_iff.mp hrun
  simp only [Prod.mk.injEq] at hrun
  obtain ⟨hwords, hrecords, hnone⟩ := hrun
  obtain ⟨⟨ks, hks, hlines, hmatch, -⟩, hnames, -⟩ := relocations_match_jumps _ _ a ha
  rw [hrecords] at hmatch hnames
  refine ⟨a, ha, hwords, ⟨ks, hks, ?_, hmatch⟩, (hnames ⟨"y", 4⟩ (by simp)).2⟩
  -- the jump on the second line has no word
  rw [hlines]
  rintro ⟨i, w, -, -, hencodes⟩
  have hw := Assembly.wordAt?_of_encodes ha hencodes
  rw [hnone] at hw
  cases hw

end MipsAsm
