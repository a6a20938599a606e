import MipsAsm.Proofs.Assembly.Image

/-!
# What an assembly says of its source

An assembly comes from two passes, of which the second may not run at all and either may stop early.
`Assembly.Describes` puts together what both have found, in terms of the lines of the source and of
`Assembly.entries`, the instructions that those stand for.

Most of what follows starts from here.  A result about assemblies takes `assemble o source = some
a`, gets `Assembly.Describes` from it, and then speaks of lines and instructions without opening the
passes.  The description does not say where lines were left unread, only how many were read: that a
pass has stopped is a disjunct of `Assembly.Describes.scanned`, which is closed at once where the
option is off.

* `assemble_describes` — what the assembler returns describes the source.
* `assemble_image_induction` — what encoding an instruction keeps holds of the whole second pass.
* `Assembly.Describes.wordAt?_eq` — the word of a line of the listing, as a fact about an
  instruction of the source.
* `Assembly.encodes_iff` — the second pass adds a word at a line of the listing if it has read the
  line and the line has the word.
-/

set_option autoImplicit false

namespace MipsAsm

variable {o : Options} {a : Assembly}

/-- What the assembler does: it makes two tables, runs the first pass, and the second unless it is
to stop because of an error of the first. -/
theorem assemble_cases {source : String} (h : assemble o source = some a) :
    ∃ labels relocations, SymbolTable.new o.tableLimit .unique = .ok labels ∧
      SymbolTable.new o.tableLimit .repeatable = .ok relocations ∧
      a.source = (Text.splitLines source.toList).toArray ∧
      Scan.ofLines o labels (Text.splitLines source.toList) = some a.scan ∧
      ((o.stopOnFirstError = true ∧ a.scan.hasErrors = true) ∧ a.image = Image.start relocations ∨
        ¬(o.stopOnFirstError = true ∧ a.scan.hasErrors = true) ∧
          Image.ofListing o a.source a.scan relocations = some a.image) := by
  rw [assemble, assembleLines] at h
  simp only [Option.bind_eq_bind, Option.bind_eq_some_iff] at h
  obtain ⟨labels, hlabels, relocations, hrelocations, scan, hscan, hrest⟩ := h
  refine ⟨labels, relocations, eq_ok_of_toOption_eq_some hlabels,
    eq_ok_of_toOption_eq_some hrelocations, ?_⟩
  split at hrest
  · rename_i hskip
    obtain rfl := Option.some.inj hrest
    refine ⟨rfl, hscan, ?_⟩
    rw [← Bool.and_eq_true]
    by_cases hstop : (o.stopOnFirstError && scan.hasErrors) = true
    · exact .inl ⟨hstop, rfl⟩
    · -- an empty listing has no lines, so that the second pass would find nothing
      refine .inr ⟨hstop, ?_⟩
      have hempty : scan.listing = "" := by simpa [hstop] using hskip
      simp only [Image.ofListing, Image.listingLines, hempty]
      rfl
  · rename_i hrun
    obtain ⟨image, himage, hdone⟩ := Option.bind_eq_some_iff.mp hrest
    obtain rfl := Option.some.inj hdone
    refine ⟨rfl, hscan, .inr ⟨?_, himage⟩⟩
    rw [← Bool.and_eq_true]
    exact fun hstop ↦ hrun (Bool.or_eq_true _ _ ▸ .inl hstop)

/-- An assembly is made of what the two passes return. -/
theorem exists_assemble {source : String} {labels relocations : SymbolTable} {scan : Scan}
    {image : Image} (hlabels : SymbolTable.new o.tableLimit .unique = .ok labels)
    (hrelocations : SymbolTable.new o.tableLimit .repeatable = .ok relocations)
    (hscan : Scan.ofLines o labels (Text.splitLines source.toList) = some scan)
    (himage : (o.stopOnFirstError = true ∧ scan.hasErrors = true) ∧
        image = Image.start relocations ∨
      ¬(o.stopOnFirstError = true ∧ scan.hasErrors = true) ∧
        Image.ofListing o (Text.splitLines source.toList).toArray scan relocations =
          some image) :
    ∃ a, assemble o source = some a ∧ a.scan = scan ∧ a.image = image := by
  rw [← Bool.and_eq_true] at himage
  simp only [assemble, assembleLines, hlabels, hrelocations, hscan, Except.toOption,
    Option.bind_eq_bind, Option.bind_some]
  obtain ⟨hstop, rfl⟩ | ⟨hgo, hrun⟩ := himage
  · rw [if_pos (by simp [hstop])]
    exact ⟨_, rfl, rfl, rfl⟩
  · by_cases hempty : scan.listing = ""
    · -- an empty listing has no lines, so that the second pass finds nothing
      have hnothing : Image.start relocations = image := by
        simpa [Image.ofListing, Image.listingLines, hempty] using hrun
      rw [if_pos (by simp [hempty])]
      exact ⟨_, rfl, rfl, hnothing⟩
    · rw [if_neg (by simp [hgo, hempty]), hrun]
      exact ⟨_, rfl, rfl, rfl⟩

namespace Assembly

/-- Whether there is an error is whether one of the passes has found one. -/
theorem hasErrors_eq (a : Assembly) : a.hasErrors = (a.scan.hasErrors || a.image.hasErrors) :=
  Array.any_append

/-- The map of addresses has the last word at each of them. -/
theorem getElem?_addressMap (a : Assembly) (x : UInt32) :
    a.addressMap[x]? = a.image.placements.toList.reverse.find? (·.address == x) := by
  rw [addressMap, ← Array.foldl_toList]
  induction a.image.placements.toList using List.reverseRecOn with
  | nil => simp
  | append_singleton ps p ih =>
    rw [List.foldl_concat, Std.TreeMap.getElem?_insert, ih, List.reverse_concat]
    by_cases hp : p.address = x
    · rw [List.find?_cons_of_pos (by simp [hp])]
      simp [hp]
    · rw [List.find?_cons_of_neg (by simp [hp])]
      simp [hp]

/-- The instructions of the source lines that were read, each with the number of its line. -/
def entries (a : Assembly) : List (Nat × Instruction) :=
  expandLines (a.source.toList.take a.scan.lines)

/-- The instruction on a line of the listing. -/
def instructionAt? (a : Assembly) (k : Nat) : Option Instruction :=
  (Image.listingLines a.listing)[k]?.bind fun cs ↦
    Instruction.ofTokens? (Text.tokens Line.isSeparator 0 cs)

/-- The word of a line of the listing, if its instruction can be encoded. -/
def wordAt? (o : Options) (a : Assembly) (k : Nat) : Option UInt32 :=
  (a.instructionAt? k).bind fun i ↦ (Image.outcome o a.labels k i).toOption

/-- The assembly follows from the lines of a source. -/
structure Describes (o : Options) (lines : List (List Char)) (a : Assembly) : Prop where
  /-- The lines are kept. -/
  source : a.source.toList = lines
  /-- The lines that were read have no line feeds. -/
  lineFeed : ∀ l ∈ lines.take a.scan.lines, '\n' ∉ l
  /-- The first pass has found what the lines that it read stand for. -/
  scan : a.scan.Describes o.base (lines.take a.scan.lines)
  /-- The first pass has read all lines, or stopped at an error. -/
  scanned : a.scan.lines = lines.length ∨ o.stopOnFirstError = true ∧ a.scan.hasErrors = true
  /-- The second pass has found what the instructions that it read give. -/
  image : a.image.Describes o a.source a.labels (a.entries.take a.image.read)
  /-- The second pass has read all instructions, or was stopped by an error of either pass. -/
  placed : a.image.read = a.entries.length ∨ o.stopOnFirstError = true ∧ a.hasErrors = true

end Assembly

/-- **What the assembler returns describes the source.** -/
theorem assemble_describes {source : String} (h : assemble o source = some a) :
    a.Describes o (Text.splitLines source.toList) := by
  obtain ⟨labels, relocations, hlabels, hrelocations, hsource, hscan, himage⟩ := assemble_cases h
  obtain ⟨-, hdescribes, hend, -⟩ := Scan.ofLines_describes hlabels hscan
  have hmode : relocations.mode = .repeatable := by
    rw [SymbolTable.new_eq_ok hrelocations]
    rfl
  have hlines : a.source.toList = Text.splitLines source.toList := by rw [hsource]
  have hentries : a.entries = expandLines ((Text.splitLines source.toList).take a.scan.lines) := by
    rw [Assembly.entries, hlines]
  have hlineFeed : ∀ l ∈ (Text.splitLines source.toList).take a.scan.lines, '\n' ∉ l :=
    fun l hl ↦ lineFeed_not_mem_of_take hl
  obtain ⟨hstop, hstart⟩ | ⟨-, hrun⟩ := himage
  · refine ⟨hlines, hlineFeed, hdescribes, hend, ?_, .inr ⟨hstop.1, ?_⟩⟩
    · rw [hstart]
      exact Image.describes_start o a.source a.labels hmode
    · rw [a.hasErrors_eq, hstop.2, Bool.true_or]
  · rw [Image.ofListing, ← List.take_length (l := Image.listingLines a.scan.listing)] at hrun
    obtain ⟨-, hdone, hcount⟩ := hdescribes.image hlineFeed hmode hrun
    rw [hdescribes.listingLines hlineFeed, List.length_map, Nat.min_self, ← hentries] at hcount
    refine ⟨hlines, hlineFeed, hdescribes, hend, by rw [hentries]; exact hdone, ?_⟩
    refine hcount.imp_right fun hstop ↦ ⟨hstop.1, ?_⟩
    rw [a.hasErrors_eq, hstop.2, Bool.or_true]

namespace Assembly
namespace Describes

variable {lines : List (List Char)}

theorem entries_eq (h : a.Describes o lines) :
    a.entries = expandLines (lines.take a.scan.lines) := by
  rw [entries, h.source]

theorem wellSpelled (h : a.Describes o lines) {e : Nat × Instruction} (he : e ∈ a.entries) :
    e.2.WellSpelled := by
  rw [h.entries_eq] at he
  exact wellSpelled_of_mem_expandLines h.lineFeed he

theorem listingLines (h : a.Describes o lines) :
    Image.listingLines a.listing = a.entries.map fun e ↦ e.2.text.toList := by
  rw [h.entries_eq]
  exact h.scan.listingLines h.lineFeed

theorem length_listingLines (h : a.Describes o lines) :
    (Image.listingLines a.listing).length = a.entries.length := by
  rw [h.listingLines, List.length_map]

theorem origins (h : a.Describes o lines) : a.scan.origins.toList = a.entries.map Prod.fst := by
  rw [h.entries_eq, h.scan.origins]

theorem instructionAt?_eq (h : a.Describes o lines) (k : Nat) :
    a.instructionAt? k = a.entries[k]?.map fun e ↦ e.2.reread := by
  rw [instructionAt?, h.listingLines, List.getElem?_map, Option.bind_map]
  cases hk : a.entries[k]? with
  | none => rfl
  | some e => exact Instruction.ofTokens?_text (h.wellSpelled (List.mem_of_getElem? hk))

/-- **The word of a line of the listing** is that of an instruction of the source. -/
theorem wordAt?_eq (h : a.Describes o lines) (k : Nat) :
    a.wordAt? o k =
      (a.entries[k]?.bind fun e ↦ Image.placement? o a.labels (e, k)).map Placement.word := by
  rw [wordAt?, h.instructionAt?_eq]
  cases a.entries[k]? with
  | none => rfl
  | some e =>
    simp only [Option.map_some, Option.bind_some, Image.placement?]
    cases Image.outcome o a.labels k e.2.reread <;> rfl

theorem read_le (h : a.Describes o lines) : a.image.read ≤ a.entries.length := by
  have hread := h.image.read
  rw [List.length_take] at hread
  omega

/-- What the second pass takes from the instructions that it has read, position by position. -/
theorem filterMap_entries (h : a.Describes o lines) {β : Type}
    (f : (Nat × Instruction) × Nat → Option β) :
    (a.entries.take a.image.read).zipIdx.filterMap f =
      (List.range a.image.read).filterMap fun k ↦ a.entries[k]?.bind fun e ↦ f (e, k) := by
  rw [filterMap_zipIdx, List.length_take, Nat.min_eq_left h.read_le]
  refine List.filterMap_congr fun k hk ↦ ?_
  rw [List.getElem?_take_of_lt (List.mem_range.mp hk)]

/-- The diagnostics of the second pass are those of the lines of the listing that it has read. -/
theorem mem_image_diagnostics (h : a.Describes o lines) {d : Diagnostic} :
    d ∈ a.image.diagnostics ↔ ∃ k < a.image.read, ∃ entry, a.entries[k]? = some entry ∧
      Image.diagnostic? o a.source a.labels (entry, k) = some d := by
  rw [← Array.mem_toList_iff, h.image.diagnostics, h.filterMap_entries, List.mem_filterMap]
  simp only [List.mem_range, Option.bind_eq_some_iff]

end Describes
end Assembly

/-- **What encoding an instruction keeps holds of the whole second pass**, of which the description
is known on the way. -/
theorem assemble_image_induction {source : String} (h : assemble o source = some a)
    {P : List (Nat × Instruction) → Image → Prop}
    (hstart : P [] (Image.start (.empty .repeatable)))
    (hplace : ∀ done number i m m', m.Describes o a.source a.labels done → P done m →
      m.place o a.labels number (Line.read (a.source[number]?.getD [])) i.reread = some m' →
      P (done ++ [(number, i)]) m') :
    P (a.entries.take a.image.read) a.image := by
  have hdescribes := assemble_describes h
  obtain ⟨labels, relocations, -, hnew, -, -, hpass⟩ := assemble_cases h
  obtain rfl := SymbolTable.new_eq_ok hnew
  obtain ⟨-, himage⟩ | ⟨-, hrun⟩ := hpass
  · rw [himage]
    exact hstart
  · have hlines : Image.listingLines a.scan.listing = _ := hdescribes.listingLines
    rw [Image.ofListing, hlines] at hrun
    obtain ⟨-, -, hP, -⟩ := Image.foldlM_describes_and rfl (fun e ↦ hdescribes.wellSpelled)
      (hdescribes.origins ▸ List.prefix_rfl) hstart hplace hrun
    exact hP

namespace Assembly

/-! ## Words that the second pass adds

That a line of the listing was encoded is said of the run itself: the pass has one word more after
the line than before it.  `Assembly.imageAfter` is the pass after so many lines, and from what it
knows there it follows that this happens just where the line has been read and its instruction has a
word.  The results about words start from the first form, and are proved from the second. -/

/-- The second pass after the first `k` lines of the listing. -/
def imageAfter (o : Options) (a : Assembly) (k : Nat) : Option Image :=
  ((Image.listingLines a.listing).take k).foldlM (Image.readLine o a.source a.scan)
    (Image.start (.empty .repeatable))

/-- The second pass encodes line `k` of the listing to the word `w`: after the line it has one word
more than before, which is `w` among the words of the assembly. -/
def Encodes (o : Options) (a : Assembly) (k : Nat) (w : UInt32) : Prop :=
  ∃ before after, a.imageAfter o k = some before ∧ a.imageAfter o (k + 1) = some after ∧
    after.placements.size = before.placements.size + 1 ∧
    a.words[before.placements.size]? = some w

namespace Describes

variable {lines : List (List Char)} {k : Nat} {e : Nat × Instruction} {m before after : Image}

theorem imageAfter (h : a.Describes o lines) (hm : a.imageAfter o k = some m) :
    m.read ≤ k ∧ m.Describes o a.source a.labels (a.entries.take m.read) ∧
      (m.read = min k a.entries.length ∨ o.stopOnFirstError = true ∧ m.hasErrors = true) := by
  rw [h.entries_eq]
  exact h.scan.image h.lineFeed rfl hm

theorem imageAfter_succ (h : a.Describes o lines) (he : a.entries[k]? = some e) :
    a.imageAfter o (k + 1) =
      (a.imageAfter o k).bind fun m ↦ m.readLine o a.source a.scan e.2.text.toList := by
  have hline : (Image.listingLines a.listing)[k]? = some e.2.text.toList := by
    rw [h.listingLines, List.getElem?_map, he, Option.map_some]
  rw [Assembly.imageAfter, List.take_add_one, hline, Option.toList_some, List.foldlM_append,
    Assembly.imageAfter]
  simp

theorem imageAfter_succ_of_none (h : a.Describes o lines) (he : a.entries[k]? = none) :
    a.imageAfter o (k + 1) = a.imageAfter o k := by
  have hlength : (Image.listingLines a.listing).length ≤ k := by
    rw [h.listingLines, List.length_map]
    exact List.getElem?_eq_none_iff.mp he
  rw [Assembly.imageAfter, Assembly.imageAfter, List.take_of_length_le hlength,
    List.take_of_length_le (Nat.le_succ_of_le hlength)]

/-- What the second pass does at a line of the listing, unless it has stopped: it encodes the
instruction there. -/
theorem imageAfter_place (h : a.Describes o lines) (he : a.entries[k]? = some e)
    (hbefore : a.imageAfter o k = some before) (hafter : a.imageAfter o (k + 1) = some after)
    (hgo : ¬(o.stopOnFirstError = true ∧ before.hasErrors = true)) :
    before.Describes o a.source a.labels (a.entries.take k) ∧ (a.entries.take k).length = k ∧
      before.place o a.labels e.1 (Line.read (a.source[e.1]?.getD [])) e.2.reread =
        some after := by
  obtain ⟨hk, -⟩ := List.getElem?_eq_some_iff.mp he
  have hlength : (a.entries.take k).length = k := by
    rw [List.length_take]
    omega
  obtain ⟨-, hdescribes, hcount⟩ := h.imageAfter hbefore
  rw [hcount.resolve_right hgo, Nat.min_eq_left (Nat.le_of_lt hk)] at hdescribes
  have horigin : a.scan.origins[(a.entries.take k).length]? = some e.1 := by
    rw [hlength, ← Array.getElem?_toList, h.origins, List.getElem?_map, he, Option.map_some]
  rw [h.imageAfter_succ he, hbefore, Option.bind_some,
    Image.readLine_text hdescribes hgo (h.wellSpelled (List.mem_of_getElem? he)) horigin] at hafter
  exact ⟨hdescribes, hlength, hafter⟩

/-- What the second pass knows before and after a line of the listing, unless it has stopped. -/
theorem imageAfter_describes (h : a.Describes o lines) (he : a.entries[k]? = some e)
    (hbefore : a.imageAfter o k = some before) (hafter : a.imageAfter o (k + 1) = some after)
    (hgo : ¬(o.stopOnFirstError = true ∧ before.hasErrors = true)) :
    before.Describes o a.source a.labels (a.entries.take k) ∧
      after.Describes o a.source a.labels (a.entries.take k ++ [e]) ∧
      (a.entries.take k).length = k := by
  obtain ⟨hdescribes, hlength, hplace⟩ := h.imageAfter_place he hbefore hafter hgo
  exact ⟨hdescribes, hdescribes.place hplace, hlength⟩

/-- The word of a line of the listing, if it has one, is added when the line is read. -/
theorem placements_imageAfter (h : a.Describes o lines) (he : a.entries[k]? = some e)
    (hbefore : a.imageAfter o k = some before) (hafter : a.imageAfter o (k + 1) = some after)
    (hgo : ¬(o.stopOnFirstError = true ∧ before.hasErrors = true)) :
    after.placements.toList = before.placements.toList ++
      (Image.placement? o a.labels (e, k)).toList := by
  obtain ⟨hdescribes, hnext, hlength⟩ := h.imageAfter_describes he hbefore hafter hgo
  rw [hnext.placements, hdescribes.placements, List.zipIdx_append, List.filterMap_append, hlength,
    Nat.zero_add]
  rfl

theorem not_stopped_of_size (h : a.Describes o lines) (he : a.entries[k]? = some e)
    (hbefore : a.imageAfter o k = some before) (hafter : a.imageAfter o (k + 1) = some after)
    (hsize : after.placements.size = before.placements.size + 1) :
    ¬(o.stopOnFirstError = true ∧ before.hasErrors = true) := by
  intro hstop
  rw [h.imageAfter_succ he, hbefore, Option.bind_some, Image.readLine_of_stopped hstop] at hafter
  obtain rfl := Option.some.inj hafter
  omega

/-- A pass that has stopped before a line never reads it. -/
theorem not_stopped_of_lt (h : a.Describes o lines) (hm : a.imageAfter o k = some m)
    {css : List (List Char)}
    (hrest : css.foldlM (Image.readLine o a.source a.scan) m = some a.image)
    (hk : k < a.image.read) : ¬(o.stopOnFirstError = true ∧ m.hasErrors = true) := by
  intro hstop
  rw [Image.foldlM_of_stopped hstop] at hrest
  have hle := (h.imageAfter hm).1
  rw [Option.some.inj hrest] at hle
  omega

/-- A word that a line of the listing adds is that of its instruction. -/
theorem exists_placement (h : a.Describes o lines) (he : a.entries[k]? = some e)
    (hbefore : a.imageAfter o k = some before) (hafter : a.imageAfter o (k + 1) = some after)
    (hsize : after.placements.size = before.placements.size + 1) :
    ∃ p, Image.placement? o a.labels (e, k) = some p ∧
      after.placements.toList = before.placements.toList ++ [p] := by
  have hplacements := h.placements_imageAfter he hbefore hafter
    (h.not_stopped_of_size he hbefore hafter hsize)
  cases hp : Image.placement? o a.labels (e, k) with
  | some p => exact ⟨p, rfl, by rw [hplacements, hp, Option.toList_some]⟩
  | none =>
    rw [hp, Option.toList_none, List.append_nil] at hplacements
    rw [← Array.length_toList, hplacements, Array.length_toList] at hsize
    omega

end Describes

/-- The second pass after any number of lines, on the way to its result. -/
theorem exists_imageAfter
    (hrun : Image.ofListing o a.source a.scan (.empty .repeatable) = some a.image) (k : Nat) :
    ∃ m, a.imageAfter o k = some m ∧
      ((Image.listingLines a.listing).drop k).foldlM (Image.readLine o a.source a.scan) m =
        some a.image := by
  rw [Image.ofListing, ← List.take_append_drop k (Image.listingLines a.scan.listing),
    List.foldlM_append] at hrun
  exact Option.bind_eq_some_iff.mp hrun

/-- A word of the second pass after some lines of the listing is among the words of the assembly. -/
theorem words_of_imageAfter {m : Image} {p : Placement} {css : List (List Char)}
    (hrest : css.foldlM (Image.readLine o a.source a.scan) m = some a.image) {n : Nat}
    (hp : m.placements.toList[n]? = some p) : a.words[n]? = some p.word := by
  obtain ⟨-, later, hlater⟩ := Image.foldlM_grows hrest
  obtain ⟨hlt, -⟩ := List.getElem?_eq_some_iff.mp hp
  rw [words, Array.getElem?_map, ← Array.getElem?_toList, ← hlater, List.getElem?_append_left hlt,
    hp, Option.map_some]

/-- **What the second pass adds.**  It adds a word at a line of the listing if it has read the line
and the line has the word. -/
theorem encodes_iff {source : String} (h : assemble o source = some a) {k : Nat} {w : UInt32} :
    a.Encodes o k w ↔ k < a.image.read ∧ a.wordAt? o k = some w := by
  have hdescribes := assemble_describes h
  obtain ⟨labels, relocations, -, hnew, -, -, ⟨-, hstart⟩ | ⟨-, hrun⟩⟩ := assemble_cases h
  · -- the second pass has not begun, and there are no words at all
    constructor
    · rintro ⟨before, after, -, -, -, hw⟩
      simp [words, hstart, Image.start] at hw
    · rintro ⟨hread, -⟩
      rw [hstart] at hread
      exact absurd hread (Nat.not_lt_zero k)
  obtain rfl := SymbolTable.new_eq_ok hnew
  obtain ⟨before, hbefore, hrest⟩ := exists_imageAfter hrun k
  obtain ⟨after, hafter, hrest'⟩ := exists_imageAfter hrun (k + 1)
  constructor
  · rintro ⟨before', after', hbefore', hafter', hsize, hw⟩
    obtain rfl := Option.some.inj (hbefore.symm.trans hbefore')
    obtain rfl := Option.some.inj (hafter.symm.trans hafter')
    cases he : a.entries[k]? with
    | none =>
      -- there is no such line, so that nothing happens at it
      rw [hdescribes.imageAfter_succ_of_none he, hbefore] at hafter
      obtain rfl := Option.some.inj hafter
      omega
    | some e =>
      obtain ⟨-, hnext, hlength⟩ := hdescribes.imageAfter_describes he hbefore hafter
        (hdescribes.not_stopped_of_size he hbefore hafter hsize)
      obtain ⟨p, hp, hplacements⟩ := hdescribes.exists_placement he hbefore hafter hsize
      have hword : a.words[before.placements.size]? = some p.word :=
        words_of_imageAfter hrest' (by simp [hplacements])
      refine ⟨?_, ?_⟩
      · have hread := (Image.foldlM_grows hrest').1
        rw [hnext.read, List.length_append, List.length_singleton, hlength] at hread
        omega
      · rw [hdescribes.wordAt?_eq, he, Option.bind_some, hp, Option.map_some, ← hw, hword]
  · rintro ⟨hread, hw⟩
    have hgo := hdescribes.not_stopped_of_lt hbefore hrest hread
    rw [hdescribes.wordAt?_eq, Option.map_eq_some_iff] at hw
    obtain ⟨p, hp, rfl⟩ := hw
    obtain ⟨e, he, hp⟩ := Option.bind_eq_some_iff.mp hp
    have hplacements := hdescribes.placements_imageAfter he hbefore hafter hgo
    rw [hp, Option.toList_some] at hplacements
    refine ⟨before, after, hbefore, hafter, ?_, words_of_imageAfter hrest' (by simp [hplacements])⟩
    rw [← Array.length_toList, hplacements]
    simp

theorem wordAt?_of_encodes {source : String} (h : assemble o source = some a) {k : Nat} {w : UInt32}
    (hencodes : a.Encodes o k w) : a.wordAt? o k = some w :=
  ((encodes_iff h).mp hencodes).2

/-- The outcome of a line of the listing is that of encoding its instruction with the relocations
that there are when it is read. -/
theorem exists_encode_of_lt {source : String} (h : assemble o source = some a) {k : Nat}
    (hk : k < a.image.read) {entry : Nat × Instruction} (hentry : a.entries[k]? = some entry) :
    ∃ m, a.imageAfter o k = some m ∧
      (entry.2.reread.encode o.tableLimit (Image.addressOf o.base k)
        { symbols := some a.labels, relocations := some m.relocations }).2 =
        Image.outcome o a.labels k entry.2.reread := by
  have hdescribes := assemble_describes h
  obtain ⟨labels, relocations, -, hnew, -, -, ⟨-, hstart⟩ | ⟨-, hrun⟩⟩ := assemble_cases h
  · rw [hstart] at hk
    exact absurd hk (Nat.not_lt_zero k)
  obtain rfl := SymbolTable.new_eq_ok hnew
  obtain ⟨m, hm, hrest⟩ := exists_imageAfter hrun k
  obtain ⟨after, hafter, -⟩ := exists_imageAfter hrun (k + 1)
  obtain ⟨hbefore, hlength, hplace⟩ := hdescribes.imageAfter_place hentry hm hafter
    (hdescribes.not_stopped_of_lt hm hrest hk)
  have hread : m.read = k := hbefore.read.trans hlength
  have hencode := Image.encode_of_place hbefore.repeatable hplace
  rw [hread] at hencode
  exact ⟨m, hm, hencode⟩

end Assembly
end MipsAsm
