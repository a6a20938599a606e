import MipsAsm.Assembly.Basic
import MipsAsm.Proofs.Assembly.Listing
import MipsAsm.Proofs.Encoding.Basic

/-!
# What the second pass knows

The second pass goes through the listing and carries the words, the diagnostics and the relocations
along.  Words and diagnostics follow from the instructions of the listing, one by one: each gives
exactly one word or one diagnostic, and what it gives depends on its position and on the labels
alone.  `Image.outcome` says which, and `Image.Describes` that this is what the pass has found.

The relocations are the one part of the state that later instructions could depend on, since they
are handed through the encoder.  They have no influence on a word.  The outcome of an instruction is
therefore defined with an empty table, where there is always room, and the pass is shown to have
found these outcomes as long as it has not run out of room.

The listing is text, and what the second pass reads from its lines are instructions again.  Whether
they are the ones that were written is a question of how tokens are divided, and one operand is in
fact read differently: the top of the stack, in parentheses, which is read as two.
`Instruction.reread` is that reading, and it is the only difference between the instructions of the
two passes.

* `Image.Describes.readLine` — reading one more line keeps the description.
* `Image.foldlM_describes_and` — reading any number of lines does, and keeps what else encoding an
  instruction keeps.
* `listing_keeps_passes_in_step` — the second pass sees the instructions that the first has found,
  in order, each with the source line it comes from.
-/

set_option autoImplicit false

namespace MipsAsm
namespace Image

/-! ## What an instruction of the listing gives

The encoder is given the relocations that were made so far, and returns them with one more.  Its
outcome does not depend on them, so `Image.outcome` is stated with an empty table, and what the pass
finds is a function of the position, the instruction and the labels. -/

/-- What becomes of an instruction at a position of the listing. -/
def outcome (o : Options) (labels : SymbolTable) (position : Nat) (i : Instruction) :
    Except Fault UInt32 :=
  (i.encode o.tableLimit (addressOf o.base position)
    { symbols := some labels, relocations := some (.empty .repeatable) }).2

/-- The word of an instruction that came from a source line, if it has one. -/
def placement? (o : Options) (labels : SymbolTable) (entry : (Nat × Instruction) × Nat) :
    Option Placement :=
  match outcome o labels entry.2 entry.1.2.reread with
  | .ok word => some { address := addressOf o.base entry.2, line := entry.1.1, word }
  | .error _ => none

/-- The diagnostic of an instruction that came from a source line, if it has no word. -/
def diagnostic? (o : Options) (source : Array (List Char)) (labels : SymbolTable)
    (entry : (Nat × Instruction) × Nat) : Option Diagnostic :=
  match outcome o labels entry.2 entry.1.2.reread with
  | .error (.rejected e) =>
    some (.ofError e ((Line.read (source[entry.1.1]?.getD [])).errorRange entry.1.1 e))
  | _ => none

theorem outcome_ne_outOfMemory (o : Options) (labels : SymbolTable) (position : Nat)
    (i : Instruction) : outcome o labels position i ≠ .error .outOfMemory :=
  Instruction.encode_empty_ne_outOfMemory

/-- Every instruction gives a word or a diagnostic, and not both. -/
theorem placement?_or_diagnostic? (o : Options) (source : Array (List Char)) (labels : SymbolTable)
    (entry : (Nat × Instruction) × Nat) :
    (∃ p, placement? o labels entry = some p ∧ diagnostic? o source labels entry = none) ∨
      ∃ d, placement? o labels entry = none ∧ diagnostic? o source labels entry = some d := by
  rw [placement?, diagnostic?]
  cases houtcome : outcome o labels entry.2 entry.1.2.reread with
  | ok word => exact .inl ⟨_, rfl, rfl⟩
  | error fault =>
    cases fault with
    | rejected e => exact .inr ⟨_, rfl, rfl⟩
    | outOfMemory => exact absurd houtcome (outcome_ne_outOfMemory o labels _ _)

/-- The diagnostics of the second pass are errors on the source lines of their instructions. -/
theorem error_of_diagnostic? {o : Options} {source : Array (List Char)} {labels : SymbolTable}
    {entry : (Nat × Instruction) × Nat} {d : Diagnostic}
    (h : diagnostic? o source labels entry = some d) :
    d.isError = true ∧ d.range.start.line = entry.1.1 := by
  rw [diagnostic?] at h
  split at h
  · obtain rfl := Option.some.inj h
    exact ⟨rfl, Line.start_line_errorRange _ _ _⟩
  · cases h

theorem length_eq_add (o : Options) (source : Array (List Char)) (labels : SymbolTable)
    (entries : List ((Nat × Instruction) × Nat)) :
    entries.length = (entries.filterMap (placement? o labels)).length +
      (entries.filterMap (diagnostic? o source labels)).length := by
  induction entries with
  | nil => rfl
  | cons entry entries ih =>
    rw [List.filterMap_cons, List.filterMap_cons, List.length_cons, ih]
    obtain ⟨p, hp, hd⟩ | ⟨d, hp, hd⟩ := placement?_or_diagnostic? o source labels entry
    · simp only [hp, hd, List.length_cons]
      omega
    · simp only [hp, hd, List.length_cons]
      omega

/-! ## The invariant of the second pass

`Image.Describes` lists what is known after some instructions.  It is kept by encoding one more,
which is where all the work is, and from that by reading a line of the listing, by any number of
lines, and by a pass that stops.  `Image.foldlM_describes_and` takes any other fact along that
encoding an instruction keeps, and later modules use it in place of an induction of their own. -/

/-- The state follows from the instructions that were read, each with its source line. -/
structure Describes (o : Options) (source : Array (List Char)) (labels : SymbolTable)
    (entries : List (Nat × Instruction)) (m : Image) : Prop where
  /-- Lines of the listing are counted. -/
  read : m.read = entries.length
  /-- A label may be jumped to more than once. -/
  repeatable : m.relocations.mode = .repeatable
  /-- The words are those of the instructions that have one. -/
  placements : m.placements.toList = entries.zipIdx.filterMap (placement? o labels)
  /-- The diagnostics are those of the others. -/
  diagnostics : m.diagnostics.toList = entries.zipIdx.filterMap (diagnostic? o source labels)

variable {o : Options} {source : Array (List Char)} {scan : Scan} {m m' : Image}
  {entries : List (Nat × Instruction)}

theorem describes_start (o : Options) (source : Array (List Char)) (labels : SymbolTable)
    {relocations : SymbolTable} (hmode : relocations.mode = .repeatable) :
    Describes o source labels [] (start relocations) :=
  ⟨rfl, hmode, rfl, rfl⟩

/-- The outcome of encoding the next instruction does not depend on the relocations there are, as
long as there is room. -/
theorem encode_of_place {labels : SymbolTable} {number : Nat} {line : Line} {i : Instruction}
    (hmode : m.relocations.mode = .repeatable) (h : m.place o labels number line i = some m') :
    (i.encode o.tableLimit (addressOf o.base m.read)
      { symbols := some labels, relocations := some m.relocations }).2 =
      outcome o labels m.read i := by
  refine (Instruction.encode_empty hmode fun hroom ↦ ?_).symm
  rw [place] at h
  cases hencode : i.encode o.tableLimit (addressOf o.base m.read)
      { symbols := some labels, relocations := some m.relocations } with
  | mk tables result =>
    rw [hencode] at hroom
    obtain rfl : result = .error .outOfMemory := hroom
    simp [hencode] at h

/-- What encoding the next instruction of the listing can do: add a word, or a diagnostic. -/
theorem place_cases {labels : SymbolTable} {number : Nat} {line : Line} {i : Instruction}
    (hmode : m.relocations.mode = .repeatable)
    (h : m.place o labels number line i = some m') :
    ∃ relocations log, relocations.mode = .repeatable ∧
      ((∃ word, outcome o labels m.read i = .ok word ∧
        m' = { m with
          read := m.read + 1, relocations, log
          placements :=
            m.placements.push { address := addressOf o.base m.read, line := number, word } }) ∨
      ∃ e, outcome o labels m.read i = .error (.rejected e) ∧
        m' = { m with
          read := m.read + 1, relocations, log
          diagnostics := m.diagnostics.push (.ofError e (line.errorRange number e)) }) := by
  obtain ⟨r, hr, hfst⟩ := @Instruction.encode_fst o.tableLimit i (addressOf o.base m.read)
    (some labels) m.relocations
  -- the relocations so far have no influence on the outcome
  rw [← encode_of_place hmode h]
  rw [place] at h
  cases hencode : i.encode o.tableLimit (addressOf o.base m.read)
      { symbols := some labels, relocations := some m.relocations } with
  | mk tables result =>
    rw [hencode] at hfst
    obtain rfl := hfst
    simp only [hencode] at h
    cases result with
    | ok word =>
      obtain rfl := Option.some.inj h
      exact ⟨r, m.log, hr.trans hmode, .inl ⟨word, rfl, rfl⟩⟩
    | error fault =>
      cases fault with
      | rejected e =>
        obtain rfl := Option.some.inj h
        exact ⟨r, _, hr.trans hmode, .inr ⟨e, rfl, rfl⟩⟩
      | outOfMemory => cases h

/-- Encoding the next instruction keeps the description. -/
theorem Describes.place {labels : SymbolTable} (h : Describes o source labels entries m)
    {number : Nat} {i : Instruction}
    (hplace : m.place o labels number (Line.read (source[number]?.getD [])) i.reread = some m') :
    Describes o source labels (entries ++ [(number, i)]) m' := by
  have hread := h.read
  have hentry : (entries ++ [(number, i)]).zipIdx =
      entries.zipIdx ++ [((number, i), entries.length)] := by
    rw [List.zipIdx_append, Nat.zero_add]
    rfl
  obtain ⟨relocations, log, hmode, ⟨word, houtcome, rfl⟩ | ⟨e, houtcome, rfl⟩⟩ :=
    place_cases h.repeatable hplace
  · rw [hread] at houtcome
    refine ⟨?_, hmode, ?_, ?_⟩
    · rw [hread, List.length_append, List.length_singleton]
    · rw [Array.toList_push, h.placements, hentry, List.filterMap_append]
      simp [placement?, houtcome, hread]
    · rw [h.diagnostics, hentry, List.filterMap_append]
      simp [diagnostic?, houtcome]
  · rw [hread] at houtcome
    refine ⟨?_, hmode, ?_, ?_⟩
    · rw [hread, List.length_append, List.length_singleton]
    · rw [h.placements, hentry, List.filterMap_append]
      simp [placement?, houtcome]
    · rw [Array.toList_push, h.diagnostics, hentry, List.filterMap_append]
      simp [diagnostic?, houtcome]

/-- The pass reads the line of an instruction back and encodes it, unless it has stopped. -/
theorem readLine_text (h : Describes o source scan.labels entries m)
    (hgo : ¬(o.stopOnFirstError = true ∧ m.hasErrors = true)) {number : Nat} {i : Instruction}
    (hi : i.WellSpelled) (horigin : scan.origins[entries.length]? = some number) :
    m.readLine o source scan i.text.toList =
      m.place o scan.labels number (Line.read (source[number]?.getD [])) i.reread := by
  rw [← Bool.and_eq_true] at hgo
  rw [Image.readLine, if_neg hgo, Instruction.ofTokens?_text hi, h.read, horigin]
  rfl

/-- **Reading a line of the listing keeps the description.** -/
theorem Describes.readLine (h : Describes o source scan.labels entries m)
    (hgo : ¬(o.stopOnFirstError = true ∧ m.hasErrors = true)) {number : Nat} {i : Instruction}
    (hi : i.WellSpelled) (horigin : scan.origins[entries.length]? = some number)
    (hstep : m.readLine o source scan i.text.toList = some m') :
    Describes o source scan.labels (entries ++ [(number, i)]) m' := by
  rw [readLine_text h hgo hi horigin] at hstep
  exact h.place hstep

/-- Reading a line leaves the words there are in place, and no line is read twice. -/
theorem readLine_grows {cs : List Char} (h : m.readLine o source scan cs = some m') :
    m.read ≤ m'.read ∧ m.placements.toList <+: m'.placements.toList := by
  rw [Image.readLine] at h
  split at h
  · obtain rfl := Option.some.inj h
    exact ⟨Nat.le_refl _, List.prefix_rfl⟩
  · split at h
    · obtain rfl := Option.some.inj h
      exact ⟨Nat.le_succ _, List.prefix_rfl⟩
    · rw [Image.place] at h
      simp only at h
      split at h
      · obtain rfl := Option.some.inj h
        rw [Array.toList_push]
        exact ⟨Nat.le_succ _, List.prefix_append _ _⟩
      · obtain rfl := Option.some.inj h
        exact ⟨Nat.le_succ _, List.prefix_rfl⟩
      · cases h

theorem foldlM_grows {css : List (List Char)}
    (h : css.foldlM (readLine o source scan) m = some m') :
    m.read ≤ m'.read ∧ m.placements.toList <+: m'.placements.toList := by
  refine foldlM_induction
    (P := fun _ c ↦ m.read ≤ c.read ∧ m.placements.toList <+: c.placements.toList)
    ⟨Nat.le_refl _, List.prefix_rfl⟩ h ?_
  intro done cs c c' _ _ hinit hstep
  have hgrows := readLine_grows hstep
  exact ⟨Nat.le_trans hinit.1 hgrows.1, hinit.2.trans hgrows.2⟩

/-- A pass that has stopped reads no further line. -/
theorem readLine_of_stopped (hstop : o.stopOnFirstError = true ∧ m.hasErrors = true)
    (cs : List Char) : m.readLine o source scan cs = some m := by
  rw [← Bool.and_eq_true] at hstop
  rw [Image.readLine, if_pos hstop]

theorem foldlM_of_stopped (hstop : o.stopOnFirstError = true ∧ m.hasErrors = true)
    (css : List (List Char)) : css.foldlM (readLine o source scan) m = some m :=
  foldlM_of_fixed (readLine_of_stopped hstop) css

/-- What holds before the first line of the listing and is kept by encoding an instruction holds of
the lines that the second pass has read, together with the description. -/
theorem foldlM_describes_and {P : List (Nat × Instruction) → Image → Prop}
    {relocations : SymbolTable} (hmode : relocations.mode = .repeatable)
    (hspelled : ∀ e ∈ entries, e.2.WellSpelled)
    (horigins : entries.map Prod.fst <+: scan.origins.toList) (hstart : P [] (start relocations))
    (hplace : ∀ done number i m m', Describes o source scan.labels done m → P done m →
      m.place o scan.labels number (Line.read (source[number]?.getD [])) i.reread = some m' →
      P (done ++ [(number, i)]) m')
    (h : (entries.map fun e ↦ e.2.text.toList).foldlM (readLine o source scan)
      (start relocations) = some m) :
    m.read ≤ entries.length ∧ Describes o source scan.labels (entries.take m.read) m ∧
      P (entries.take m.read) m ∧
      (m.read = entries.length ∨ o.stopOnFirstError = true ∧ m.hasErrors = true) := by
  rw [List.foldlM_map] at h
  refine foldlM_induction (P := fun done m ↦ m.read ≤ done.length ∧
    Describes o source scan.labels (done.take m.read) m ∧ P (done.take m.read) m ∧
    (m.read = done.length ∨ o.stopOnFirstError = true ∧ m.hasErrors = true)) ?_ h ?_
  · exact ⟨Nat.le_refl _, describes_start o source scan.labels hmode, hstart, .inl rfl⟩
  · rintro done ⟨number, i⟩ m m' hinit - ⟨hle, hdescribes, hP, hend⟩ hstep
    -- a pass that has stopped stays where it is, and the lines it has read do too
    by_cases hstop : o.stopOnFirstError = true ∧ m.hasErrors = true
    · rw [readLine_of_stopped hstop] at hstep
      obtain rfl := Option.some.inj hstep
      rw [List.take_append_of_le_length hle]
      refine ⟨?_, hdescribes, hP, .inr hstop⟩
      rw [List.length_append]
      omega
    · have hall : m.read = done.length := hend.resolve_right hstop
      rw [hall, List.take_length] at hdescribes hP
      have hi : i.WellSpelled :=
        hspelled _ (hinit.subset (List.mem_append_right _ List.mem_cons_self))
      have horigin : scan.origins[done.length]? = some number := by
        obtain ⟨rest, hrest⟩ := (hinit.map Prod.fst).trans horigins
        rw [← Array.getElem?_toList, ← hrest]
        simp
      have hnext := hdescribes.readLine hstop hi horigin hstep
      have hread : m'.read = (done ++ [(number, i)]).length := hnext.read
      rw [readLine_text hdescribes hstop hi horigin] at hstep
      rw [hread, List.take_length]
      exact ⟨Nat.le_refl _, hnext, hplace done number i m m' hdescribes hP hstep, .inl rfl⟩

/-- **What the second pass has found** after some lines of the listing: it has read the first part
of them, all unless it stopped at an error. -/
theorem foldlM_describes {relocations : SymbolTable} (hmode : relocations.mode = .repeatable)
    (hspelled : ∀ e ∈ entries, e.2.WellSpelled)
    (horigins : entries.map Prod.fst <+: scan.origins.toList)
    (h : (entries.map fun e ↦ e.2.text.toList).foldlM (readLine o source scan)
      (start relocations) = some m) :
    m.read ≤ entries.length ∧ Describes o source scan.labels (entries.take m.read) m ∧
      (m.read = entries.length ∨ o.stopOnFirstError = true ∧ m.hasErrors = true) := by
  obtain ⟨hle, hdescribes, -, hend⟩ := foldlM_describes_and (P := fun _ _ ↦ True) hmode hspelled
    horigins trivial (fun _ _ _ _ _ _ _ _ ↦ trivial) h
  exact ⟨hle, hdescribes, hend⟩

end Image

/-! ## Both passes

The listing is a text in between, and the second pass knows of the source only what it reads there
and the numbers of the source lines.  So that the passes stay in step is a matter of writing the
instructions of a line down and reading them back. -/

/-- The listing of a description has the lines of its instructions. -/
theorem Scan.Describes.listingLines {base : UInt32} {read : List (List Char)} {s : Scan}
    (h : s.Describes base read) (hread : ∀ l ∈ read, '\n' ∉ l) :
    Image.listingLines s.listing = (expandLines read).map fun e ↦ e.2.text.toList := by
  have hspelled : ∀ i ∈ (expandLines read).map Prod.snd, i.WellSpelled := by
    intro i hi
    obtain ⟨e, he, rfl⟩ := List.mem_map.mp hi
    exact wellSpelled_of_mem_expandLines hread he
  rw [h.listing, Image.listingLines_listing hspelled, List.map_map]
  rfl

/-- A listing is empty, or the lines of the text before its last line feed are its lines. -/
theorem Scan.Describes.listing_cases {base : UInt32} {read : List (List Char)} {s : Scan}
    (h : s.Describes base read) :
    s.listing = "" ∧ Image.listingLines s.listing = [] ∨
      ∃ text, s.listing.toList = text ++ ['\n'] ∧
        Image.listingLines s.listing = Text.splitLines text := by
  by_cases hnil : expandLines read = []
  · left
    have hempty : s.listing = "" := by
      rw [h.listing, hnil]
      rfl
    exact ⟨hempty, by rw [Image.listingLines, if_pos hempty]⟩
  · right
    obtain ⟨text, htext⟩ :=
      Instruction.exists_listing_eq_append_lineFeed (mt List.map_eq_nil_iff.mp hnil)
    rw [← h.listing] at htext
    exact ⟨text, htext, Image.listingLines_of_toList htext⟩

/-- Each line of the listing has its source line. -/
theorem Scan.Describes.length_listingLines {base : UInt32} {read : List (List Char)} {s : Scan}
    (h : s.Describes base read) (hread : ∀ l ∈ read, '\n' ∉ l) :
    (Image.listingLines s.listing).length = s.origins.size := by
  rw [h.listingLines hread, List.length_map, ← Array.length_toList, h.origins, List.length_map]

/-- The lines of the listing are read back as the instructions of the source lines. -/
theorem Scan.Describes.reread {base : UInt32} {read : List (List Char)} {s : Scan}
    (h : s.Describes base read) (hread : ∀ l ∈ read, '\n' ∉ l) :
    ((Image.listingLines s.listing).map fun cs ↦
      Instruction.ofTokens? (Text.tokens Line.isSeparator 0 cs)) =
      (expandLines read).map fun e ↦ some e.2.reread := by
  rw [h.listingLines hread, List.map_map]
  refine List.map_congr_left fun e he ↦ ?_
  exact Instruction.ofTokens?_text (wellSpelled_of_mem_expandLines hread he)

/-- The second pass over the first lines of the listing that describes a source. -/
theorem Scan.Describes.image {o : Options} {read : List (List Char)} {s : Scan}
    (h : s.Describes o.base read) (hread : ∀ l ∈ read, '\n' ∉ l) {source : Array (List Char)}
    {relocations : SymbolTable} (hmode : relocations.mode = .repeatable) {k : Nat} {m : Image}
    (hm : ((Image.listingLines s.listing).take k).foldlM (Image.readLine o source s)
      (Image.start relocations) = some m) :
    m.read ≤ k ∧ Image.Describes o source s.labels ((expandLines read).take m.read) m ∧
      (m.read = min k (expandLines read).length ∨
        o.stopOnFirstError = true ∧ m.hasErrors = true) := by
  rw [h.listingLines hread, ← List.map_take] at hm
  obtain ⟨hle, hdescribes, hend⟩ := Image.foldlM_describes hmode
    (fun e he ↦ wellSpelled_of_mem_expandLines hread (List.mem_of_mem_take he))
    (h.origins ▸ (List.take_prefix k _).map Prod.fst) hm
  rw [List.length_take] at hle hend
  have hk : m.read ≤ k := by omega
  rw [List.take_take, Nat.min_eq_left hk] at hdescribes
  exact ⟨hk, hdescribes, hend⟩

theorem lineFeed_not_mem_of_take {text : List Char} {n : Nat} {l : List Char}
    (h : l ∈ (Text.splitLines text).take n) : '\n' ∉ l :=
  Text.not_mem_of_mem_splitLines (List.mem_of_mem_take h)

/-- **The listing keeps the passes in step.**  The first pass reads all lines of the source, or
those up to the first with an error if it is to stop there.  Its listing is empty, or has the lines
of the text before the last line feed.  Line for line it is read back as the instructions that the
source lines stand for, but for the operand that `push` and `pop` make, and the origins are the
numbers of those source lines.  The second pass comes to each line with as many lines read as stand
before it, unless it has stopped, so that there is an origin for it. -/
theorem listing_keeps_passes_in_step (o : Options) (source : String) (labels : SymbolTable)
    (s : Scan) (hnew : SymbolTable.new o.tableLimit .unique = .ok labels)
    (hscan : Scan.ofLines o labels (Text.splitLines source.toList) = some s) :
    let lines := Text.splitLines source.toList
    let entries := expandLines (lines.take s.lines)
    let listed := Image.listingLines s.listing
    (s.lines = lines.length ∨
      s.lines < lines.length ∧ o.stopOnFirstError = true ∧ s.hasErrors = true) ∧
    (∀ n < s.lines, ∀ t, Scan.ofLines o labels (lines.take n) = some t →
      ¬(o.stopOnFirstError = true ∧ t.hasErrors = true)) ∧
    (s.listing = "" ∧ listed = [] ∨
      ∃ text, s.listing.toList = text ++ ['\n'] ∧ listed = Text.splitLines text) ∧
    listed.length = s.origins.size ∧
    (listed.map fun cs ↦ Instruction.ofTokens? (Text.tokens Line.isSeparator 0 cs)) =
      entries.map (fun e ↦ some e.2.reread) ∧
    (∀ number i, (number, i) ∈ entries → Pseudo.stackTop ∈ i.args →
      ∃ cs j, lines[number]? = some cs ∧ (Line.read cs).instruction? = some j ∧
        (j.mnemonic = "push" ∨ j.mnemonic = "pop")) ∧
    s.origins.toList = entries.map Prod.fst ∧
    s.origins.toList.Pairwise (· ≤ ·) ∧
    ∀ relocations k m, SymbolTable.new o.tableLimit .repeatable = .ok relocations →
      k < listed.length →
      (listed.take k).foldlM (Image.readLine o lines.toArray s) (Image.start relocations) =
        some m →
      o.stopOnFirstError = true ∧ m.hasErrors = true ∨ m.read = k ∧ m.read < s.origins.size := by
  intro lines entries listed
  obtain ⟨hle, hdescribes, hend, hbefore⟩ := Scan.ofLines_describes hnew hscan
  have hread : ∀ l ∈ lines.take s.lines, '\n' ∉ l := fun l hl ↦ lineFeed_not_mem_of_take hl
  have horigins : s.origins.toList = entries.map Prod.fst := hdescribes.origins
  have hsize : listed.length = s.origins.size := hdescribes.length_listingLines hread
  refine ⟨?_, hbefore, hdescribes.listing_cases, hsize, hdescribes.reread hread, ?_, horigins, ?_,
    ?_⟩
  · rcases Nat.lt_or_eq_of_le hle with hlt | heq
    · exact .inr ⟨hlt, hend.resolve_left (Nat.ne_of_lt hlt)⟩
    · exact .inl heq
  · intro number i hi htop
    obtain ⟨cs, j, hcs, hj, hpseudo⟩ := push_or_pop_of_stackTop_mem hread hi htop
    refine ⟨cs, j, ?_, hj, hpseudo⟩
    rw [List.getElem?_take] at hcs
    split at hcs
    · exact hcs
    · cases hcs
  · rw [horigins]
    exact expandLines_sorted _
  · intro relocations k m hrelocations hk hm
    have hmode : relocations.mode = .repeatable := by
      rw [SymbolTable.new_eq_ok hrelocations]
      rfl
    have hlength : s.origins.size = entries.length := by
      rw [← Array.length_toList, horigins, List.length_map]
    obtain ⟨-, -, hcount | hstop⟩ := hdescribes.image hread hmode hm
    · have hmin : m.read = min k entries.length := hcount
      exact .inr ⟨by omega, by omega⟩
    · exact .inl hstop

/-- A directive, a label, a comment, a line that cannot be expanded and both pseudo-instructions
that make an operand which is read back as two. -/
theorem listing_keeps_passes_in_step_push :
    ∃ lines s m, lines = Text.splitLines ".text\nx: push $t0 # keep\nli 5\npop $t1,\n".toList ∧
      SymbolTable.new SymbolTable.defaultLimit .unique = .ok (.empty .unique) ∧
      Scan.ofLines {} (.empty .unique) lines = some s ∧
      s.origins.toList = [1, 1, 3, 3] ∧
      ((Image.listingLines s.listing).map fun cs ↦
        Instruction.ofTokens? (Text.tokens Line.isSeparator 0 cs)) =
        [some ⟨"addiu", ["$sp", "$sp", "-4"]⟩, some ⟨"sw", ["$t0", "0", "$sp"]⟩,
          some ⟨"lw", ["$t1", "0", "$sp"]⟩, some ⟨"addiu", ["$sp", "$sp", "4"]⟩] ∧
      ((Image.listingLines s.listing).take 3).foldlM (Image.readLine {} lines.toArray s)
        (Image.start (.empty .repeatable)) = some m ∧
      m.read = 3 := by
  have hrun : ((Scan.ofLines {} (.empty .unique) (Text.splitLines
      ".text\nx: push $t0 # keep\nli 5\npop $t1,\n".toList)).bind fun s ↦
        (((Image.listingLines s.listing).take 3).foldlM
          (Image.readLine {} (Text.splitLines
            ".text\nx: push $t0 # keep\nli 5\npop $t1,\n".toList).toArray s)
          (Image.start (.empty .repeatable))).map fun m ↦ (s.lines, m.read)) = some (5, 3) := by
    decide +kernel
  obtain ⟨s, hs, hm⟩ := Option.bind_eq_some_iff.mp hrun
  obtain ⟨m, hm, hread⟩ := Option.map_eq_some_iff.mp hm
  obtain ⟨hs5, -⟩ := Prod.mk.inj hread
  obtain ⟨-, -, -, hsize, hlisted, -, horigins, -, hstep⟩ :=
    listing_keeps_passes_in_step {} _ (.empty .unique) s rfl hs
  rw [hs5] at hlisted horigins
  have horigins : s.origins.toList = [1, 1, 3, 3] := horigins.trans (by decide +kernel)
  have hsize : (Image.listingLines s.listing).length = 4 := by
    rw [hsize, ← Array.length_toList, horigins]
    rfl
  refine ⟨_, s, m, rfl, rfl, hs, horigins, hlisted.trans (by decide +kernel), hm, ?_⟩
  rcases hstep (.empty .repeatable) 3 m rfl (by omega) hm with ⟨hstop, -⟩ | ⟨hread, -⟩
  · cases hstop
  · exact hread

end MipsAsm
