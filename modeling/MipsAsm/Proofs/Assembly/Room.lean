import MipsAsm.Proofs.Assembly.Words
import MipsAsm.Proofs.Encoding.Jumps

/-!
# Sources that need no room

There is no assembly if a table runs out of room.  Only labels and jumps are entered into tables, so
that a source without them is assembled whenever the empty tables can be made.  A jump without an
operand is as good as none.

This is about sources for which nothing at all has to be entered.  For sources that do need room,
and how much they need at most, there is `exists_assemble_of_room`, which asks for more room and
less of the source.

* `Scan.exists_ofLines` — the first pass over lines that define no label.
* `Scan.hasErrors_of_readLine` — a label that is no label name is an error.
* `Image.exists_readLine` — a line of the second pass with no jump.
* `exists_assemble_of_unlabelled` — a source of such lines is assembled.
* `Assembly.Describes.hasErrors_eq_false` — it has no errors if the first pass finds none and all
  instructions have words.
-/

set_option autoImplicit false

namespace MipsAsm

/-- A line that defines no label: it has none, or one that is no label name. -/
def Line.DefinesNothing (l : Line) : Prop :=
  ∀ name, l.label? = some name → Label.isValid name.text = false

namespace Scan

variable (o : Options) {cs : List Char}

theorem exists_readLine (s : Scan) (h : (Line.read cs).DefinesNothing) :
    ∃ s', s.readLine o cs = some s' := by
  have hdefine : ∃ t, s.defineLabel o.tableLimit (Line.read cs) = some t := by
    rw [defineLabel]
    split
    · exact ⟨s, rfl⟩
    · rename_i name hname
      rw [h name hname, if_neg Bool.false_ne_true]
      exact ⟨_, rfl⟩
  obtain ⟨t, ht⟩ := hdefine
  rw [readLine]
  split
  · exact ⟨s, rfl⟩
  · simp only [ht, Option.bind_eq_bind, Option.bind_some]
    exact ⟨_, rfl⟩

/-- The first pass over lines that define no label. -/
theorem exists_ofLines {lines : List (List Char)}
    (h : ∀ cs ∈ lines, (Line.read cs).DefinesNothing) (labels : SymbolTable) :
    ∃ s, ofLines o labels lines = some s :=
  exists_foldlM (fun s cs hcs ↦ exists_readLine o s (h cs hcs)) _

/-- After a label that is no label name there is an error, if there was none before. -/
theorem hasErrors_of_readLine {s s' : Scan} {name : Text.Token} (h : s.readLine o cs = some s')
    (hlabel : (Line.read cs).label? = some name) (hname : Label.isValid name.text = false) :
    s'.hasErrors = true := by
  rw [readLine] at h
  split at h
  · rename_i hstop
    obtain rfl := Option.some.inj h
    exact (Bool.and_eq_true _ _ ▸ hstop).2
  · obtain ⟨t, hdefine, hread⟩ := Option.bind_eq_some_iff.mp h
    obtain ⟨hnone, -⟩ | ⟨_, _, hsome, hvalid, -⟩ | ⟨_, d, log, -, herror, -, rfl⟩ :=
      defineLabel_cases hdefine
    · rw [hlabel] at hnone
      cases hnone
    · obtain rfl := Option.some.inj (hlabel.symm.trans hsome)
      rw [hname] at hvalid
      cases hvalid
    · obtain ⟨log', hinstruction⟩ := readInstruction_eq
        { s with diagnostics := s.diagnostics.push d, log } (Line.read cs)
      rw [hinstruction] at hread
      obtain rfl := Option.some.inj hread
      simp [hasErrors, herror]

end Scan

/-- A jump without a label is rejected before there is anything to enter. -/
theorem Instruction.ne_outOfMemory_of_args {limit : Int} {i : Instruction} {address : UInt32}
    {tables : Tables} (h : i.IsJump → i.args = []) :
    (i.encode limit address tables).2 ≠ .error .outOfMemory := by
  intro hmemory
  have hjump := isJump_of_outOfMemory hmemory
  cases hcheck : i.check tables with
  | error e =>
    rw [encode_of_check_error hcheck] at hmemory
    cases hmemory
  | ok m =>
    obtain ⟨hm, -, hlength, -⟩ := check_eq_ok_iff.mp hcheck
    rw [h hjump, (isJump_iff hm).mp hjump] at hlength
    cases hlength

namespace Image

variable (o : Options) (source : Array (List Char)) (scan : Scan)

theorem exists_place (labels : SymbolTable) (number : Nat) (line : Line) (m : Image)
    {i : Instruction} (hi : i.IsJump → i.args = []) :
    ∃ m', m.place o labels number line i = some m' := by
  obtain ⟨r, -, htables⟩ : ∃ r : SymbolTable, r.mode = m.relocations.mode ∧
      (i.encode o.tableLimit (addressOf o.base m.read)
        { symbols := some labels, relocations := some m.relocations }).1 =
          { symbols := some labels, relocations := some r } :=
    Instruction.encode_fst m.relocations
  have hroom : (i.encode o.tableLimit (addressOf o.base m.read)
      { symbols := some labels, relocations := some m.relocations }).2 ≠ .error .outOfMemory :=
    Instruction.ne_outOfMemory_of_args hi
  cases hencode : i.encode o.tableLimit (addressOf o.base m.read)
      { symbols := some labels, relocations := some m.relocations } with
  | mk tables outcome =>
    rw [hencode] at htables hroom
    obtain rfl : tables = _ := htables
    simp only [place, hencode]
    cases outcome with
    | ok word => exact ⟨_, rfl⟩
    | error fault =>
      cases fault with
      | rejected e => exact ⟨_, rfl⟩
      | outOfMemory => exact absurd rfl hroom

theorem exists_readLine (m : Image) {cs : List Char}
    (h : ∀ i, Instruction.ofTokens? (Text.tokens Line.isSeparator 0 cs) = some i →
      i.IsJump → i.args = []) :
    ∃ m', m.readLine o source scan cs = some m' := by
  rw [readLine]
  split
  · exact ⟨m, rfl⟩
  · split
    · exact ⟨_, rfl⟩
    · rename_i i hi
      exact exists_place o scan.labels _ _ m (h i hi)

end Image

variable {o : Options} {source : String}

/-- **A source without labels and jumps is assembled**, whatever else is wrong with it. -/
theorem exists_assemble_of_unlabelled (hroom : 5 ≤ o.tableLimit)
    (hlabels : ∀ cs ∈ Text.splitLines source.toList, (Line.read cs).DefinesNothing)
    (hjumps : ∀ e ∈ expandLines (Text.splitLines source.toList),
      e.2.reread.IsJump → e.2.reread.args = []) :
    ∃ a, assemble o source = some a := by
  have hnew : ∀ mode, SymbolTable.new o.tableLimit mode = .ok (.empty mode) := by
    intro mode
    rw [SymbolTable.new, if_neg]
    · rfl
    · exact Int.not_lt.mpr hroom
  obtain ⟨s, hs⟩ := Scan.exists_ofLines o hlabels (.empty .unique)
  obtain ⟨-, hscan, -⟩ := Scan.ofLines_describes (hnew .unique) hs
  have himage : ∃ m, Image.ofListing o (Text.splitLines source.toList).toArray s
      (.empty .repeatable) = some m := by
    refine exists_foldlM (fun m cs hcs ↦ Image.exists_readLine o _ s m ?_) _
    intro i hi
    rw [hscan.listingLines fun l hl ↦ lineFeed_not_mem_of_take hl] at hcs
    obtain ⟨e, he, rfl⟩ := List.mem_map.mp hcs
    have hspelled := wellSpelled_of_mem_expandLines (fun l hl ↦ lineFeed_not_mem_of_take hl) he
    rw [Instruction.ofTokens?_text hspelled] at hi
    obtain rfl := Option.some.inj hi
    obtain ⟨rest, hsplit, -⟩ := expandLines_split (Text.splitLines source.toList) s.lines
    exact hjumps e (hsplit ▸ List.mem_append_left rest he)
  obtain ⟨m, hm⟩ := himage
  by_cases hstop : o.stopOnFirstError = true ∧ s.hasErrors = true
  · obtain ⟨a, ha, -⟩ := exists_assemble (hnew .unique) (hnew .repeatable) hs (.inl ⟨hstop, rfl⟩)
    exact ⟨a, ha⟩
  · obtain ⟨a, ha, -⟩ := exists_assemble (hnew .unique) (hnew .repeatable) hs (.inr ⟨hstop, hm⟩)
    exact ⟨a, ha⟩

/-- Without errors in the first pass, there are none if all instructions have words. -/
theorem Assembly.Describes.hasErrors_eq_false {a : Assembly} {lines : List (List Char)}
    (h : a.Describes o lines) (hscan : a.scan.hasErrors = false)
    (hwords : ∀ e ∈ a.entries, ∀ position, ∃ p,
      Image.placement? o a.labels (e, position) = some p) : a.hasErrors = false := by
  have hnothing : a.image.diagnostics.toList = [] := by
    rw [h.image.diagnostics, List.filterMap_eq_nil_iff]
    rintro ⟨e, position⟩ he
    have hmem := List.mem_of_mem_take (List.fst_mem_of_mem_zipIdx he)
    obtain ⟨p, hp⟩ := hwords e hmem position
    obtain ⟨-, -, hnone⟩ | ⟨d, hno, -⟩ :=
      Image.placement?_or_diagnostic? o a.source a.labels (e, position)
    · exact hnone
    · rw [hp] at hno
      cases hno
  rw [a.hasErrors_eq, hscan, Image.hasErrors, ← Array.any_toList, hnothing]
  rfl

end MipsAsm
