import MipsAsm.Proofs.Assembly.Basic

/-!
# Moving a program

The base address of a program shows in the addresses of its labels, of its jumps and of its words,
and nowhere else.  To say so, every state of the assembler can be moved: its addresses are raised by
the same amount, and all else stays.  Each function of the assembler gives the moved result on the
moved state, from the insertion into a table up to both passes.

This needs addresses that are multiples of four.  Any other address is rejected by the tables, with
a message that spells it out.

The proof is a commutation: moving a state and then taking a step is taking the step and then
moving.  It goes through every function that an address passes on its way, from the outermost to the
insertion into a table, and each of these lemmas is an equation between results, errors and messages
included.

Two places make it more than bookkeeping.  Addresses wrap around, so the distance of a branch is
taken of two addresses that were raised by the same, and has to be equal as a word and not only as a
number.  And a message must not name an address.  The message about an address that is no multiple
of four does, which is the reason for the condition.

* `SymbolTable.insert_shift`, `SymbolTable.find?_shift` — moved tables.
* `Instruction.encode_shift` — an instruction keeps its word when it is moved along with the tables.
* `Scan.ofLines_shift`, `Image.ofListing_shift` — the two passes.
* `assemble_shift` — the assembly at another base address is the moved assembly.
* `assembly_is_position_independent` — what that says of each part of an assembly.
-/

set_option autoImplicit false

namespace MipsAsm

variable {δ : UInt32}

/-! ## Tables

A table looks at an address in one way only: it refuses those that are no multiples of four.  Raised
by a multiple of four, an address is refused just when it was before. -/

/-- The symbol at a raised address. -/
def Symbol.shift (δ : UInt32) (s : Symbol) : Symbol := { s with address := s.address + δ }

namespace SymbolTable

/-- The table with all addresses raised. -/
def shift (δ : UInt32) (t : SymbolTable) : SymbolTable :=
  { t with entries := t.entries.map (Symbol.shift δ) }

variable {limit : Int} {t : SymbolTable} {name : String} {address : UInt32}

@[simp]
theorem size_shift : (t.shift δ).size = t.size := Array.size_map

@[simp]
theorem empty_shift (mode : Mode) : (empty mode).shift δ = empty mode := by
  simp [shift, empty]

theorem makeRoom_shift : (t.shift δ).makeRoom = t.makeRoom.shift δ := by
  rw [makeRoom, makeRoom, size_shift]
  show (if t.size = t.capacity then _ else _) = _
  split <;> rfl

/-- A lookup in a moved table finds the moved address. -/
theorem find?_shift (name : String) : (t.shift δ).find? name = (t.find? name).map (· + δ) := by
  rw [find?, find?]
  show (t.firstIndex[name]?.bind fun i ↦ (t.entries.map (Symbol.shift δ))[i]?.bind _) = _
  cases t.firstIndex[name]? with
  | none => rfl
  | some i =>
    simp only [Option.bind_some, Option.bind_eq_bind, Array.getElem?_map]
    cases t.entries[i]? <;> rfl

theorem insertFault?_shift (hδ : δ % 4 = 0) (haddress : address % 4 = 0) :
    (t.shift δ).insertFault? limit name (address + δ) = t.insertFault? limit name address := by
  have haligned : ¬address % 4 ≠ 0 := fun h ↦ h haddress
  have hmoved : ¬(address + δ) % 4 ≠ 0 := fun h ↦ h ((add_mod_four hδ address).trans haddress)
  rw [insertFault?, insertFault?, if_neg hmoved, if_neg haligned, size_shift]
  rfl

/-- **An insertion at the moved address** into the moved table gives the moved table. -/
theorem insert_shift (hδ : δ % 4 = 0) (haddress : address % 4 = 0) :
    (t.shift δ).insert limit name (address + δ) =
      ((t.insert limit name address).1.shift δ, (t.insert limit name address).2) := by
  rw [insert, insert, insertFault?_shift hδ haddress, makeRoom_shift]
  cases t.insertFault? limit name address with
  | some fault => rfl
  | none => simp [shift, Symbol.shift, size]

end SymbolTable

/-! ## Instructions

Three things are done with the address of an instruction: a branch takes the difference to that of
its label, a jump enters it into the relocations, and the word is placed at it.  A difference stays
the same if both addresses are raised, also where the subtraction wraps around. -/

theorem add_sub_add (src dest : UInt32) : dest + δ - (src + δ) = dest - src := by grind

/-- Only the distance counts for a branch. -/
theorem canBranch_shift (src dest : UInt32) :
    canBranch (src + δ) (dest + δ) = canBranch src dest := by
  rw [canBranch, canBranch, add_sub_add]

theorem branchOffset_shift (src dest : UInt32) :
    branchOffset (src + δ) (dest + δ) = branchOffset src dest := by
  rw [branchOffset, branchOffset, add_sub_add]

/-- An operand keeps its value. -/
theorem Operand.value_shift (o : Operand) (mnemonic : String) (symbols : Option SymbolTable)
    (address : UInt32) (arg : String) :
    o.value mnemonic (symbols.map (SymbolTable.shift δ)) (address + δ) arg =
      o.value mnemonic symbols address arg := by
  cases o with
  | register field => rfl
  | number field lower upper => rfl
  | jumpTarget => rfl
  | branchTarget =>
    have hfind : (symbols.map (SymbolTable.shift δ)).bind (·.find? arg) =
        (symbols.bind (·.find? arg)).map (· + δ) := by
      cases symbols with
      | none => rfl
      | some t => exact SymbolTable.find?_shift arg
    rw [value, value, hfind]
    cases symbols.bind (·.find? arg) with
    | none => rfl
    | some dest => simp only [Option.map_some, canBranch_shift, branchOffset_shift]

/-- The tables with all addresses raised. -/
def Tables.shift (δ : UInt32) (t : Tables) : Tables :=
  { symbols := t.symbols.map (SymbolTable.shift δ)
    relocations := t.relocations.map (SymbolTable.shift δ) }

theorem Tables.missing?_shift (t : Tables) (f : Family) :
    (t.shift δ).missing? f = t.missing? f := by
  obtain ⟨symbols, relocations⟩ := t
  cases f <;> cases symbols <;> cases relocations <;> rfl

variable {i : Instruction} {address : UInt32}

theorem Tables.record_shift (hδ : δ % 4 = 0) (haddress : address % 4 = 0) (limit : Int)
    (t : Tables) (f : Family) :
    (t.shift δ).record limit f i (address + δ) =
      ((t.record limit f i address).1.shift δ, (t.record limit f i address).2) := by
  by_cases hjump : ∃ label rest, f = .jump ∧ i.args = label :: rest
  · obtain ⟨label, rest, rfl, hargs⟩ := hjump
    obtain ⟨symbols, _ | relocations⟩ := t
    · simp [Tables.record, Tables.shift]
    · simp only [Tables.shift, Option.map_some, Instruction.record_jump hargs,
        SymbolTable.insert_shift hδ haddress]
  · rw [(Instruction.record_cases limit i _ f).resolve_left hjump,
      (Instruction.record_cases limit i _ f).resolve_left hjump]

namespace Instruction

theorem check_shift (tables : Tables) : i.check (tables.shift δ) = i.check tables := by
  simp only [check, Tables.missing?_shift]

theorem fieldValues_shift (m : Mnemonic) (symbols : Option SymbolTable) :
    i.fieldValues m (symbols.map (SymbolTable.shift δ)) (address + δ) =
      i.fieldValues m symbols address := by
  simp only [fieldValues, Operand.value_shift]

/-- **An instruction keeps its word** when it is moved along with the tables. -/
theorem encode_shift (hδ : δ % 4 = 0) (haddress : address % 4 = 0) (limit : Int)
    (tables : Tables) :
    i.encode limit (address + δ) (tables.shift δ) =
      ((i.encode limit address tables).1.shift δ, (i.encode limit address tables).2) := by
  rw [encode, encode, check_shift]
  cases i.check tables with
  | error e => rfl
  | ok m =>
    have hsymbols : (tables.shift δ).symbols = tables.symbols.map (SymbolTable.shift δ) := rfl
    rw [hsymbols]
    simp only [fieldValues_shift, Tables.record_shift hδ haddress]
    cases i.fieldValues m tables.symbols address <;> rfl

end Instruction

/-! ## Both passes

The same equation is proved for every function on the way up, `f (x.shift δ) = (f x).shift δ`, so
each is a rewrite in the proof of the next, and the passes are folds over steps that commute with
the shift. -/

/-- The options with the base address raised. -/
def Options.shift (δ : UInt32) (o : Options) : Options := { o with base := o.base + δ }

namespace Scan

/-- The state of the first pass with all addresses raised. -/
def shift (δ : UInt32) (s : Scan) : Scan :=
  { s with address := s.address + δ, labels := s.labels.shift δ }

variable {s s' : Scan}

theorem defineLabel_shift (hδ : δ % 4 = 0) (haddress : s.address % 4 = 0) (limit : Int)
    (line : Line) :
    (s.shift δ).defineLabel limit line = (s.defineLabel limit line).map (shift δ) := by
  rw [defineLabel, defineLabel]
  cases line.label? with
  | none => rfl
  | some name =>
    simp only [shift, SymbolTable.insert_shift hδ haddress]
    split
    · cases s.labels.insert limit name.text s.address with
      | mk labels outcome =>
        cases outcome with
        | ok u => rfl
        | error fault => cases fault <;> rfl
    · rfl

theorem readInstruction_shift (s : Scan) (line : Line) :
    (s.shift δ).readInstruction line = (s.readInstruction line).shift δ := by
  rw [readInstruction, readInstruction]
  cases line.tokens with
  | nil => rfl
  | cons first rest =>
    dsimp only
    split
    · rfl
    · split
      · rfl
      · simp only [shift, mk.injEq, true_and, and_true]
        grind

/-- Reading a line leaves the remainder of the address as it is. -/
theorem readLine_address {o : Options} {cs : List Char} (h : s.readLine o cs = some s') :
    s'.address % 4 = s.address % 4 := by
  rw [readLine] at h
  split at h
  · rw [← Option.some.inj h]
  · obtain ⟨t, hdefine, hread⟩ := Option.bind_eq_some_iff.mp h
    obtain ⟨log, hinstruction⟩ := readInstruction_eq t (Line.read cs)
    have hsame : t.address = s.address := by
      obtain ⟨-, rfl⟩ | ⟨name, labels, -, -, -, rfl⟩ | ⟨name, diagnostic, log, -, -, -, rfl⟩ :=
        defineLabel_cases hdefine <;> rfl
    rw [hinstruction] at hread
    rw [← Option.some.inj hread, ← hsame]
    exact add_mod_four (four_mul_mod_four _) t.address

theorem readLine_shift {o : Options} (hδ : δ % 4 = 0) (haddress : s.address % 4 = 0)
    (cs : List Char) :
    (s.shift δ).readLine (o.shift δ) cs = (s.readLine o cs).map (shift δ) := by
  have herrors : (s.shift δ).hasErrors = s.hasErrors := rfl
  rw [readLine, readLine, herrors]
  show (if o.stopOnFirstError && s.hasErrors then _ else _) = _
  split
  · rfl
  · simp only [Options.shift, defineLabel_shift hδ haddress]
    cases s.defineLabel o.tableLimit (Line.read cs) with
    | none => rfl
    | some t =>
      simp only [Option.map_some, Option.bind_eq_bind, Option.bind_some, readInstruction_shift]
      rfl

/-- **The first pass at another base address** ends in the moved state. -/
theorem ofLines_shift {o : Options} (hδ : δ % 4 = 0) (hbase : o.base % 4 = 0)
    (labels : SymbolTable) (lines : List (List Char)) :
    ofLines (o.shift δ) (labels.shift δ) lines = (ofLines o labels lines).map (shift δ) := by
  have hstart : start (o.base + δ) (labels.shift δ) = (start o.base labels).shift δ := rfl
  rw [ofLines, ofLines, Options.shift, hstart]
  refine foldlM_comm (P := fun s ↦ s.address % 4 = 0) ?_ ?_ lines hbase
  · intro s cs s' hs hread
    exact (readLine_address hread).trans hs
  · intro s cs hs
    exact readLine_shift hδ hs cs

@[simp]
theorem summary_shift (s : Scan) : (s.shift δ).summary = s.summary := by
  simp [summary, shift]

end Scan

/-- The placement at a raised address. -/
def Placement.shift (δ : UInt32) (p : Placement) : Placement := { p with address := p.address + δ }

namespace Image

/-- The state of the second pass with all addresses raised. -/
def shift (δ : UInt32) (m : Image) : Image :=
  { m with
    relocations := m.relocations.shift δ
    placements := m.placements.map (Placement.shift δ) }

variable {o : Options} {m : Image}

theorem start_shift (relocations : SymbolTable) :
    (start relocations).shift δ = start (relocations.shift δ) := by
  simp [start, shift]

theorem addressOf_shift (base : UInt32) (position : Nat) :
    addressOf (base + δ) position = addressOf base position + δ := by
  rw [addressOf, addressOf]
  grind

theorem place_shift (hδ : δ % 4 = 0) (hbase : o.base % 4 = 0) (labels : SymbolTable)
    (number : Nat) (line : Line) (i : Instruction) :
    (m.shift δ).place (o.shift δ) (labels.shift δ) number line i =
      (m.place o labels number line i).map (shift δ) := by
  have haddress := (addressOf_mod_four o.base m.read).trans hbase
  have hencode := i.encode_shift hδ haddress o.tableLimit
    { symbols := some labels, relocations := some m.relocations }
  simp only [Tables.shift, Option.map_some] at hencode
  simp only [place, shift, Options.shift, addressOf_shift, hencode]
  cases i.encode o.tableLimit (addressOf o.base m.read)
      { symbols := some labels, relocations := some m.relocations } with
  | mk tables outcome =>
    obtain ⟨symbols, _ | relocations⟩ := tables
    · rfl
    · cases outcome with
      | ok word => simp [shift, Placement.shift]
      | error fault => cases fault <;> rfl

theorem readLine_shift (hδ : δ % 4 = 0) (hbase : o.base % 4 = 0) (source : Array (List Char))
    (scan : Scan) (m : Image) (cs : List Char) :
    (m.shift δ).readLine (o.shift δ) source (scan.shift δ) cs =
      (m.readLine o source scan cs).map (shift δ) := by
  have herrors : (m.shift δ).hasErrors = m.hasErrors := rfl
  rw [readLine, readLine, herrors]
  show (if o.stopOnFirstError && m.hasErrors then _ else _) = _
  split
  · rfl
  · cases Instruction.ofTokens? (Text.tokens Line.isSeparator 0 cs) with
    | none => rfl
    | some i => exact place_shift hδ hbase scan.labels _ _ i

/-- **The second pass at another base address** ends in the moved state. -/
theorem ofListing_shift (hδ : δ % 4 = 0) (hbase : o.base % 4 = 0) (source : Array (List Char))
    (scan : Scan) (relocations : SymbolTable) :
    ofListing (o.shift δ) source (scan.shift δ) (relocations.shift δ) =
      (ofListing o source scan relocations).map (shift δ) := by
  rw [ofListing, ofListing, ← start_shift]
  refine foldlM_comm (P := fun _ ↦ True) (fun _ _ _ _ _ ↦ trivial) ?_ _ trivial
  intro m cs _
  exact readLine_shift hδ hbase source scan m cs

@[simp]
theorem summary_shift (m : Image) : (m.shift δ).summary = m.summary := by
  simp [summary, shift]

end Image

/-- The assembly with all addresses raised. -/
def Assembly.shift (δ : UInt32) (a : Assembly) : Assembly :=
  { a with scan := a.scan.shift δ, image := a.image.shift δ }

/-- **The assembly at another base address** is the moved assembly. -/
theorem assemble_shift {o : Options} (hδ : δ % 4 = 0) (hbase : o.base % 4 = 0) (source : String) :
    assemble (o.shift δ) source = (assemble o source).map (Assembly.shift δ) := by
  have hlimit : (o.shift δ).tableLimit = o.tableLimit := rfl
  have hstop : (o.shift δ).stopOnFirstError = o.stopOnFirstError := rfl
  rw [assemble, assemble, assembleLines, assembleLines, hlimit, hstop]
  cases hlabels : SymbolTable.new o.tableLimit .unique with
  | error fault => rfl
  | ok labels =>
    cases hrelocations : SymbolTable.new o.tableLimit .repeatable with
    | error fault => rfl
    | ok relocations =>
      obtain rfl := SymbolTable.new_eq_ok hlabels
      obtain rfl := SymbolTable.new_eq_ok hrelocations
      -- each pass is moved as a whole, and what is left is how they are put together
      have hscan := Scan.ofLines_shift hδ hbase (.empty .unique) (Text.splitLines source.toList)
      rw [SymbolTable.empty_shift] at hscan
      simp only [Except.toOption, Option.bind_eq_bind, Option.bind_some, hscan]
      cases Scan.ofLines o (.empty .unique) (Text.splitLines source.toList) with
      | none => rfl
      | some scan =>
        have himage := Image.ofListing_shift hδ hbase (Text.splitLines source.toList).toArray scan
          (.empty .repeatable)
        rw [SymbolTable.empty_shift] at himage
        have hstart := Image.start_shift (δ := δ) (.empty .repeatable)
        rw [SymbolTable.empty_shift] at hstart
        have hlisting : (scan.shift δ).listing = scan.listing := rfl
        have herrors : (scan.shift δ).hasErrors = scan.hasErrors := rfl
        simp only [Option.map_some, Option.bind_some, himage, hlisting, herrors, Scan.summary_shift]
        split
        · simp only [pure, Option.map_some, Assembly.shift, hstart]
          rfl
        · cases Image.ofListing o (Text.splitLines source.toList).toArray scan
            (.empty .repeatable) with
          | none => rfl
          | some image =>
            simp only [pure, Option.map_some, Option.bind_some, Image.summary_shift]
            rfl

/-! ## The parts of an assembly

What the moved assembly has is read off part by part.  Only the map of addresses needs an argument,
since it is searched by address. -/

namespace Assembly

@[simp]
theorem words_shift (a : Assembly) : (a.shift δ).words = a.words := by
  simp [words, shift, Image.shift, Placement.shift, Function.comp_def]

theorem hexText_shift (a : Assembly) : (a.shift δ).hexText = a.hexText := by
  rw [hexText, hexText, words_shift]

/-- What is at a moved address is what was at the address, moved. -/
theorem addressMap_shift (a : Assembly) (x : UInt32) :
    (a.shift δ).addressMap[x + δ]? = a.addressMap[x]?.map (Placement.shift δ) := by
  have hsame : (fun p : Placement ↦ p.address == x + δ) ∘ Placement.shift δ =
      fun p : Placement ↦ p.address == x := by
    funext p
    simp [Placement.shift]
  have hplacements : (a.shift δ).image.placements.toList =
      a.image.placements.toList.map (Placement.shift δ) := Array.toList_map
  rw [getElem?_addressMap, getElem?_addressMap, hplacements, ← List.map_reverse, List.find?_map,
    hsame]

end Assembly

/-- **Assembly is position independent.**  If a source is assembled at a base address that is a
multiple of four, it is at any other one, with the same listing, words, diagnostics and lines of
labels.  The addresses of labels, relocations and words are raised by the difference of the two base
addresses, modulo 2 ^ 32. -/
theorem assembly_is_position_independent (o : Options) (base' : UInt32) (source : String)
    (a : Assembly) (hbase : o.base % 4 = 0) (hbase' : base' % 4 = 0)
    (h : assemble o source = some a) :
    ∃ a', assemble { o with base := base' } source = some a' ∧
      a'.listing = a.listing ∧ a'.words = a.words ∧ a'.hexText = a.hexText ∧
      a'.diagnostics = a.diagnostics ∧ a'.scan.labelLines = a.scan.labelLines ∧
      a'.labels.entries = a.labels.entries.map (Symbol.shift (base' - o.base)) ∧
      a'.relocations.entries = a.relocations.entries.map (Symbol.shift (base' - o.base)) ∧
      ∀ x, a'.addressMap[x + (base' - o.base)]? =
        a.addressMap[x]?.map (Placement.shift (base' - o.base)) := by
  have hraise : o.base + (base' - o.base) = base' := by grind
  have hδ : (base' - o.base) % 4 = 0 := by
    rw [← add_mod_four hbase, UInt32.sub_add_cancel]
    exact hbase'
  have hmoved := assemble_shift hδ hbase source
  rw [Options.shift, hraise, h, Option.map_some] at hmoved
  exact ⟨a.shift (base' - o.base), hmoved, rfl, a.words_shift, a.hexText_shift, rfl, rfl, rfl, rfl,
    a.addressMap_shift⟩

/-- A program with a branch, a jump and a line that has no word, moved from the first address to the
last two words before the end of the address space. -/
theorem assembly_is_position_independent_across_the_end :
    ∃ a a', assemble {} "x: beq $0, $t0, y\njal x\nfoo\ny: jr $ra" = some a ∧
      assemble { base := 0xfffffff8 } "x: beq $0, $t0, y\njal x\nfoo\ny: jr $ra" = some a' ∧
      a.words = #[0x10080002, 0x0c000000, 0x03e00008] ∧ a'.words = a.words ∧
      a'.labels.entries = #[⟨"x", 0xfffffff8⟩, ⟨"y", 4⟩] ∧
      a'.relocations.entries = #[⟨"x", 0xfffffffc⟩] := by
  have hrun : (assemble {} "x: beq $0, $t0, y\njal x\nfoo\ny: jr $ra").map
      (fun a ↦ (a.words, a.labels.entries, a.relocations.entries)) =
      some (#[0x10080002, 0x0c000000, 0x03e00008], #[⟨"x", 0⟩, ⟨"y", 12⟩], #[⟨"x", 4⟩]) := by
    decide +kernel
  obtain ⟨a, ha, hrun⟩ := Option.map_eq_some_iff.mp hrun
  obtain ⟨hwords, hlabels, hrelocations⟩ : a.words = _ ∧ a.labels.entries = _ ∧
    a.relocations.entries = _ := by simpa using hrun
  obtain ⟨a', ha', -, hwords', -, -, -, hlabels', hrelocations', -⟩ :=
    assembly_is_position_independent {} 0xfffffff8 _ a rfl rfl ha
  rw [hlabels] at hlabels'
  rw [hrelocations] at hrelocations'
  exact ⟨a, a', ha, ha', hwords, hwords', hlabels'.trans (by decide +kernel),
    hrelocations'.trans (by decide +kernel)⟩

end MipsAsm
