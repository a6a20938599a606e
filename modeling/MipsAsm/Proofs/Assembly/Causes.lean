import MipsAsm.Command.FileTree
import MipsAsm.Proofs.Assembly.Relocations
import MipsAsm.Proofs.Command.Basic
import MipsAsm.Proofs.Encoding.Operands

/-!
# Causes that never come up

Three causes of a rejection are no fault of a source: an address that is no multiple of four, an
empty operand and a table that is not there.  An assembler with settings that could be loaded never
meets them.  That follows from three things.

* The base address of settings is checked, and all addresses leave the remainder of the base address
  (`Command.aligned_of_loadSettings`, `Image.addressOf_mod_four`).
* Lines are cut into tokens, and no token is empty.
* The second pass hands both tables over with each instruction.

`Assembly.Meets` says which rejections the passes meet: those of the table of labels, of expansions
and of encodings.  `Assembly.tellsOf_of_mem_diagnostics` says that there are no others behind the
diagnostics, and `internal_causes_never_come_up` is the result.
-/

set_option autoImplicit false

namespace MipsAsm

/-- The causes that are no fault of a source. -/
def Error.Kind.internal : List Error.Kind :=
  [.misalignedAddress, .missingArgument, .missingRequiredTable]

/-! ## The base address -/

theorem Settings.aligned_of_parse {text : String} {settings : Settings}
    (h : parse text = .ok settings) : settings.textBaseAddress % 4 = 0 := by
  rw [parse] at h
  split at h
  · cases h
  · rw [ofJson] at h
    split at h
    · cases h
    · split at h
      · rename_i haligned
        obtain rfl := Except.ok.inj h
        exact haligned
      · cases h

/-- **Settings that could be loaded have a base address that is a multiple of four.** -/
theorem Command.aligned_of_loadSettings {σ : Type} {system : System (StateM σ)} {path : String}
    {before after : σ} {settings : Settings}
    (h : (loadSettings system path).run before = (.ok settings, after)) :
    settings.textBaseAddress % 4 = 0 := by
  rw [loadSettings, StateT.run_bind] at h
  cases hread : (system.read path).run before with
  | mk content state =>
    have hpure : (system.read path).run before = pure (content, state) := hread
    rw [hpure, pure_bind] at h
    cases content with
    | ok text =>
      have hparsed : (Settings.parse text).mapError Settings.Problem.message = .ok settings :=
        (Prod.mk.inj h).1
      cases hparse : Settings.parse text with
      | error problem =>
        rw [hparse] at hparsed
        cases hparsed
      | ok parsed =>
        rw [hparse] at hparsed
        obtain rfl := Except.ok.inj hparsed
        exact Settings.aligned_of_parse hparse
    | error problem =>
      cases problem with
      | notFound =>
        obtain rfl := Except.ok.inj (Prod.mk.inj h).1
        rfl
      | _ => cases (Prod.mk.inj h).1

/-! ## Expansions

An expansion is refused for the number of operands or for the literal of `li`.  That an operand is
empty is checked as well, before anything else, but an instruction made of tokens has no such
operand. -/

namespace Pseudo

/-- With a number of operands that it does not take, a pseudo-instruction is rejected for that. -/
theorem expand_of_length_ne {p : Pseudo} {args : List String} (h : args.length ≠ p.arity) :
    p.expand args = .error
      { kind := .invalidArgumentCount, mnemonic := p.name
        construct := Text.decimal p.arity ++ " arguments" } := by
  rw [expand.eq_def]
  split
  case h_6 => rfl
  all_goals exact absurd rfl h

/-- With as many operands as it takes, a pseudo-instruction is rejected for a literal only. -/
theorem expand_error_of_length {p : Pseudo} {args : List String} {e : Error}
    (hlength : args.length = p.arity) (h : p.expand args = .error e) :
    p = .li ∧ (e.kind = .unparseable ∨ e.kind = .numberOutOfRange) := by
  cases p with
  | li =>
    obtain ⟨rd, literal, rfl⟩ := List.length_eq_two.mp hlength
    rw [expand] at h
    split at h
    · rename_i e' hparse
      obtain rfl := Except.error.inj h
      rw [Error.inInstruction_kind]
      exact ⟨rfl, (Literal.parse_error hparse).2⟩
    · cases h
  | push | pop =>
    obtain ⟨r, rfl⟩ := List.length_eq_one_iff.mp hlength
    cases h
  | mod | subu =>
    obtain ⟨rd, rs, rt, rfl⟩ := List.length_eq_three.mp hlength
    cases h

end Pseudo

/-- **Why an instruction made of tokens cannot be expanded:** it is a pseudo-instruction with a
wrong number of operands, or `li` with something else than a literal. -/
theorem Instruction.expand_error {i : Instruction} {e : Error} (hi : i.Tokenized)
    (h : i.expand = .error e) :
    ∃ p, Pseudo.ofName? i.mnemonic = some p ∧
      (i.args.length ≠ p.arity ∧ e.kind = .invalidArgumentCount ∨
        i.args.length = p.arity ∧ p = .li ∧
          (e.kind = .unparseable ∨ e.kind = .numberOutOfRange)) := by
  have hmnemonic : i.mnemonic ≠ "" := (hi _ List.mem_cons_self).1
  rw [expand, if_neg (not_or_intro hmnemonic hi.empty_not_mem)] at h
  split at h
  · cases h
  · rename_i p hp
    refine ⟨p, hp, ?_⟩
    by_cases hlength : i.args.length = p.arity
    · exact .inr ⟨hlength, Pseudo.expand_error_of_length hlength h⟩
    · rw [Pseudo.expand_of_length_ne hlength] at h
      obtain rfl := Except.error.inj h
      exact .inl ⟨hlength, rfl⟩

/-! ## Encodings

What an instruction is checked for is a list of demands, in the order in which they are checked,
each with the cause that is given if it is not met.  The demands whose cause is an internal one are
met by all instructions that the second pass hands over, so a rejection is for another one. -/

/-- What is asked for the sake of an internal cause is met, if the address is a multiple of four,
both tables are there and no operand is empty. -/
theorem Instruction.met_of_internal {i : Instruction} {address : UInt32} {symbols r : SymbolTable}
    (haligned : address % 4 = 0) (hargs : "" ∉ i.args) {d : Demand}
    (hd : d ∈ i.demands address { symbols := some symbols, relocations := some r })
    (hkind : d.kind ∈ Error.Kind.internal) : d.Met := by
  -- only three demands are made for the sake of such a cause, and each of them is a hypothesis
  rcases List.mem_append.mp hd with hd | hd
  · simp only [formDemands, List.mem_cons, List.not_mem_nil, or_false] at hd
    rcases hd with rfl | rfl | rfl | rfl
    · exact absurd hkind (by simp [Error.Kind.internal])
    · exact ⟨fun _ ↦ rfl, fun _ ↦ rfl⟩
    · exact absurd hkind (by simp [Error.Kind.internal])
    · exact hargs
  · obtain ⟨⟨slot, arg⟩, -, hd⟩ := List.mem_flatMap.mp hd
    cases slot with
    | register =>
      obtain rfl := List.mem_singleton.mp hd
      exact absurd hkind (by simp [Error.Kind.internal])
    | number lower upper =>
      rcases List.mem_pair.mp hd with rfl | rfl
      all_goals exact absurd hkind (by simp [Error.Kind.internal])
    | branchLabel =>
      simp only [Slot.demands, List.mem_cons, List.not_mem_nil, or_false] at hd
      rcases hd with rfl | rfl | rfl
      all_goals exact absurd hkind (by simp [Error.Kind.internal])
    | jumpLabel =>
      simp only [Slot.demands, List.mem_cons, List.not_mem_nil, or_false] at hd
      rcases hd with rfl | rfl | rfl
      · exact absurd hkind (by simp [Error.Kind.internal])
      · exact haligned
      · exact absurd hkind (by simp [Error.Kind.internal])

/-- **An instruction of the listing is never rejected for an internal cause.** -/
theorem Image.kind_of_outcome {o : Options} {labels : SymbolTable} {position : Nat}
    {i : Instruction} {e : Error} (haligned : o.base % 4 = 0) (hlabels : labels.WellFormed)
    (hargs : "" ∉ i.args) (h : outcome o labels position i = .error (.rejected e)) :
    e.kind ∉ Error.Kind.internal := by
  have hagrees : Demand.Agrees i.mnemonic _ _ (outcome o labels position i) :=
    i.encode_agrees o.tableLimit (addressOf o.base position)
      (fun t ht ↦ Option.some.inj ht ▸ hlabels)
      (fun t ht ↦ Option.some.inj ht ▸ SymbolTable.wellFormed_empty .repeatable)
  rw [h] at hagrees
  obtain ⟨d, hd, hkind, hunmet⟩ := hagrees.2.exists_mem
  rw [← hkind]
  exact fun hinternal ↦ hunmet <| Instruction.met_of_internal
    ((addressOf_mod_four o.base position).trans haligned) hargs hd hinternal

/-! ## Rejections that the passes meet

Three relations say what is behind the diagnostics.  `Scan.Meets` and `Assembly.Meets` are about the
runs: a rejection is met where the table, an expansion or an encoding returns it.
`Diagnostic.TellsOf` is about a diagnostic, and says from which rejection it was made. -/

/-- The first pass over some lines meets a rejection. -/
inductive Scan.Meets (o : Options) (lines : List (List Char)) : Error → Prop
  /-- The table of labels refuses the label of a line. -/
  | label {n : Nat} {cs : List Char} {s : Scan} {name : Text.Token} {e : Error}
      (line : lines[n]? = some cs) (before : ofLines o (.empty .unique) (lines.take n) = some s)
      (label : (Line.read cs).label? = some name) (valid : Label.isValid name.text = true)
      (rejected : (s.labels.insert o.tableLimit name.text s.address).2 = .error (.rejected e)) :
      Meets o lines e
  /-- The instruction of a line cannot be expanded. -/
  | expansion {n : Nat} {cs : List Char} {i : Instruction} {e : Error}
      (line : lines[n]? = some cs) (instruction : (Line.read cs).instruction? = some i)
      (rejected : i.expand = .error e) : Meets o lines e

/-- One of the passes of an assembly meets a rejection. -/
inductive Assembly.Meets (o : Options) (a : Assembly) : Error → Prop
  /-- The first pass does, over the lines that it has read. -/
  | scan {e : Error} (met : Scan.Meets o (a.source.toList.take a.scan.lines) e) : Meets o a e
  /-- An instruction of the listing that the second pass has read cannot be encoded. -/
  | encoding {k : Nat} {m : Image} {i : Instruction} {e : Error} (read : k < a.image.read)
      (before : a.imageAfter o k = some m) (instruction : a.instructionAt? k = some i)
      (rejected : (i.encode o.tableLimit (Image.addressOf o.base k)
        { symbols := some a.labels, relocations := some m.relocations }).2 =
          .error (.rejected e)) :
      Meets o a e

/-- What a diagnostic tells of: a label that is no label name, a directive, or a rejection that was
met. -/
inductive Diagnostic.TellsOf (Met : Error → Prop) : Diagnostic → Prop
  /-- A label is no label name. -/
  | labelName (name : String) (range : Range) : TellsOf Met (.invalidSymbolName name range)
  /-- A directive has no effect. -/
  | directive (name : String) (range : Range) : TellsOf Met (.ignoredDirective name range)
  /-- A label was refused. -/
  | label {e : Error} (met : Met e) (name : String) (range : Range) :
      TellsOf Met (Scan.labelDiagnostic name e range)
  /-- An instruction was rejected. -/
  | rejection {e : Error} (met : Met e) (range : Range) : TellsOf Met (.ofError e range)

theorem Diagnostic.TellsOf.mono {P R : Error → Prop} (h : ∀ e, P e → R e) {d : Diagnostic}
    (hd : d.TellsOf P) : d.TellsOf R := by
  cases hd with
  | labelName name range => exact .labelName name range
  | directive name range => exact .directive name range
  | label met name range => exact .label (h _ met) name range
  | rejection met range => exact .rejection (h _ met) range

/-! ## What the first pass tells

By induction on the lines that are read, and in a step first for the label of the line and then for
its body.  What was met on the first lines is still met on more of them, so the induction carries
the lines along that were read so far. -/

/-- What is said of the body of a line tells of a directive or of an instruction that cannot be
expanded. -/
theorem Line.tellsOf_of_mem_remarks {l : Line} {number : Nat} {d : Diagnostic}
    (h : d ∈ l.remarks number) :
    d.TellsOf fun e ↦ ∃ i, l.instruction? = some i ∧ i.expand = .error e := by
  rw [remarks] at h
  split at h
  · cases h
  · rename_i first rest hl
    split at h
    · rw [List.mem_singleton.mp h]
      exact .directive _ _
    · rename_i hdirective
      split at h
      · rename_i e hexpand
        rw [List.mem_singleton.mp h]
        refine .rejection ⟨_, ?_, hexpand⟩ _
        simp [instruction?, hl, Instruction.ofTokens?, Option.filter, hdirective]
      · cases h

namespace Scan

variable {o : Options} {lines : List (List Char)} {s s' : Scan} {cs : List Char} {e : Error}

/-- What was met is met if there are more lines. -/
theorem Meets.append (h : Meets o lines e) (rest : List (List Char)) :
    Meets o (lines ++ rest) e := by
  cases h with
  | label line before label valid rejected =>
    obtain ⟨hlt, -⟩ := List.getElem?_eq_some_iff.mp line
    rw [← List.getElem?_append_left hlt] at line
    rw [← List.take_append_of_le_length (Nat.le_of_lt hlt)] at before
    exact .label line before label valid rejected
  | expansion line instruction rejected =>
    obtain ⟨hlt, -⟩ := List.getElem?_eq_some_iff.mp line
    rw [← List.getElem?_append_left hlt] at line
    exact .expansion line instruction rejected

/-- What reading a label adds to the diagnostics tells of it. -/
theorem tellsOf_of_mem_defineLabel {limit : Int} {line : Line} {d : Diagnostic}
    (h : s.defineLabel limit line = some s') (hd : d ∈ s'.diagnostics) :
    d ∈ s.diagnostics ∨ d.TellsOf fun e ↦ ∃ name, line.label? = some name ∧
      Label.isValid name.text = true ∧
      (s.labels.insert limit name.text s.address).2 = .error (.rejected e) := by
  rw [defineLabel] at h
  split at h
  · obtain rfl := Option.some.inj h
    exact .inl hd
  · rename_i name hlabel
    split at h
    · rename_i hvalid
      split at h
      · obtain rfl := Option.some.inj h
        exact .inl hd
      · rename_i labels e hinsert
        obtain rfl := Option.some.inj h
        refine (Array.mem_push.mp hd).imp_right fun heq ↦ ?_
        rw [heq]
        exact .label ⟨name, hlabel, hvalid, by rw [hinsert]⟩ _ _
      · cases h
    · obtain rfl := Option.some.inj h
      refine (Array.mem_push.mp hd).imp_right fun heq ↦ ?_
      rw [heq]
      exact .labelName _ _

/-- **Reading a line** adds diagnostics that tell of what is met on it. -/
theorem tellsOf_of_mem_readLine (hbefore : ofLines o (.empty .unique) lines = some s)
    (h : s.readLine o cs = some s') {d : Diagnostic} (hd : d ∈ s'.diagnostics) :
    d ∈ s.diagnostics ∨ d.TellsOf (Meets o (lines ++ [cs])) := by
  have hline : (lines ++ [cs])[lines.length]? = some cs := List.getElem?_concat_length
  have htake : (lines ++ [cs]).take lines.length = lines := List.take_left
  rw [readLine] at h
  split at h
  · obtain rfl := Option.some.inj h
    exact .inl hd
  · rw [Option.bind_eq_bind, Option.bind_eq_some_iff] at h
    obtain ⟨t, hdefine, hread⟩ := h
    obtain ⟨log, hinstruction⟩ := readInstruction_eq t (Line.read cs)
    rw [hinstruction] at hread
    obtain rfl := Option.some.inj hread
    rcases Array.mem_append.mp hd with hd | hd
    · refine (tellsOf_of_mem_defineLabel hdefine hd).imp_right (.mono ?_)
      rintro e ⟨name, hlabel, hvalid, hrejected⟩
      exact .label hline (htake.symm ▸ hbefore) hlabel hvalid hrejected
    · refine .inr ((Line.tellsOf_of_mem_remarks (List.mem_toArray.mp hd)).mono ?_)
      rintro e ⟨i, hi, hexpand⟩
      exact .expansion hline hi hexpand

/-- **All that the first pass says** tells of what it meets on the lines that it reads. -/
theorem tellsOf_of_mem_ofLines (hnew : SymbolTable.new o.tableLimit .unique = .ok (.empty .unique))
    (h : ofLines o (.empty .unique) lines = some s) :
    ∀ d ∈ s.diagnostics, d.TellsOf (Meets o (lines.take s.lines)) := by
  refine foldlM_induction (P := fun lines s ↦
    ∀ d ∈ s.diagnostics, d.TellsOf (Meets o (lines.take s.lines))) ?_ h ?_
  · exact fun d hd ↦ absurd hd (Array.not_mem_empty d)
  · intro done cs s s' _ hdone hinit hstep d hd
    obtain ⟨hle, hdescribes, hend, -⟩ := ofLines_describes hnew hdone
    obtain ⟨-, rfl⟩ | ⟨hgo, hnext⟩ := hdescribes.readLine hstep
    · rw [List.take_append_of_le_length hle]
      exact hinit d hd
    · -- the pass has not stopped, so that it has read all lines so far and now one more
      have hall : s.lines = done.length := hend.resolve_right hgo
      have hlines : s'.lines = (done ++ [cs]).length := by
        rw [hnext.lines, hall, List.take_length]
      rw [hall, List.take_length] at hinit
      rw [hlines, List.take_length]
      rcases tellsOf_of_mem_readLine hdone hstep hd with hd | hd
      · exact (hinit d hd).mono fun e he ↦ he.append [cs]
      · exact hd

/-- **The first pass never meets an internal cause.** -/
theorem Meets.kind_not_internal (h : Meets o lines e) (haligned : o.base % 4 = 0)
    (hnew : SymbolTable.new o.tableLimit .unique = .ok (.empty .unique))
    (hlines : ∀ l ∈ lines, '\n' ∉ l) : e.kind ∉ Error.Kind.internal := by
  cases h with
  | @label n cs s name e line before label valid rejected =>
    obtain ⟨-, hdescribes, -⟩ := ofLines_describes hnew before
    have haddress : s.address % 4 = 0 := by
      rw [hdescribes.address, Image.addressOf_mod_four, haligned]
    rw [SymbolTable.insert_snd] at rejected
    split at rejected
    · rename_i fault hfault
      obtain rfl := Except.error.inj rejected
      obtain ⟨rfl, -⟩ := SymbolTable.duplicate_of_insertFault? haddress hfault
      simp [Error.Kind.internal]
    · cases rejected
  | expansion line instruction rejected =>
    have htokens := Instruction.tokenized_of_instruction?
      (hlines _ (List.mem_of_getElem? line)) instruction
    obtain ⟨p, -, ⟨-, hkind⟩ | ⟨-, -, hkind | hkind⟩⟩ := Instruction.expand_error htokens rejected
    all_goals simp [hkind, Error.Kind.internal]

end Scan

/-! ## What the second pass tells

The diagnostics of the second pass are known position by position, and each comes from an outcome of
the encoder that is no word. -/

namespace Assembly

variable {o : Options} {source : String} {a : Assembly}

/-- **All diagnostics tell of what the passes meet**, but for labels that are no label names and
directives. -/
theorem tellsOf_of_mem_diagnostics (h : assemble o source = some a) :
    ∀ d ∈ a.diagnostics, d.TellsOf (a.Meets o) := by
  have hdescribes := assemble_describes h
  intro d hd
  rcases Array.mem_append.mp hd with hd | hd
  · obtain ⟨labels, relocations, hnew, -, -, hscan, -⟩ := assemble_cases h
    obtain rfl := SymbolTable.new_eq_ok hnew
    refine (Scan.tellsOf_of_mem_ofLines hnew hscan d hd).mono fun e he ↦ .scan ?_
    rwa [hdescribes.source]
  · obtain ⟨k, hk, entry, hentry, hd⟩ := hdescribes.mem_image_diagnostics.mp hd
    rw [Image.diagnostic?] at hd
    split at hd
    · rename_i e houtcome
      obtain rfl := Option.some.inj hd
      obtain ⟨m, hm, hencode⟩ := exists_encode_of_lt h hk hentry
      have hi : a.instructionAt? k = some entry.2.reread := by
        rw [hdescribes.instructionAt?_eq, hentry, Option.map_some]
      exact .rejection (.encoding hk hm hi (hencode.trans houtcome)) _
    · cases hd

/-- **No pass meets an internal cause**, if the base address is a multiple of four. -/
theorem Meets.kind_not_internal {e : Error} (hmet : a.Meets o e) (h : assemble o source = some a)
    (haligned : o.base % 4 = 0) : e.kind ∉ Error.Kind.internal := by
  have hdescribes := assemble_describes h
  cases hmet with
  | scan met =>
    obtain ⟨labels, -, hnew, -⟩ := assemble_cases h
    obtain rfl := SymbolTable.new_eq_ok hnew
    rw [hdescribes.source] at met
    exact met.kind_not_internal haligned hnew hdescribes.lineFeed
  | encoding read before instruction rejected =>
    rw [hdescribes.instructionAt?_eq, Option.map_eq_some_iff] at instruction
    obtain ⟨entry, hentry, rfl⟩ := instruction
    obtain ⟨m, hm, hencode⟩ := exists_encode_of_lt h read hentry
    obtain rfl := Option.some.inj (before.symm.trans hm)
    have htokens := (hdescribes.wellSpelled (List.mem_of_getElem? hentry)).tokenized_reread
    exact Image.kind_of_outcome haligned hdescribes.scan.wellFormed htokens.empty_not_mem
      (hencode.symm.trans rejected)

end Assembly

/-! ## Messages

A diagnostic is a text to someone who reads it, so the result is stated of the texts as well.  The
wordings of internal causes start with an `a` or an `m`, and those of all other messages do not, so
no message starts with the wording of an internal cause. -/

theorem Error.Kind.head?_text_of_internal :
    ∀ kind ∈ internal, kind.text.toList.head? = some 'a' ∨ kind.text.toList.head? = some 'm' := by
  decide

/-- The explanation of another cause starts differently from the wordings of internal ones. -/
theorem Error.head?_explanation {e : Error} (h : e.kind ∉ Kind.internal) :
    e.explanation.toList.head? ≠ some 'a' ∧ e.explanation.toList.head? ≠ some 'm' := by
  rw [explanation]
  cases hkind : e.kind with
  | misalignedAddress | missingArgument | missingRequiredTable =>
    rw [hkind] at h
    exact absurd h (by decide)
  | duplicateName => simp [text, hkind, Kind.text]
  | _ => simp

/-- A diagnostic that tells of no internal cause starts differently from their wordings. -/
theorem Diagnostic.TellsOf.head?_message {Met : Error → Prop} {d : Diagnostic}
    (h : d.TellsOf Met) (hmet : ∀ e, Met e → e.kind ∉ Error.Kind.internal) :
    d.message.toList.head? ≠ some 'a' ∧ d.message.toList.head? ≠ some 'm' := by
  cases h with
  | labelName | directive => simp [invalidSymbolName, ignoredDirective, failure]
  | @label e met name range =>
    rw [Scan.labelDiagnostic]
    split
    · simp [duplicateLabel, failure]
    · exact Error.head?_explanation (hmet e met)
  | @rejection e met range => exact Error.head?_explanation (hmet e met)

theorem Diagnostic.TellsOf.not_prefix {Met : Error → Prop} {d : Diagnostic} (h : d.TellsOf Met)
    (hmet : ∀ e, Met e → e.kind ∉ Error.Kind.internal) :
    ∀ kind ∈ Error.Kind.internal, ¬kind.text.toList <+: d.message.toList := by
  rintro kind hkind ⟨rest, hrest⟩
  have hhead := h.head?_message hmet
  rw [← hrest, List.head?_append] at hhead
  rcases Error.Kind.head?_text_of_internal kind hkind with ha | hm
  · rw [ha] at hhead
    exact hhead.1 rfl
  · rw [hm] at hhead
    exact hhead.2 rfl

/-! ## Addresses -/

namespace Assembly

variable {o : Options} {source : String} {a : Assembly}

/-- **Words are at multiples of four**, since each address that has one is that of a line of the
listing. -/
theorem aligned_of_mem_addressMap (h : assemble o source = some a) (haligned : o.base % 4 = 0)
    {x : UInt32} (hx : x ∈ a.addressMap) : x % 4 = 0 := by
  rw [Std.TreeMap.mem_iff_isSome_getElem?, getElem?_addressMap, List.find?_isSome,
    placements_eq h] at hx
  obtain ⟨p, hp, hpx⟩ := hx
  obtain ⟨k, -, hp⟩ := List.mem_filterMap.mp (List.mem_reverse.mp hp)
  rw [← eq_of_beq hpx, (placementAt?_eq_some h hp).2, Image.addressOf_mod_four, haligned]

end Assembly

/-- **Internal causes never come up.**  Take settings that could be loaded, whatever is in their
file or if there is none, and any source that is assembled with them without running out of room.

* No rejection that the passes meet has an internal cause.
* The diagnostics tell of such rejections, and otherwise of labels that are no label names and of
  directives.  None of them has the wording of an internal cause.
* An instruction that cannot be expanded is a pseudo-instruction.  It has a wrong number of
  operands, or it is `li` with something else than a literal.
* The addresses of labels, of relocations and of words are multiples of four.  They are numbers of
  32 bits, so that this includes those past the end of the address space. -/
theorem internal_causes_never_come_up {σ : Type} (system : Command.System (StateM σ))
    (path : String) (before after : σ) (settings : Settings) (limit : Int) (source : String)
    (a : Assembly)
    (hload : (Command.loadSettings system path).run before = (.ok settings, after))
    (h : assemble { settings.options with tableLimit := limit } source = some a) :
    let o : Options := { settings.options with tableLimit := limit }
    (∀ e, a.Meets o e → e.kind ∉ Error.Kind.internal) ∧
    (∀ d ∈ a.diagnostics, d.TellsOf (a.Meets o) ∧
      ∀ kind ∈ Error.Kind.internal, ¬kind.text.toList <+: d.message.toList) ∧
    (∀ cs ∈ a.source.toList.take a.scan.lines, ∀ i e, (Line.read cs).instruction? = some i →
      i.expand = .error e →
      ∃ p, Pseudo.ofName? i.mnemonic = some p ∧
        (i.args.length ≠ p.arity ∧ e.kind = .invalidArgumentCount ∨
          i.args.length = p.arity ∧ p = .li ∧
            (e.kind = .unparseable ∨ e.kind = .numberOutOfRange))) ∧
    (∀ s ∈ a.labels.entries, s.address % 4 = 0) ∧
    (∀ s ∈ a.relocations.entries, s.address % 4 = 0) ∧
    ∀ x ∈ a.addressMap, x % 4 = 0 := by
  intro o
  have haligned : o.base % 4 = 0 := Command.aligned_of_loadSettings hload
  have hdescribes := assemble_describes h
  have hmet : ∀ e, a.Meets o e → e.kind ∉ Error.Kind.internal :=
    fun e he ↦ he.kind_not_internal h haligned
  have hwords : ∀ x ∈ a.addressMap, x % 4 = 0 :=
    fun x ↦ Assembly.aligned_of_mem_addressMap h haligned
  refine ⟨hmet, fun d hd ↦ ?_, fun cs hcs i e hi hexpand ↦ ?_, fun s hs ↦ ?_, fun s hs ↦ ?_, hwords⟩
  · have htells := Assembly.tellsOf_of_mem_diagnostics h d hd
    exact ⟨htells, htells.not_prefix hmet⟩
  · rw [hdescribes.source] at hcs
    exact Instruction.expand_error
      (Instruction.tokenized_of_instruction? (hdescribes.lineFeed cs hcs) hi) hexpand
  · exact hdescribes.scan.wellFormed.aligned s (Array.mem_toList_iff.mpr hs)
  · exact hwords s.address (Assembly.of_mem_relocations h hs).2

/-- A jump at the last address, then a label that is known, a pseudo-instruction without its
literal, a branch to a label that is not defined and a jump past the end of the address space. -/
theorem internal_causes_never_come_up_over_the_end :
    ∃ settings files a,
      (Command.loadSettings Command.FileTree.system Settings.defaultPath).run
        (Command.FileTree.ofList []
          [(Settings.defaultPath, "\x7b\"textBaseAddress\": 4294967292\x7d")]) =
        (.ok settings, files) ∧
      assemble settings.options "x: j x\nx: li $t0\nbeq $t0, $0, y\njal z" = some a ∧
      a.diagnostics.size = 3 ∧
      (∀ d ∈ a.diagnostics, d.TellsOf (a.Meets settings.options) ∧
        ¬"missing argument".toList <+: d.message.toList) ∧
      a.labels.entries = #[⟨"x", 0xfffffffc⟩] ∧
      a.relocations.entries = #[⟨"x", 0xfffffffc⟩, ⟨"z", 4⟩] ∧
      ∀ x ∈ a.addressMap, x % 4 = 0 := by
  have hsettings : ((Command.loadSettings Command.FileTree.system Settings.defaultPath).run
      (Command.FileTree.ofList []
        [(Settings.defaultPath, "\x7b\"textBaseAddress\": 4294967292\x7d")])).1 =
      .ok { textBaseAddress := 0xfffffffc } := by
    decide +kernel
  have hrun : (assemble (Settings.options { textBaseAddress := 0xfffffffc })
      "x: j x\nx: li $t0\nbeq $t0, $0, y\njal z").map
      (fun a ↦ (a.diagnostics.size, a.labels.entries, a.relocations.entries)) =
      some (3, #[⟨"x", 0xfffffffc⟩], #[⟨"x", 0xfffffffc⟩, ⟨"z", 4⟩]) := by
    decide +kernel
  obtain ⟨a, ha, hrun⟩ := Option.map_eq_some_iff.mp hrun
  simp only [Prod.mk.injEq] at hrun
  obtain ⟨hsize, hlabels, hrelocations⟩ := hrun
  cases hload : (Command.loadSettings Command.FileTree.system Settings.defaultPath).run
      (Command.FileTree.ofList []
        [(Settings.defaultPath, "\x7b\"textBaseAddress\": 4294967292\x7d")]) with
  | mk result files =>
    rw [hload] at hsettings
    obtain rfl : result = _ := hsettings
    obtain ⟨-, htells, -, -, -, hwords⟩ := internal_causes_never_come_up _ _ _ files
      { textBaseAddress := 0xfffffffc } SymbolTable.defaultLimit _ a hload ha
    refine ⟨_, files, a, rfl, ha, hsize, fun d hd ↦ ?_, hlabels, hrelocations, hwords⟩
    exact ⟨(htells d hd).1, (htells d hd).2 .missingArgument (by decide)⟩

end MipsAsm
