import MipsAsm.Proofs.Assembly.Expansion
import MipsAsm.Proofs.Assembly.Tables
import MipsAsm.Proofs.Hover.Places
import MipsAsm.Proofs.Hover.Texts

/-!
# What is shown about a position

What is shown is what was assembled.  The description of an instruction has the word of its line, if
there is one, and the description of a label has the address that the table of labels gives it.

A line is divided again for that, at the byte offsets that the first pass has left.  The walk to the
token at a position is therefore written once more with slices that fail where there is nothing to
be cut, and with the labels and the addresses in any order.  It never fails, and what it shows does
not depend on the order.

Which texts are shown is the subject of `MipsAsm.Proofs.Hover.Texts`.  There a description can be
read again: the words in it are lines of a certain form, and the name of a label is between its
marks.  In the result the text is spelled out and read, so that a word that is shown at the wrong
place, twice or with another address would be noticed.

The map of addresses has one entry for each address.  A listing with more lines than there are
addresses would overwrite its own entries, and so there is a bound on its length.  No machine with
these addresses could hold a longer program.

* `Assembly.hoverInOrder`, `Assembly.hoverInOrder_eq` — the walk.
* `Assembly.hover_of_ofName?`, `Assembly.hover_of_lt` — where a description comes from.
* `hover_shows_what_was_assembled` — all of that together.
-/

set_option autoImplicit false

namespace MipsAsm
namespace Text

/-- A token with its text cut from a line. -/
def Token.cut? (t : Token) (cs : List Char) : Option Token :=
  (slice? cs t.start t.stop).map fun text ↦ { t with text := String.ofList text }

theorem Token.cut?_of_hasAt {t : Token} {cs : List Char} (h : HasAt cs t.start t.text.toList) :
    t.cut? cs = some t := by
  rw [cut?, slice?_eq_some_iff.mpr ⟨h, t.stop_eq⟩, Option.map_some, String.ofList_toList]

end Text

/-- A line up to the first mark of a comment. -/
def Line.code? (cs : List Char) : Option (List Char) :=
  match Text.find? ['#'] 0 cs with
  | none => some cs
  | some position => Text.slice? cs 0 position

theorem Line.code?_eq (cs : List Char) : code? cs = some (code cs) := by
  rw [code?, Text.find?_singleton]
  by_cases hmark : '#' ∈ cs
  · rw [if_pos hmark]
    refine Text.slice?_eq_some_iff.mpr ⟨⟨[], cs.dropWhile (· != '#'), ?_, rfl⟩, rfl⟩
    exact List.takeWhile_append_dropWhile.symm
  · rw [if_neg hmark, code_of_not_mem hmark]

/-! ## The walk

`Assembly.hoverInOrder` is the function over again with two changes.  Where the program cuts a line
by byte offsets or looks up an index, this one fails if the offsets are not there; and where the
program goes through a map, this one goes through a list that it is given.  Both are the same
function, for every order of the lists. -/

namespace Assembly

/-- The words that come from a source line, found among addresses that are given in any order. -/
def placementsInOrder (a : Assembly) (addresses : List UInt32) (number : Nat) :
    Option (List Placement) :=
  let found := addresses.filter fun x ↦ a.addressMap[x]?.any (·.line == number)
  (found.mergeSort fun x y ↦ x.toNat ≤ y.toNat).mapM fun x ↦ a.addressMap[x]?

/-- What is shown about a position, with all slices checked and with the labels and the addresses in
the order in which they are given.  There is no result where something is read out of bounds. -/
def hoverInOrder (a : Assembly) (labels : List (String × Nat)) (addresses : List UInt32)
    (p : Position) : Option (Option String × List Log.Entry) :=
  if p.line < 0 ∨ a.source.size ≤ p.line then some (none, [])
  else do
    let number := p.line.toNat
    let code ← a.source[number]? >>= Line.code?
    let line ← a.line? number
    if p.character < line.bodyStart then
      let found := labels.find? (·.2 == number)
      some (found.map fun e ↦ describeLabel e.1 ((a.labels.find? e.1).getD 0), [])
    else
      let body ← Text.slice? code line.bodyStart (Text.byteLength code)
      let cuts := Text.tokens Line.isSeparator line.bodyStart body
      let tokens ← cuts.mapM (Text.Token.cut? · code)
      let words ← a.placementsInOrder addresses number
      some (a.describeToken words tokens p.character)

variable {o : Options} {source : String} {a : Assembly} {number : Nat} {line : Line}

/-- The words of a line do not depend on the order of the addresses, since they are sorted. -/
theorem placementsInOrder_eq {addresses : List UInt32} (h : addresses.Perm a.addressMap.keys)
    (number : Nat) : a.placementsInOrder addresses number = some (a.placementsOnLine number) := by
  have hlookup : ∀ e ∈ a.addressMap.toList, a.addressMap[e.1]? = some e.2 := fun e he ↦
    Std.TreeMap.mem_toList_iff_getElem?_eq_some.mp he
  have hordered : a.addressMap.keys.Pairwise fun x y ↦ decide (x.toNat ≤ y.toNat) = true :=
    a.addressMap.ordered_keys.imp fun {x y} hlt ↦ by
      have hlt : x < y := Std.compare_eq_lt.mp hlt
      simpa using Nat.le_of_lt (UInt32.lt_iff_toNat_lt.mp hlt)
  have hsorted : ∀ p : UInt32 → Bool,
      ((addresses.filter p).mergeSort fun x y ↦ x.toNat ≤ y.toNat) =
        a.addressMap.keys.filter p := by
    intro p
    refine List.Perm.eq_of_pairwise (fun x y _ _ hxy hyx ↦ ?_)
      (List.pairwise_mergeSort (fun x y z hxy hyz ↦ ?_) (fun x y ↦ ?_) _) (hordered.filter p)
      ((List.mergeSort_perm _ _).trans (h.filter p))
    · exact UInt32.toNat_inj.mp (Nat.le_antisymm (of_decide_eq_true hxy) (of_decide_eq_true hyx))
    · exact decide_eq_true (Nat.le_trans (of_decide_eq_true hxy) (of_decide_eq_true hyz))
    · simpa using Nat.le_total x.toNat y.toNat
  rw [placementsInOrder, hsorted, ← Std.TreeMap.map_fst_toList_eq_keys, placementsOnLine,
    values_eq_map_toList, List.filter_map, List.filter_map, List.mapM_map]
  have hsame : a.addressMap.toList.filter
        ((fun x ↦ a.addressMap[x]?.any (·.line == number)) ∘ Prod.fst) =
      a.addressMap.toList.filter ((·.line == number) ∘ Prod.snd) :=
    List.filter_congr fun e he ↦ by
      rw [Function.comp_apply, hlookup e he, Option.any_some, Function.comp_apply]
  rw [hsame]
  exact mapM_eq_some_map fun e he ↦ hlookup e (List.mem_filter.mp he).1

/-- The body of a line is the last part of its code, whether the first pass has read it or not. -/
theorem hasAt_body_of_line? (h : a.line? number = some line) :
    ∃ cs, a.source[number]? = some cs ∧ Text.HasAt (Line.code cs) line.bodyStart line.body ∧
      line.bodyStart + Text.byteLength line.body = Text.byteLength (Line.code cs) := by
  obtain ⟨cs, hcs, rfl⟩ := Option.map_eq_some_iff.mp h
  refine ⟨cs, hcs, ?_⟩
  split
  · exact Line.hasAt_body cs
  · exact ⟨⟨[], [], by simp [Line.unlabelled], rfl⟩, Nat.zero_add _⟩

/-- The tokens of a line can be cut from its code. -/
theorem mapM_cut?_tokens {cs : List Char} (h : Text.HasAt cs line.bodyStart line.body) :
    line.tokens.mapM (Text.Token.cut? · cs) = some line.tokens := by
  rw [mapM_eq_some_map (g := id), List.map_id]
  intro t ht
  obtain ⟨offset, hstart, hat⟩ := Text.hasAt_of_mem_tokens ht
  exact Text.Token.cut?_of_hasAt (hstart ▸ h.trans hat)

/-- **Nothing is read out of bounds, and no order matters.** -/
theorem hoverInOrder_eq (h : assemble o source = some a) {labels : List (String × Nat)}
    {addresses : List UInt32} (hlabels : labels.Perm a.scan.labelLines.toList)
    (haddresses : addresses.Perm a.addressMap.keys) (p : Position) :
    a.hoverInOrder labels addresses p = some (a.hover p) := by
  obtain ⟨n, character⟩ := p
  cases n with
  | negSucc n =>
    rw [hoverInOrder, if_pos (.inl (Int.negSucc_lt_zero n))]
    rfl
  | ofNat number =>
    cases hline : a.line? number with
    | none =>
      have hend : a.source.size ≤ number := by simpa [line?] using hline
      rw [hoverInOrder, if_pos (.inr (Int.ofNat_le.mpr hend)), hover]
      simp only [hline]
    | some line =>
      obtain ⟨cs, hcs, hat, hstop⟩ := hasAt_body_of_line? hline
      have hin : number < a.source.size := (Array.getElem?_eq_some_iff.mp hcs).1
      have hlabel : labels.find? (·.2 == number) = a.scan.labelLines.find? (·.2 == number) := by
        refine Option.ext fun e ↦ ?_
        rw [← Array.find?_toList, find?_line_eq_some_iff h hlabels,
          find?_line_eq_some_iff h (List.Perm.refl _)]
      have hbody := Text.slice?_eq_some_iff.mpr ⟨hat, hstop.symm⟩
      have hinside : ¬(Int.ofNat number < 0 ∨ (a.source.size : Int) ≤ Int.ofNat number) := by
        rw [Int.ofNat_eq_natCast]
        omega
      rw [hoverInOrder, if_neg hinside, hover]
      simp only [Int.ofNat_eq_natCast, Int.toNat_natCast, hcs, hline, Option.bind_eq_bind,
        Option.bind_some, Line.code?_eq, hbody]
      split
      · rw [hlabel, describeDefinition, Scan.labelOnLine?, Option.map_map]
        rfl
      · rw [← Line.tokens, mapM_cut?_tokens hat, placementsInOrder_eq haddresses]
        rfl

/-! ## Where a description comes from

The position is compared with the start of the body and with the ends of tokens.  These lemmas say
what is left of the walk in the two cases that the result is about. -/

/-- A line that was read is divided as it was. -/
theorem Describes.line?_eq {lines : List (List Char)} (h : a.Describes o lines)
    (hscanned : a.scan.lines = lines.length) {cs : List Char} (hcs : lines[number]? = some cs) :
    a.line? number = some (Line.read cs) := by
  have hlt : number < a.scan.lines := by
    rw [hscanned]
    exact (List.getElem?_eq_some_iff.mp hcs).1
  rw [line?, ← Array.getElem?_toList, h.source, hcs, Option.map_some, if_pos hlt]

/-- What is shown about the first token of a line. -/
theorem hover_of_covers {t : Text.Token} {rest : List Text.Token} {character : Int}
    (hline : a.line? number = some line) (htokens : line.tokens = t :: rest)
    (hstart : t.start ≤ character) (hstop : character < t.stop) :
    a.hover { line := number, character } =
      describeMnemonic t.text (rest.map Text.Token.text) (a.placementsOnLine number) := by
  have hbody : line.bodyStart ≤ t.start :=
    Text.le_start_of_mem_tokens (htokens ▸ List.mem_cons_self)
  have hcovers : (decide (t.start ≤ character) && decide (character < t.stop)) = true := by
    rw [decide_eq_true hstart, decide_eq_true hstop, Bool.and_self]
  have hnumber : ((number : Nat) : Int) = Int.ofNat number := rfl
  rw [hover, hnumber]
  simp only [hline]
  rw [if_neg (by omega), describeToken.eq_def, htokens]
  simp only [hcovers, if_true]

/-- What is shown about the first token of a line, if it is the name of an instruction that has a
word of its own. -/
theorem hover_of_ofName? {t : Text.Token} {rest : List Text.Token} {m : Mnemonic} {character : Int}
    (hline : a.line? number = some line) (htokens : line.tokens = t :: rest)
    (hm : Mnemonic.ofName? t.text = some m) (hstart : t.start ≤ character)
    (hstop : character < t.stop) :
    a.hover { line := number, character } =
      (some (describeInstruction m (a.placementsOnLine number)), []) := by
  rw [hover_of_covers hline htokens hstart hstop, describeMnemonic, Pseudo.ofName?_eq_none hm, hm,
    Option.map_some]

/-- What is shown before the body of a line. -/
theorem hover_of_lt {character : Int} (hline : a.line? number = some line)
    (hlt : character < line.bodyStart) :
    a.hover { line := number, character } = (a.describeDefinition number, []) := by
  have hnumber : ((number : Nat) : Int) = Int.ofNat number := rfl
  rw [hover, hnumber]
  simp only [hline]
  rw [if_pos hlt]

/-- What is shown of a label where it is defined. -/
theorem describeDefinition_of_mem (h : assemble o source = some a) {name : String}
    (hname : (name, number) ∈ a.scan.labelLines.toList) :
    ∃ address, a.labels.find? name = some address ∧
      a.describeDefinition number = some (describeLabel name address) := by
  obtain ⟨address, hfind⟩ := exists_find?_of_mem_labelLines h hname
  refine ⟨address, hfind, ?_⟩
  rw [describeDefinition, (labelOnLine?_eq_some_iff h).mpr hname, Option.map_some, hfind,
    Option.getD_some]

/-- Nothing is shown of a label that is not defined where it stands. -/
theorem describeDefinition_of_not_mem (h : assemble o source = some a) {cs : List Char}
    {name : String} (hcs : (Text.splitLines source.toList)[number]? = some cs)
    (hlabel : Line.HasLabel cs name) (hname : (name, number) ∉ a.scan.labelLines.toList) :
    a.describeDefinition number = none := by
  rw [describeDefinition, Option.map_eq_none_iff, Option.eq_none_iff_forall_ne_some]
  intro name' hname'
  have hmem := (labelOnLine?_eq_some_iff h).mp hname'
  obtain ⟨-, -, ⟨cs', hcs', hlabel'⟩, -⟩ := (mem_labelLines_iff h).mp hmem
  rw [List.getElem?_take, Option.ite_none_right_eq_some] at hcs'
  obtain rfl : cs' = cs := Option.some.inj (hcs'.2.symm.trans hcs)
  rw [Line.hasLabel_iff] at hlabel hlabel'
  obtain rfl : name' = name := Option.some.inj (hlabel'.symm.trans hlabel)
  exact hname hmem

end Assembly

/-! ## Lines with an instruction of their own

A line with an instruction that has a word of its own is one line of the listing, unless it has an
operand that is empty, which no token is.  So the position of that line of the listing is the number
of instructions of the lines before. -/

/-- A line whose first token is the name of an instruction has that instruction, and it stands for
itself. -/
theorem Line.instruction?_of_ofName? {l : Line} {t : Text.Token} {rest : List Text.Token}
    {m : Mnemonic} (htokens : l.tokens = t :: rest) (hm : Mnemonic.ofName? t.text = some m) :
    ∃ i : Instruction, i = { mnemonic := t.text, args := rest.map Text.Token.text } ∧
      l.instruction? = some i ∧ i.expand = .ok [i] := by
  have hempty : "" ∉ rest.map Text.Token.text := by
    intro hmem
    obtain ⟨u, hu, hnone⟩ := List.mem_map.mp hmem
    have hu : u ∈ l.tokens := htokens ▸ List.mem_cons_of_mem _ hu
    have hlt := Text.start_lt_stop_of_mem_tokens hu
    rw [u.stop_eq, hnone] at hlt
    exact absurd hlt (Nat.lt_irrefl _)
  obtain ⟨hdirective, hexpand⟩ := Instruction.expand_of_ofName?
    (i := { mnemonic := t.text, args := rest.map Text.Token.text }) hm hempty
  refine ⟨_, rfl, ?_, hexpand⟩
  rw [instruction?, htokens, Instruction.ofTokens?, Option.filter_some, hdirective, Bool.not_false,
    if_pos rfl]

section

variable {o : Options} {a : Assembly} {lines : List (List Char)} {number : Nat} {cs : List Char}
  {i : Instruction}

theorem length_expandLines_succ (hcs : lines[number]? = some cs)
    (hone : (Line.read cs).expansion = [i]) :
    (expandLines (lines.take (number + 1))).length =
      (expandLines (lines.take number)).length + 1 := by
  rw [List.take_add_one, hcs, Option.toList_some, expandLines_concat, hone, List.length_append]
  rfl

/-- A line that stands for one instruction stands for one line of the listing. -/
theorem Assembly.Describes.origins_iff_eq (h : a.Describes o lines)
    (hscanned : a.scan.lines = lines.length) (hcs : lines[number]? = some cs)
    (hone : (Line.read cs).expansion = [i]) (j : Nat) :
    a.scan.origins[j]? = some number ↔ j = (expandLines (lines.take number)).length := by
  rw [h.origins_iff hscanned, length_expandLines_succ hcs hone]
  omega

/-- An instruction that stands for itself is on the line of the listing that its line stands for. -/
theorem Assembly.Describes.instructionAt?_of_expand (h : a.Describes o lines)
    (hscanned : a.scan.lines = lines.length) (hcs : lines[number]? = some cs)
    (hi : (Line.read cs).instruction? = some i) (hexpand : i.expand = .ok [i]) :
    a.instructionAt? (expandLines (lines.take number)).length = some i := by
  have hone := Line.expansion_of_expand hi hexpand
  have hentry := h.getElem?_entries hscanned hcs (j := 0) (by rw [hone]; exact Nat.one_pos)
  have hread : cs ∈ lines.take a.scan.lines := by
    rw [hscanned, List.take_length]
    exact List.mem_of_getElem? hcs
  have htokenized := Instruction.tokenized_of_instruction? (h.lineFeed cs hread) hi
  rw [h.instructionAt?_eq, ← Nat.add_zero (List.length _), hentry, hone]
  exact congrArg some htokenized.reread_eq

end

/-- **What is shown is what was assembled.**  Without the option to stop, and if the listing has no
more lines than there are addresses for, the map of addresses has the words of the lines of the
listing that were encoded, each with its source line.  About the first token of a line, if it is the
name of an instruction with a word, the word of that line is shown at the end of the text, with its
address and with no other word, or no word if there is none.  In front of the body of a line its
label is shown, by its name and with its address, if it is the one that the table of labels has.
Whatever the options and the position, nothing is read out of bounds, and the order in which labels
and addresses are gone through makes no difference. -/
theorem hover_shows_what_was_assembled (o : Options) (source : String) (a : Assembly)
    (h : assemble o source = some a) :
    let lines := Text.splitLines source.toList
    let first := fun number ↦ (expandLines (lines.take number)).length
    (o.stopOnFirstError = false → (Image.listingLines a.listing).length ≤ 1073741824 →
      (∀ (x : UInt32) (p : Placement), a.addressMap[x]? = some p ↔
        ∃ k, a.Encodes o k p.word ∧ first p.line ≤ k ∧ k < first (p.line + 1) ∧
          p.address = Image.addressOf o.base k ∧ x = p.address) ∧
      ∀ number cs t rest m (character : Int), lines[number]? = some cs →
        (Line.read cs).tokens = t :: rest → Mnemonic.ofName? t.text = some m →
        t.start ≤ character → character < t.stop →
        a.instructionAt? (first number) =
          some { mnemonic := t.text, args := rest.map Text.Token.text } ∧
        first (number + 1) = first number + 1 ∧
        (∀ w, a.Encodes o (first number) w →
          let address := Image.addressOf o.base (first number)
          let text := Assembly.describeInstruction m [{ address, line := number, word := w }]
          a.hover { line := number, character } = (some text, []) ∧
          text = Assembly.describeInstruction m [] ++
            ("\n\n`0x" ++ Text.hexWord address ++ "`: `" ++ Text.hexWord w ++ "`") ∧
          Shown.words text = [(address, w)]) ∧
        ((∀ w, ¬a.Encodes o (first number) w) →
          let text := Assembly.describeInstruction m []
          a.hover { line := number, character } = (some text, []) ∧ Shown.words text = [])) ∧
    (o.stopOnFirstError = false →
      ∀ number cs before rest (character : Int), lines[number]? = some cs →
        Line.Splits cs before rest → character < Text.byteLength before + 1 →
        let name := String.ofList (Text.trim Line.isMargin before)
        (a.scan.labelLine? name = some number ↔ o.base % 4 = 0 ∧ Label.isValid name = true ∧
          IsFirstLabel lines name number) ∧
        (a.scan.labelLine? name = some number → ∃ address, a.labels.find? name = some address ∧
          let text := "Definition of label `" ++ name ++ "`.\n\n Address of 0x" ++
            Text.hexUpper address.toNat
          a.hover { line := number, character } = (some text, []) ∧
          text = Assembly.describeLabel name address ∧
          Shown.label? text = some (name, address)) ∧
        (a.scan.labelLine? name ≠ some number →
          a.hover { line := number, character } = (none, []))) ∧
    ∀ labels addresses p, labels.Perm a.scan.labelLines.toList →
      addresses.Perm a.addressMap.keys → a.hoverInOrder labels addresses p = some (a.hover p) := by
  intro lines first
  have hdescribes := assemble_describes h
  have hscanned : o.stopOnFirstError = false → a.scan.lines = lines.length := fun hstop ↦
    hdescribes.scanned.resolve_right fun hstopped ↦ by
      rw [hstop] at hstopped
      exact Bool.false_ne_true hstopped.1
  refine ⟨fun hstop hfew ↦ ⟨?_, ?_⟩, fun hstop ↦ ?_, fun labels addresses p ↦ ?_⟩
  · exact Assembly.getElem?_addressMap_iff_between h (hscanned hstop) hfew
  · intro number cs t rest m character hcs htokens hm hstart hend
    obtain ⟨i, rfl, hi, hexpand⟩ := Line.instruction?_of_ofName? htokens hm
    have hone := Line.expansion_of_expand hi hexpand
    have hline := hdescribes.line?_eq (hscanned hstop) hcs
    have hshown := Assembly.hover_of_ofName? hline htokens hm hstart hend
    obtain ⟨hword, hnone⟩ := Assembly.placementsOnLine_of_encodes h hfew
      (hdescribes.origins_iff_eq (hscanned hstop) hcs hone)
    refine ⟨hdescribes.instructionAt?_of_expand (hscanned hstop) hcs hi hexpand,
      length_expandLines_succ hcs hone, fun w hw ↦ ?_, fun hw ↦ ?_⟩
    · exact ⟨by rw [hshown, hword w hw], Assembly.describeInstruction_singleton m _,
        Shown.words_describeInstruction m _⟩
    · exact ⟨by rw [hshown, hnone hw], Shown.words_describeInstruction m []⟩
  · intro number cs before rest character hcs hsplits hlt name
    have hbefore : character < (Line.read cs).bodyStart := by
      rw [Line.read_of_splits hsplits]
      exact hlt
    have hshown := Assembly.hover_of_lt (hdescribes.line?_eq (hscanned hstop) hcs) hbefore
    have hmem : a.scan.labelLine? name = some number ↔
        (name, number) ∈ a.scan.labelLines.toList := labelLine?_iff_mem_labelLines h
    refine ⟨?_, fun hname ↦ ?_, fun hname ↦ ?_⟩
    · rw [hmem, mem_labelLines_iff h, hscanned hstop, List.take_length]
    · obtain ⟨address, hfind, hdefinition⟩ := Assembly.describeDefinition_of_mem h (hmem.mp hname)
      have hvalid : Label.isValid name = true := ((mem_labelLines_iff h).mp (hmem.mp hname)).2.1
      refine ⟨address, hfind, ?_⟩
      rw [← Assembly.describeLabel_eq]
      exact ⟨by rw [hshown, hdefinition], rfl, Shown.label?_describeLabel hvalid address⟩
    · rw [hshown, Assembly.describeDefinition_of_not_mem h hcs ⟨before, rest, hsplits, rfl⟩
        fun hin ↦ hname (hmem.mpr hin)]
  · exact fun hlabels haddresses ↦ Assembly.hoverInOrder_eq h hlabels haddresses p

/-- A label with an instruction that has no operand, of which there is only how it is written to be
shown, and the same label again with one that has its word past the last address. -/
theorem hover_shows_what_was_assembled_past_the_last_address :
    ∃ a, assemble { base := 0xfffffffc } "a: jr\na: jr $ra" = some a ∧
      (a.hover { line := 0, character := 3 } = (some (Assembly.describeInstruction .jr []), []) ∧
        Shown.words (Assembly.describeInstruction .jr []) = []) ∧
      a.hover { line := 1, character := 4 } = (some (Assembly.describeInstruction .jr
        [{ address := 0, line := 1, word := 0x03e00008 }]), []) ∧
      Shown.words (Assembly.describeInstruction .jr
        [{ address := 0, line := 1, word := 0x03e00008 }]) = [(0, 0x03e00008)] ∧
      (∃ text, a.hover { line := 0, character := 1 } = (some text, []) ∧
        Shown.label? text = some ("a", 0xfffffffc)) ∧
      a.hover { line := 1, character := 1 } = (none, []) ∧
      a.hoverInOrder a.scan.labelLines.toList a.addressMap.keys { line := 1, character := 9 } =
        some (a.hover { line := 1, character := 9 }) := by
  have hrun : (assemble { base := 0xfffffffc } "a: jr\na: jr $ra").map (fun a ↦
      ((a.image.read, (Image.listingLines a.listing).length),
        (a.wordAt? { base := 0xfffffffc } 0, a.wordAt? { base := 0xfffffffc } 1),
        a.scan.labelLine? "a", a.labels.find? "a")) =
      some ((2, 2), (none, some 0x03e00008), some 0, some 0xfffffffc) := by
    decide +kernel
  obtain ⟨a, ha, hrun⟩ := Option.map_eq_some_iff.mp hrun
  obtain ⟨hcounts, hrun⟩ := Prod.mk.inj hrun
  obtain ⟨hwords, hrun⟩ := Prod.mk.inj hrun
  obtain ⟨hread, hlength⟩ := Prod.mk.inj hcounts
  obtain ⟨hfirst, hsecond⟩ := Prod.mk.inj hwords
  obtain ⟨hlabel, haddress⟩ := Prod.mk.inj hrun
  obtain ⟨hinstructions, hlabels, horder⟩ :=
    hover_shows_what_was_assembled { base := 0xfffffffc } _ a ha
  obtain ⟨-, hinstructions⟩ := hinstructions rfl (by rw [hlength]; decide)
  obtain ⟨-, -, -, hunencoded⟩ := hinstructions 0 "a: jr".toList ⟨"jr", 3⟩ [] .jr 3
    (by decide +kernel) (by decide +kernel) (by decide) (by decide) (by decide)
  obtain ⟨-, -, hencoded, -⟩ := hinstructions 1 "a: jr $ra".toList ⟨"jr", 3⟩ [⟨"$ra", 6⟩] .jr 4
    (by decide +kernel) (by decide +kernel) (by decide) (by decide) (by decide)
  obtain ⟨-, haccepted, -⟩ := hlabels rfl 0 "a: jr".toList ['a'] " jr".toList 1
    (by decide +kernel) ⟨by decide +kernel, by decide⟩ (by decide)
  obtain ⟨-, -, hrefused⟩ := hlabels rfl 1 "a: jr $ra".toList ['a'] " jr $ra".toList 1
    (by decide +kernel) ⟨by decide +kernel, by decide⟩ (by decide)
  have hname : String.ofList (Text.trim Line.isMargin ['a']) = "a" := by decide +kernel
  have hposition :
      (expandLines ((Text.splitLines "a: jr\na: jr $ra".toList).take 1)).length = 1 := by
    decide +kernel
  beta_reduce at hencoded
  rw [hposition] at hencoded
  rw [hname] at haccepted hrefused
  obtain ⟨hshown, -, hwords⟩ := hencoded _ ((Assembly.encodes_iff ha).mpr ⟨by omega, hsecond⟩)
  refine ⟨a, ha, hunencoded fun w hw ↦ ?_, hshown, hwords, ?_, ?_,
    horder _ _ _ (.refl _) (.refl _)⟩
  · have hword := ((Assembly.encodes_iff ha).mp hw).2
    exact Option.some_ne_none w (hword.symm.trans hfirst)
  · obtain ⟨address, hfind, hshown, -, hread⟩ := haccepted hlabel
    rw [Option.some.inj (hfind.symm.trans haddress)] at hshown hread
    exact ⟨_, hshown, hread⟩
  · exact hrefused (by rw [hlabel]; decide)

end MipsAsm
