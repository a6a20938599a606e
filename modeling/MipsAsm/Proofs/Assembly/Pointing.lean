import MipsAsm.Proofs.Assembly.Expansion

/-!
# Where the diagnostics of operands point

A rejection for an operand names the text of the operand, and the range of its diagnostic is found
by a search for that text in the body of the line.  The text has no separators, so that it is found
in the first token that has it.  That token need not be the operand: it may be the mnemonic, or a
longer operand in front of it.

One would like the range of an error to be that of the operand at fault, and mostly it is.  It is
not if the same text occurs earlier in the line, and the search knows nothing of operands: in `ori
$t0, $t0, t` the text `t` is found within the first register.  So the condition is stated exactly,
as one on the tokens of the line, and it can be checked without the assembler.

Two operands with the same text cannot be told apart by the search, nor by the statement: the first
of them is pointed at, whichever is at fault.

* `Text.IsFirstWith` — a token is the first that has a text.
* `Line.errorRange_of_token`, `Line.points_at_operand_iff` — where the range of an error is, and
  when it is that of an operand.
* `Assembly.Rejects.exists_line` — a rejection has a diagnostic, and one for an operand names an
  operand of the source line.
* `operand_error_points_at_operand_iff` — the result.
-/

set_option autoImplicit false

namespace MipsAsm

/-! ## The first token that has a text

The search for a text goes through the bytes of the body.  A text without separators cannot reach
from one token into the next, so where it is found it is inside a token, and that token is the first
one that has it, since a search finds the first place. -/

namespace Text

/-- A token is the first of the given ones that has a text. -/
inductive IsFirstWith (needle : List Char) : List Token → Token → Prop
  /-- The token in front has it. -/
  | here {t : Token} {ts : List Token} (has : needle <:+: t.text.toList) :
      IsFirstWith needle (t :: ts) t
  /-- The token in front does not have it. -/
  | later {t u : Token} {ts : List Token} (lacks : ¬needle <:+: u.text.toList)
      (rest : IsFirstWith needle ts t) : IsFirstWith needle (u :: ts) t

variable {needle : List Char} {ts : List Token} {t u : Token}

theorem IsFirstWith.mem (h : IsFirstWith needle ts t) : t ∈ ts := by
  induction h with
  | here => exact List.mem_cons_self
  | later lacks rest ih => exact List.mem_cons_of_mem _ ih

theorem IsFirstWith.unique (ht : IsFirstWith needle ts t) (hu : IsFirstWith needle ts u) :
    t = u := by
  induction ht with
  | here has =>
    cases hu with
    | here => rfl
    | later lacks => exact absurd has lacks
  | later lacks rest ih =>
    cases hu with
    | here has => exact absurd has lacks
    | later _ rest' => exact ih rest'

/-- A text without separators is found in the first token that has it. -/
theorem exists_isFirstWith {p : Char → Bool} (hne : needle ≠ [])
    (hneedle : ∀ c ∈ needle, p c = false) {start position : Nat} {cs : List Char}
    (h : find? needle start cs = some position) :
    ∃ t, IsFirstWith needle (tokens p start cs) t ∧
      find? needle t.start t.text.toList = some position := by
  rw [find?_eq_findSome?_tokens hne hneedle] at h
  generalize tokens p start cs = ts at h ⊢
  induction ts with
  | nil => cases h
  | cons u us ih =>
    rw [List.findSome?_cons] at h
    cases hfound : find? needle u.start u.text.toList with
    | some found =>
      rw [hfound] at h
      refine ⟨u, .here ?_, hfound.trans h⟩
      by_contra hlacks
      rw [find?_eq_none_iff.mpr hlacks] at hfound
      cases hfound
    | none =>
      rw [hfound] at h
      obtain ⟨t, hfirst, hposition⟩ := ih h
      exact ⟨t, .later (find?_eq_none_iff.mp hfound) hfirst, hposition⟩

end Text

namespace Line

/-- The tokens after the mnemonic. -/
def operands (l : Line) : List Text.Token := l.tokens.tail

theorem map_text_operands {l : Line} {i : Instruction} (h : l.instruction? = some i) :
    l.operands.map Text.Token.text = i.args := by
  obtain ⟨htokens, -⟩ := Option.filter_eq_some_iff.mp h
  rw [operands, List.map_tail, Instruction.ofTokens?_eq_some_iff.mp htokens, List.tail_cons]

/-- Tokens that overlap are the same. -/
theorem eq_of_overlap {l : Line} {t u : Text.Token} (ht : t ∈ l.tokens) (hu : u ∈ l.tokens)
    (hstart : t.start < u.stop) (hstop : u.start < t.stop) : t = u := by
  have hpairwise := Text.tokens_pairwise isSeparator l.bodyStart l.body
  have hsame : ∀ ⦃t⦄, t ∈ l.tokens → ∀ ⦃u⦄, u ∈ l.tokens →
      t.start < u.stop → u.start < t.stop → t = u := by
    refine List.Pairwise.forall_of_forall_of_flip (fun _ _ _ _ ↦ rfl)
      (hpairwise.imp fun hle _ hlt ↦ ?_) (hpairwise.imp fun hle hlt _ ↦ ?_)
    all_goals exact absurd hle (Nat.not_le_of_lt hlt)
  exact hsame ht hu hstart hstop

/-- The range of an error that names a token lies in the first token that has its text. -/
theorem errorRange_of_token {l : Line} {e : Error} {t : Text.Token} (ht : t ∈ l.tokens)
    (htext : t.text = e.construct) (number : Nat) :
    ∃ u offset, Text.IsFirstWith e.construct.toList l.tokens u ∧
      Text.HasAt u.text.toList offset e.construct.toList ∧
      l.errorRange number e = Range.onLine number (u.start + offset)
        (u.start + offset + e.construct.utf8ByteSize) := by
  obtain ⟨hne, hchars⟩ := Text.mem_words (Text.text_mem_words ht)
  obtain ⟨-, -, before, after, hbody, -⟩ := Text.hasAt_of_mem_tokens ht
  rw [htext] at hne hchars hbody
  obtain ⟨position, hfound, hrange⟩ :=
    errorRange_of_infix hne ⟨before, after, by rw [hbody]⟩ number
  obtain ⟨u, hfirst, hinside⟩ := Text.exists_isFirstWith (by simpa using hne)
    (fun c hc ↦ (hchars c hc).1) hfound
  obtain ⟨offset, rfl, hat⟩ := Text.hasAt_of_find? hinside
  exact ⟨u, offset, hfirst, hat, hrange⟩

/-- A range inside a token that has the text that an error names is the range of an operand with
that text just if the token is such an operand. -/
theorem points_at_operand_iff {l : Line} {e : Error} {u : Text.Token} (hu : u ∈ l.tokens)
    {offset : Nat} (hat : Text.HasAt u.text.toList offset e.construct.toList) (number : Nat) :
    (∃ t ∈ l.operands, t.text = e.construct ∧
        Range.onLine number (u.start + offset) (u.start + offset + e.construct.utf8ByteSize) =
          Range.onLine number t.start t.stop) ↔
      u ∈ l.operands ∧ u.text = e.construct := by
  obtain ⟨before, after, htext, rfl⟩ := hat
  constructor
  · rintro ⟨t, ht, hconstruct, hrange⟩
    have hmem : t ∈ l.tokens := List.mem_of_mem_tail ht
    have hstart : u.start + Text.byteLength before = t.start := by
      simp only [Range.onLine, Range.mk.injEq, Position.mk.injEq] at hrange
      omega
    have hpos := Text.start_lt_stop_of_mem_tokens hmem
    have hsize := congrArg Text.byteLength htext
    rw [Text.byteLength_append, Text.byteLength_append, ← hconstruct] at hsize
    have htstop := t.stop_eq
    have hustop := u.stop_eq
    obtain rfl : t = u := eq_of_overlap hmem hu (by omega) (by omega)
    exact ⟨ht, hconstruct⟩
  · rintro ⟨hmem, hconstruct⟩
    rw [hconstruct] at htext
    have hlength := congrArg List.length htext
    rw [List.length_append, List.length_append] at hlength
    have hbefore : before = [] := List.length_eq_zero_iff.mp (by omega)
    refine ⟨u, hmem, hconstruct, ?_⟩
    rw [hbefore, u.stop_eq, hconstruct, Text.byteLength_toList]
    rfl

end Line

/-! ## Rejections for an operand

What is named is an operand of the instruction that was rejected.  That may be one of several that a
pseudo-instruction stands for, but those are rejected only for operands that were given, so the text
is one that the source line has. -/

/-- An expansion that fails because of an operand names one of those given. -/
theorem Pseudo.construct_mem_of_expand {p : Pseudo} {args : List String} {e : Error}
    (h : p.expand args = .error e) (hkind : e.kind ∈ Error.Kind.ofOperands) :
    e.construct ∈ args := by
  rw [expand.eq_def] at h
  split at h
  case h_1 rd literal =>
    split at h
    · rename_i e' hparse
      obtain rfl := Except.error.inj h
      rw [Error.inInstruction_construct, (Literal.parse_error hparse).1]
      simp
    · cases h
  case h_6 =>
    obtain rfl := Except.error.inj h
    simp [Error.Kind.ofOperands] at hkind
  all_goals cases h

namespace Instruction

variable {i : Instruction} {e : Error}

theorem construct_mem_of_expand (h : i.expand = .error e)
    (hkind : e.kind ∈ Error.Kind.ofOperands) : e.construct ∈ i.args := by
  rw [expand] at h
  split at h
  · obtain rfl := Except.error.inj h
    simp [Error.Kind.ofOperands] at hkind
  · split at h
    · cases h
    · exact Pseudo.construct_mem_of_expand h hkind

/-- An instruction that is rejected because of an operand has the operand that is named. -/
theorem construct_mem_of_encode {limit : Int} {address : UInt32} {tables : Tables}
    (h : (i.encode limit address tables).2 = .error (.rejected e))
    (hkind : e.kind ∈ Error.Kind.ofOperands) : e.construct ∈ i.args := by
  obtain ⟨m, -, oa, hoa, hvalue⟩ := encode_error_of_operand h hkind
  rw [(Operand.value_error hvalue).1]
  exact (List.of_mem_zip hoa).2

end Instruction

theorem Pseudo.MayRaise.construct_mem {p : Pseudo} {args : List String} {i : Instruction}
    {e : Error} (h : p.MayRaise args i e) : e.construct ∈ args := by
  cases h with
  | register kind operand => exact operand
  | literal pseudo addiu kind operand => exact List.mem_of_getElem? operand

/-- **A rejection has a diagnostic**, and one that comes from an operand names an operand of the
source line, whatever has become of the instruction there in between. -/
theorem Assembly.Rejects.exists_line {o : Options} {source : String} {a : Assembly} {number : Nat}
    {e : Error} (hrejects : a.Rejects o number e) (h : assemble o source = some a) :
    ∃ cs j, (Text.splitLines source.toList)[number]? = some cs ∧
      (Line.read cs).instruction? = some j ∧
      .ofError e ((Line.read cs).errorRange number e) ∈ a.diagnostics ∧
      (e.kind ∈ Error.Kind.ofOperands → e.construct ∈ j.args) := by
  have hdescribes := assemble_describes h
  cases hrejects with
  | @expansion cs i read line instruction rejected =>
    rw [hdescribes.getElem?_source] at line
    refine ⟨cs, i, line, instruction, Array.mem_append_left _ ?_,
      Instruction.construct_mem_of_expand rejected⟩
    refine hdescribes.scan.remarks number cs ?_ _
      (Line.mem_remarks_of_expand instruction rejected number)
    rw [List.getElem?_take, if_pos read, line]
  | @encoding k m i read origin before instruction rejected =>
    have hi := instruction
    rw [hdescribes.instructionAt?_eq, Option.map_eq_some_iff] at hi
    obtain ⟨entry, hentry, rfl⟩ := hi
    obtain rfl : entry.1 = number :=
      Option.some.inj ((hdescribes.exists_origin hentry).1.symm.trans origin)
    obtain ⟨cs, j, hcs, hj, hsource⟩ := hdescribes.exists_source hentry
    refine ⟨cs, j, hcs, hj, Array.mem_append_right _ ?_, fun hkind ↦ ?_⟩
    · -- the tables at this line are those that the rejection speaks of
      obtain ⟨m', hm', hencode⟩ := Assembly.exists_encode_of_lt h read hentry
      obtain rfl := Option.some.inj (hm'.symm.trans before)
      rw [hencode] at rejected
      rw [← hdescribes.getElem?_source] at hcs
      obtain ⟨w, -, hword⟩ | ⟨e', he', -, hmem⟩ :=
        Assembly.encodes_or_rejects h read origin hcs instruction
      · rw [hword] at rejected
        cases rejected
      · rw [he'] at rejected
        obtain rfl := Fault.rejected.inj (Except.error.inj rejected)
        exact hmem
    · -- what a pseudo-instruction stands for is rejected for an operand that was given
      obtain ⟨p, mnemonic, -, hemits⟩ | ⟨-, hself⟩ := hsource
      · have hempty := (hdescribes.wellSpelled
          (List.mem_of_getElem? hentry)).tokenized_reread.empty_not_mem
        exact (hemits.mayRaise hempty rejected).construct_mem
      · rw [hself] at rejected
        exact Instruction.construct_mem_of_encode rejected hkind

/-! ## The result -/

/-- **When an error of an operand points at the operand.**  Take any source that is assembled
without running out of room, and any rejection because of an operand.  There is a diagnostic of it,
and the source line has operands with the text that it names.  The range of the diagnostic has that
text, in the first token of the line that does.  So it is the range of such an operand just if that
token is one: the mnemonic does not have the text, and neither does a longer operand in front. -/
theorem operand_error_points_at_operand_iff (o : Options) (source : String) (a : Assembly)
    (h : assemble o source = some a) (number : Nat) (e : Error) (hrejects : a.Rejects o number e)
    (hkind : e.kind ∈ Error.Kind.ofOperands) :
    ∃ cs d first, (Text.splitLines source.toList)[number]? = some cs ∧ d ∈ a.diagnostics ∧
      d = .ofError e ((Line.read cs).errorRange number e) ∧
      (∃ t ∈ (Line.read cs).operands, t.text = e.construct) ∧
      Text.IsFirstWith e.construct.toList (Line.read cs).tokens first ∧
      (∃ offset, Text.HasAt first.text.toList offset e.construct.toList ∧
        d.range = Range.onLine number (first.start + offset)
          (first.start + offset + e.construct.utf8ByteSize)) ∧
      ((∃ t ∈ (Line.read cs).operands, t.text = e.construct ∧
          d.range = Range.onLine number t.start t.stop) ↔
        first ∈ (Line.read cs).operands ∧ first.text = e.construct) := by
  obtain ⟨cs, j, hcs, hj, hmem, hnames⟩ := hrejects.exists_line h
  have hoperand : e.construct ∈ (Line.read cs).operands.map Text.Token.text := by
    rw [Line.map_text_operands hj]
    exact hnames hkind
  obtain ⟨t, ht, htext⟩ := List.mem_map.mp hoperand
  obtain ⟨first, offset, hfirst, hat, hrange⟩ :=
    Line.errorRange_of_token (List.mem_of_mem_tail ht) htext number
  refine ⟨cs, _, first, hcs, hmem, rfl, ⟨t, ht, htext⟩, hfirst, ⟨offset, hat, hrange⟩, ?_⟩
  rw [← Line.points_at_operand_iff hfirst.mem hat number, ← hrange]
  rfl

/-- A literal with a text that nothing else on its line has, and one with a text that the operand in
front of it has. -/
theorem operand_error_points_at_operand_iff_of_literals :
    ∃ a, assemble {} "li $t0, t1\nli $t0, t" = some a ∧
      (∃ e, a.Rejects {} 0 e ∧ e.construct = "t1" ∧ ∃ d ∈ a.diagnostics,
        d = .ofError e ((Line.read "li $t0, t1".toList).errorRange 0 e) ∧
        ∃ t ∈ (Line.read "li $t0, t1".toList).operands, t.text = "t1" ∧
          d.range = Range.onLine 0 t.start t.stop) ∧
      ∃ e, a.Rejects {} 1 e ∧ e.construct = "t" ∧ ∃ d ∈ a.diagnostics,
        d = .ofError e ((Line.read "li $t0, t".toList).errorRange 1 e) ∧
        ¬∃ t ∈ (Line.read "li $t0, t".toList).operands, t.text = "t" ∧
          d.range = Range.onLine 1 t.start t.stop := by
  have hrun : (assemble {} "li $t0, t1\nli $t0, t").map (fun a ↦ (a.source, a.scan.lines)) =
      some (#["li $t0, t1".toList, "li $t0, t".toList], 2) := by
    decide +kernel
  have hsplit : Text.splitLines "li $t0, t1\nli $t0, t".toList =
      ["li $t0, t1".toList, "li $t0, t".toList] := by
    decide
  have halone : (Line.read "li $t0, t1".toList).tokens = [⟨"li", 0⟩, ⟨"$t0", 3⟩, ⟨"t1", 8⟩] := by
    decide +kernel
  have hbehind : (Line.read "li $t0, t".toList).tokens = [⟨"li", 0⟩, ⟨"$t0", 3⟩, ⟨"t", 8⟩] := by
    decide +kernel
  obtain ⟨a, ha, hresult⟩ := Option.map_eq_some_iff.mp hrun
  obtain ⟨hsource, hlines⟩ := Prod.mk.inj hresult
  have hfirst : a.Rejects {} 0 ⟨.unparseable, "li", "t1"⟩ := by
    refine .expansion (i := ⟨"li", ["$t0", "t1"]⟩) (by omega) (by rw [hsource]; rfl) ?_ ?_
    all_goals decide +kernel
  have hsecond : a.Rejects {} 1 ⟨.unparseable, "li", "t"⟩ := by
    refine .expansion (i := ⟨"li", ["$t0", "t"]⟩) (by omega) (by rw [hsource]; rfl) ?_ ?_
    all_goals decide +kernel
  refine ⟨a, ha, ⟨_, hfirst, rfl, ?_⟩, _, hsecond, rfl, ?_⟩
  · obtain ⟨cs, d, t, hcs, hd, hofError, -, ht, -, hiff⟩ :=
      operand_error_points_at_operand_iff {} _ a ha 0 _ hfirst (by decide)
    rw [hsplit] at hcs
    obtain rfl := Option.some.inj hcs
    rw [halone] at ht
    obtain rfl : t = ⟨"t1", 8⟩ :=
      ht.unique (.later (by decide) (.later (by decide) (.here (by decide))))
    refine ⟨d, hd, hofError, hiff.mpr ?_⟩
    rw [Line.operands, halone]
    decide
  · obtain ⟨cs, d, t, hcs, hd, hofError, -, ht, -, hiff⟩ :=
      operand_error_points_at_operand_iff {} _ a ha 1 _ hsecond (by decide)
    rw [hsplit] at hcs
    obtain rfl := Option.some.inj hcs
    rw [hbehind] at ht
    obtain rfl : t = ⟨"$t0", 3⟩ := ht.unique (.later (by decide) (.here (by decide)))
    exact ⟨d, hd, hofError, fun hpoints ↦ absurd (hiff.mp hpoints).2 (by decide)⟩

/-- The operand `u` is no register, and the range of that error is the last letter of `addu`. -/
theorem operand_error_points_into_mnemonic :
    ∃ a d, assemble {} "addu u $t0 $t1" = some a ∧
      a.Rejects {} 0 ⟨.invalidRegister, "addu", "u"⟩ ∧ a.diagnostics = #[d] ∧
      d.range = Range.onLine 0 3 4 ∧
      (Line.read "addu u $t0 $t1".toList).tokens =
        [⟨"addu", 0⟩, ⟨"u", 5⟩, ⟨"$t0", 7⟩, ⟨"$t1", 11⟩] := by
  have hrun : (assemble {} "addu u $t0 $t1").map (fun a ↦
      (a.listing, a.scan.origins, a.image.read, a.diagnostics)) =
      some ("addu u $t0 $t1\n", #[0], 1, #[.ofError ⟨.invalidRegister, "addu", "u"⟩
        (Range.onLine 0 3 4)]) := by
    decide +kernel
  obtain ⟨a, ha, hresult⟩ := Option.map_eq_some_iff.mp hrun
  simp only [Prod.mk.injEq] at hresult
  obtain ⟨hlisting, horigins, hread, hdiagnostics⟩ := hresult
  have hi : a.instructionAt? 0 = some ⟨"addu", ["u", "$t0", "$t1"]⟩ := by
    rw [Assembly.instructionAt?, hlisting]
    decide +kernel
  have hcs : a.source[0]? = some "addu u $t0 $t1".toList := by
    rw [(assemble_describes ha).getElem?_source]
    decide
  have houtcome : Image.outcome {} a.labels 0 ⟨"addu", ["u", "$t0", "$t1"]⟩ =
      .error (.rejected ⟨.invalidRegister, "addu", "u"⟩) :=
    rfl
  refine ⟨a, _, ha, ?_, hdiagnostics, rfl, by decide +kernel⟩
  obtain ⟨w, -, hword⟩ | ⟨e, he, hrejects, -⟩ :=
    Assembly.encodes_or_rejects ha (by omega) (by rw [horigins]; rfl) hcs hi
  · rw [houtcome] at hword
    cases hword
  · obtain rfl := Fault.rejected.inj (Except.error.inj (houtcome.symm.trans he))
    exact hrejects

end MipsAsm
