import Mathlib.Data.List.TakeWhile
import Mathlib.Data.Nat.Digits.Defs
import MipsAsm.Proofs.Text.Digits

/-!
# The grammar of integer literals

The reader of literals goes from left to right and stops at the first thing that is wrong.  What it
accepts, and what it says of a text that it rejects, can be put without the reader: a text has an
optional sign, an optional mark of base sixteen and digits, of which the longest part that has only
digits of the base stands for a number.

The grammar is written as a set of rules with premises, one for each way in which a part can look,
and not as a function.  A function would have to look for the parts in the order in which the reader
does, and the two would agree in their mistakes.  That the rules divide every text in exactly one
way has to be shown then, and is.

Which of two faults is reported is part of the result.  The reader finds a number too large as soon
as it is, also if a character that is no digit follows, and it does not find it if such a character
comes first.  So what counts is the longest part that has only digits.

* `HasSign`, `HasBase`, `MakesUp` — how a text is divided, as a grammar.  Every text is divided in
  one way (`makesUp_iff`).
* `digitOf`, `isDigit`, `number` — the digits of a base and the number that they stand for.
* `readDigits_eq` — reading digits, as a fact about the longest part that has only digits.
* `Denotes` — the text is a literal with the given value; `parse_eq_ok_iff` says when it is accepted
  and `denotes_decimal` that numbers written in base ten are literals.
* `literals_are_read_exactly` — the result.
-/

set_option autoImplicit false

namespace MipsAsm
namespace Literal

/-! ## The grammar

The grammar has one rule for each way in which a text can begin.  That a mark of base sixteen counts
only if something follows it is a premise of a rule, and so is that a text without a sign does not
begin with one, so no text is divided in two ways. -/

/-- A text with an optional sign: whether there is a minus, and what follows the sign. -/
inductive HasSign : List Char → Bool → List Char → Prop where
  /-- A minus stands in front. -/
  | minus (rest : List Char) : HasSign ('-' :: rest) true rest
  /-- A plus stands in front. -/
  | plus (rest : List Char) : HasSign ('+' :: rest) false rest
  /-- There is no sign. -/
  | none {cs : List Char} (hminus : cs.head? ≠ some '-') (hplus : cs.head? ≠ some '+') :
    HasSign cs false cs

/-- A text with an optional mark of base sixteen: the base, and the digits after the mark.  There
has to be something after the mark. -/
inductive HasBase : List Char → Nat → List Char → Prop where
  /-- The mark stands in front. -/
  | sixteen {mark : Char} (hmark : mark = 'x' ∨ mark = 'X') {digits : List Char}
    (hdigits : digits ≠ []) : HasBase ('0' :: mark :: digits) 16 digits
  /-- There is no mark. -/
  | ten {digits : List Char}
    (hmark : ∀ mark rest, mark = 'x' ∨ mark = 'X' → rest ≠ [] → digits ≠ '0' :: mark :: rest) :
    HasBase digits 10 digits

/-- The text is made up of the parts of the literal. -/
def MakesUp (l : Literal) (s : String) : Prop :=
  ∃ unsigned, HasSign s.toList l.negative unsigned ∧ HasBase unsigned l.base l.digits

/-- The value of a character as a digit, which is its place among the digits of base sixteen.  A
letter may be of either case. -/
def digitOf (c : Char) : Nat := Text.lowerHexDigits.idxOf c.toLower

/-- Whether a character is a digit of the base. -/
def isDigit (base : Nat) (c : Char) : Bool := digitOf c < base

/-- The number that digits stand for, the most significant one first. -/
def number (base : Nat) (cs : List Char) : Nat := Nat.ofDigits base (cs.map digitOf).reverse

/-- A number with the sign of the literal. -/
def signed (l : Literal) (n : Nat) : Int := if l.negative then -(n : Int) else n

/-- The text is an integer literal with the value `v`. -/
def Denotes (s : String) (v : Int) : Prop :=
  ∃ l : Literal, l.MakesUp s ∧ l.digits ≠ [] ∧ (∀ c ∈ l.digits, isDigit l.base c = true) ∧
    v = l.signed (number l.base l.digits)

/-! ## Dividing a text

The functions that divide a text follow the rules, so that the grammar and the functions say the
same.  From here on a text is divided by the functions, and statements use the grammar. -/

theorem hasSign_iff {cs rest : List Char} {negative : Bool} :
    HasSign cs negative rest ↔ splitSign cs = (negative, rest) := by
  constructor
  · intro h
    cases h with
    | minus => rfl
    | plus => rfl
    | none hminus hplus =>
      rw [splitSign.eq_def]
      split
      · exact absurd rfl hminus
      · exact absurd rfl hplus
      · rfl
  · intro h
    rw [splitSign.eq_def] at h
    split at h
    · obtain ⟨rfl, rfl⟩ := Prod.mk.inj h
      exact .minus _
    · obtain ⟨rfl, rfl⟩ := Prod.mk.inj h
      exact .plus _
    · rename_i hminus hplus
      obtain ⟨rfl, rfl⟩ := Prod.mk.inj h
      refine .none ?_ ?_
      · intro hhead
        obtain ⟨rest, rfl⟩ := List.head?_eq_some_iff.mp hhead
        exact hminus rest rfl
      · intro hhead
        obtain ⟨rest, rfl⟩ := List.head?_eq_some_iff.mp hhead
        exact hplus rest rfl

theorem hasBase_iff {cs digits : List Char} {base : Nat} :
    HasBase cs base digits ↔ splitBase cs = (base, digits) := by
  constructor
  · intro h
    cases h with
    | sixteen hmark hdigits =>
      obtain ⟨c, rest, rfl⟩ := List.exists_cons_of_ne_nil hdigits
      rw [splitBase, if_pos hmark]
    | ten hnone =>
      rw [splitBase.eq_def]
      split
      · rename_i mark c rest
        rw [if_neg]
        intro hmark
        exact hnone mark (c :: rest) hmark (List.cons_ne_nil c rest) rfl
      · rfl
  · intro h
    rw [splitBase.eq_def] at h
    split at h
    · rename_i mark c rest
      split at h
      · rename_i hmark
        obtain ⟨rfl, rfl⟩ := Prod.mk.inj h
        exact .sixteen hmark (List.cons_ne_nil c rest)
      · rename_i hmark
        obtain ⟨rfl, rfl⟩ := Prod.mk.inj h
        refine .ten ?_
        intro mark' rest' hmark' _ heq
        obtain ⟨-, rfl, -⟩ : '0' = '0' ∧ mark = mark' ∧ c :: rest = rest' := by simpa using heq
        exact hmark hmark'
    · rename_i hshort
      obtain ⟨rfl, rfl⟩ := Prod.mk.inj h
      refine .ten ?_
      intro mark rest _ hrest heq
      obtain ⟨c, rest', rfl⟩ := List.exists_cons_of_ne_nil hrest
      exact hshort mark c rest' heq

/-- **Every text is divided in one way.** -/
theorem makesUp_iff {l : Literal} {s : String} : l.MakesUp s ↔ ofChars s.toList = l := by
  simp only [MakesUp, hasSign_iff, hasBase_iff, ofChars]
  constructor
  · rintro ⟨unsigned, hsign, hbase⟩
    rw [hsign, hbase]
  · rintro rfl
    exact ⟨_, rfl, rfl⟩

/-- The base is ten or sixteen. -/
theorem MakesUp.base {l : Literal} {s : String} (h : l.MakesUp s) : 0 < l.base ∧ l.base ≤ 16 := by
  obtain ⟨unsigned, -, hbase⟩ := h
  generalize l.base = base, l.digits = digits at hbase
  cases hbase with
  | sixteen => decide
  | ten => decide

/-! ## Digits

Digits are read with the value of what came before as an accumulator, and are too many if that
reaches 2 ^ 64. `Literal.number` is the value without an accumulator, from the library, and
`readDigits_eq` brings the two together.  A value that is too large stays so whatever follows, which
is why a text that is too long is out of range even if it ends in something that is no digit. -/

theorem hexDigit?_eq (c : Char) :
    Text.hexDigit? c = if digitOf c < 16 then some (digitOf c) else none := by
  have hascii : ∀ n < 128, Text.hexDigit? (Char.ofNat n) =
      if digitOf (Char.ofNat n) < 16 then some (digitOf (Char.ofNat n)) else none := by
    decide +kernel
  by_cases hc : c.toNat < 128
  · have h := hascii c.toNat hc
    rwa [Char.ofNat_toNat] at h
  · -- no character past the first 128 is a digit or a letter
    have hbeyond : ∀ d : Char, d.toNat < 128 → ¬c ≤ d := by
      intro d hd hle
      exact hc (Nat.lt_of_le_of_lt hle hd)
    have hdigits : Text.lowerHexDigits.all (·.toNat < 128) = true := by decide
    have hlower : c.toLower = c := dif_neg fun hupper ↦ hbeyond 'Z' (by decide) hupper.2
    have hnone : digitOf c = 16 := by
      rw [digitOf, hlower, List.idxOf_eq_length fun hmem ↦
        hc (of_decide_eq_true (List.all_eq_true.mp hdigits c hmem))]
      rfl
    rw [hnone, Text.hexDigit?, if_neg, if_neg, if_neg, if_neg (by decide)]
    · exact fun h ↦ hbeyond 'F' (by decide) h.2
    · exact fun h ↦ hbeyond 'f' (by decide) h.2
    · exact fun h ↦ hbeyond '9' (by decide) h.2

theorem digitValue?_eq {base : Nat} (hbase : base ≤ 16) (c : Char) :
    digitValue? base c = if isDigit base c then some (digitOf c) else none := by
  rw [digitValue?, hexDigit?_eq, isDigit]
  by_cases hdigit : digitOf c < base
  · simp [hdigit, Nat.lt_of_lt_of_le hdigit hbase]
  · by_cases hsixteen : digitOf c < 16 <;> simp [hdigit, hsixteen, Nat.not_lt.mp hdigit]

@[simp]
theorem number_nil (base : Nat) : number base [] = 0 := rfl

theorem number_cons (base : Nat) (c : Char) (cs : List Char) :
    number base (c :: cs) = digitOf c * base ^ cs.length + number base cs := by
  rw [number, List.map_cons, Nat.ofDigits_reverse_cons, List.length_map, Nat.add_comm, Nat.mul_comm]
  rfl

theorem number_concat (base : Nat) (cs : List Char) (c : Char) :
    number base (cs ++ [c]) = digitOf c + base * number base cs := by
  rw [number, List.map_append, List.reverse_append, List.map_singleton, List.reverse_singleton,
    List.singleton_append, Nat.ofDigits_cons]
  rfl

/-- A digit after a part whose value is `acc` is part of the value for those that follow. -/
theorem mul_pow_add_number_cons (base acc : Nat) (c : Char) (cs : List Char) :
    acc * base ^ (c :: cs).length + number base (c :: cs) =
      (acc * base + digitOf c) * base ^ cs.length + number base cs := by
  rw [number_cons, List.length_cons, Nat.pow_succ, Nat.add_mul, Nat.mul_comm (base ^ _) base,
    Nat.mul_assoc, Nat.add_assoc]

/-- **Reading digits.**  With `acc` as the value of what was read before, the longest part that has
only digits stands for a number.  If that is too large, this is what is wrong, whatever follows;
otherwise there may be a character that is no digit. -/
theorem readDigits_eq {base : Nat} (hbase : 0 < base ∧ base ≤ 16) {acc : Nat} (hacc : acc < 2 ^ 64)
    (cs : List Char) :
    let digits := cs.takeWhile (isDigit base)
    let n := acc * base ^ digits.length + number base digits
    readDigits base acc cs =
      if 2 ^ 64 ≤ n then .error .numberOutOfRange
      else if digits = cs then .ok n else .error .unparseable := by
  induction cs generalizing acc with
  | nil =>
    intro digits n
    have hn : n = acc := by simp [n, digits]
    rw [readDigits, hn, if_neg (Nat.not_le.mpr hacc), if_pos (by rfl)]
  | cons c cs ih =>
    intro digits n
    rw [readDigits, digitValue?_eq hbase.2]
    by_cases hc : isDigit base c = true
    · have hdigits : digits = c :: cs.takeWhile (isDigit base) := List.takeWhile_cons_of_pos hc
      have hn : n = (acc * base + digitOf c) * base ^ (cs.takeWhile (isDigit base)).length +
          number base (cs.takeWhile (isDigit base)) := by
        rw [← mul_pow_add_number_cons, ← hdigits]
      rw [if_pos hc]
      by_cases hlt : acc * base + digitOf c < 0x10000000000000000
      · simp only [hlt, if_true, ih hlt, ← hn, hdigits, List.cons.injEq, true_and]
      · -- digits that follow only make the number larger
        have hlarge : 2 ^ 64 ≤ n := by
          have hpow : 1 ≤ base ^ (cs.takeWhile (isDigit base)).length := Nat.pow_pos hbase.1
          have hmul := Nat.mul_le_mul_left (acc * base + digitOf c) hpow
          omega
        simp only [hlt, if_false, hlarge, if_true]
    · have hdigits : digits = [] := List.takeWhile_cons_of_neg hc
      have hn : n = acc := by simp [n, hdigits]
      rw [if_neg hc, hn, if_neg (Nat.not_le.mpr hacc), hdigits, if_neg (by simp)]

/-! ## Values

The sign is put in front of a number below 2 ^ 64, and then the value is compared with the bounds.
Bounds of less than 2 ^ 64 refuse whatever was refused before for its size, so a literal is accepted
just if its value is within the bounds. -/

/-- The value of a literal, as a fact about the longest part of its digits that has only digits. -/
theorem value_eq {l : Literal} (hbase : 0 < l.base ∧ l.base ≤ 16) :
    let digits := l.digits.takeWhile (isDigit l.base)
    let n := number l.base digits
    l.value =
      if 2 ^ 64 ≤ n then .error .numberOutOfRange
      else if l.digits ≠ [] ∧ digits = l.digits then .ok (l.signed n) else .error .unparseable := by
  intro digits n
  rw [value, magnitude]
  by_cases hempty : l.digits = []
  · have hn : n = 0 := by simp [n, digits, hempty]
    rw [if_pos hempty, hn, if_neg (by decide),
      if_neg (not_and_of_not_left _ (not_not_intro hempty))]
    rfl
  · have hread := readDigits_eq hbase (show 0 < 2 ^ 64 by decide) l.digits
    simp only [Nat.zero_mul, Nat.zero_add] at hread
    rw [if_neg hempty, hread]
    by_cases hlarge : 2 ^ 64 ≤ n
    · rw [if_pos hlarge, if_pos hlarge]
      rfl
    · rw [if_neg hlarge, if_neg hlarge]
      by_cases hall : digits = l.digits
      · rw [if_pos hall, if_pos ⟨hempty, hall⟩]
        rfl
      · rw [if_neg hall, if_neg (not_and_of_not_right _ hall)]
        rfl

theorem signed_natAbs (l : Literal) (n : Nat) : (l.signed n).natAbs = n := by
  rw [signed]
  split
  · rw [Int.natAbs_neg, Int.natAbs_natCast]
  · rw [Int.natAbs_natCast]

/-- What is read from a text that is made up of the parts of a literal, within bounds of less than
2 ^ 64. -/
theorem parse_eq {l : Literal} {s : String} (h : l.MakesUp s) {lower upper : Int}
    (hlower : -2 ^ 64 < lower) (hupper : upper < 2 ^ 64) :
    let digits := l.digits.takeWhile (isDigit l.base)
    let n := number l.base digits
    parse s lower upper =
      if l.digits ≠ [] ∧ digits = l.digits then
        if lower ≤ l.signed n ∧ l.signed n ≤ upper then .ok (l.signed n)
        else .error { kind := .numberOutOfRange, mnemonic := "", construct := s }
      else
        .error
          { kind := if 2 ^ 64 ≤ n then .numberOutOfRange else .unparseable
            mnemonic := "", construct := s } := by
  intro digits n
  have hvalue : l.value = _ := value_eq h.base
  rw [parse, makesUp_iff.mp h, hvalue]
  by_cases hlarge : 2 ^ 64 ≤ n
  · -- a number that is too large to be read is out of bounds as well
    have hout : ¬(lower ≤ l.signed n ∧ l.signed n ≤ upper) := by
      have habs := l.signed_natAbs n
      omega
    rw [if_pos hlarge, if_neg hout, if_pos hlarge, ite_self]
  · rw [if_neg hlarge, if_neg hlarge]
    by_cases hliteral : l.digits ≠ [] ∧ digits = l.digits
    · rw [if_pos hliteral, if_pos hliteral]
    · rw [if_neg hliteral, if_neg hliteral]

/-- **What is accepted**: literals whose values are within the bounds. -/
theorem parse_eq_ok_iff {s : String} {lower upper v : Int} (hlower : -2 ^ 64 < lower)
    (hupper : upper < 2 ^ 64) :
    parse s lower upper = .ok v ↔ Denotes s v ∧ lower ≤ v ∧ v ≤ upper := by
  have hparts : (ofChars s.toList).MakesUp s := makesUp_iff.mpr rfl
  have hparse : parse s lower upper = _ := parse_eq hparts hlower hupper
  have hdigits : (ofChars s.toList).digits.takeWhile (isDigit (ofChars s.toList).base) =
      (ofChars s.toList).digits ↔ ∀ c ∈ (ofChars s.toList).digits,
        isDigit (ofChars s.toList).base c = true := List.takeWhile_eq_self_iff
  constructor
  · intro h
    rw [hparse] at h
    split at h
    · rename_i hliteral
      split at h
      · rename_i hbounds
        obtain rfl := Except.ok.inj h
        refine ⟨⟨_, hparts, hliteral.1, hdigits.mp hliteral.2, ?_⟩, hbounds⟩
        rw [hliteral.2]
      · cases h
    · cases h
  · rintro ⟨⟨l, hl, hne, hall, rfl⟩, hbounds⟩
    obtain rfl := makesUp_iff.mp hl
    rw [hparse, if_pos ⟨hne, hdigits.mpr hall⟩, hdigits.mpr hall, if_pos hbounds]

/-- A text is a literal with at most one value. -/
theorem Denotes.unique {s : String} {v w : Int} (hv : Denotes s v) (hw : Denotes s w) : v = w := by
  obtain ⟨l, hl, -, -, rfl⟩ := hv
  obtain ⟨l', hl', -, -, rfl⟩ := hw
  rw [← makesUp_iff.mp hl, makesUp_iff.mp hl']

/-! ## Numbers in base ten

What the assembler writes as an operand of its own is a number in base ten, and it has to be read
back by the second pass. -/

theorem digitOf_digitChar {d : Nat} (hd : d < 16) : digitOf (Nat.digitChar d) = d := by
  have hall : ∀ d < 16, digitOf (Nat.digitChar d) = d := by decide
  exact hall d hd

/-- The digits in which a number is written in base ten, in the order of their values. -/
theorem exists_digitChar_of_mem_toDigits {n : Nat} {c : Char} (hc : c ∈ Nat.toDigits 10 n) :
    ∃ d < 10, c = Nat.digitChar d := by
  induction n using Nat.strongRecOn with
  | ind n ih =>
    by_cases hn : n < 10
    · rw [Nat.toDigits_of_lt_base hn] at hc
      exact ⟨n, hn, List.mem_singleton.mp hc⟩
    · rw [Nat.toDigits_of_base_le (by decide) (Nat.not_lt.mp hn)] at hc
      rcases List.mem_append.mp hc with hc | hc
      · exact ih (n / 10) (by omega) hc
      · exact ⟨n % 10, Nat.mod_lt n (by decide), List.mem_singleton.mp hc⟩

theorem number_toDigits (n : Nat) : number 10 (Nat.toDigits 10 n) = n := by
  induction n using Nat.strongRecOn with
  | ind n ih =>
    by_cases hn : n < 10
    · rw [Nat.toDigits_of_lt_base hn, ← List.nil_append [_], number_concat, number_nil,
        digitOf_digitChar (by omega)]
      omega
    · rw [Nat.toDigits_of_base_le (by decide) (Nat.not_lt.mp hn), number_concat,
        ih (n / 10) (by omega), digitOf_digitChar (by omega)]
      omega

/-- **A number written in base ten is a literal.** -/
theorem denotes_decimal (n : Nat) : Denotes (Text.decimal n) n := by
  have hchar : ∀ d < 10, isDigit 10 (Nat.digitChar d) = true ∧
      Nat.digitChar d ∉ ['-', '+', 'x', 'X'] := by
    decide
  -- no sign and no mark of a base is a digit
  have hother : ∀ c ∈ ['-', '+', 'x', 'X'], c ∉ Nat.toDigits 10 n := by
    intro c hc hmem
    obtain ⟨d, hd, rfl⟩ := exists_digitChar_of_mem_toDigits hmem
    exact (hchar d hd).2 hc
  have hlist : (Text.decimal n).toList = Nat.toDigits 10 n := String.toList_ofList
  refine ⟨⟨false, 10, Nat.toDigits 10 n⟩, ⟨Nat.toDigits 10 n, ?_, ?_⟩, Nat.toDigits_ne_nil, ?_, ?_⟩
  · rw [hlist]
    refine .none ?_ ?_
    · exact fun hhead ↦ hother '-' (by decide) (List.mem_of_mem_head? hhead)
    · exact fun hhead ↦ hother '+' (by decide) (List.mem_of_mem_head? hhead)
  · refine .ten ?_
    intro mark rest hmark _ heq
    have hmem : mark ∈ Nat.toDigits 10 n := by simp [heq]
    rcases hmark with rfl | rfl
    · exact hother 'x' (by decide) hmem
    · exact hother 'X' (by decide) hmem
  · intro c hc
    obtain ⟨d, hd, rfl⟩ := exists_digitChar_of_mem_toDigits hc
    exact (hchar d hd).1
  · show (n : Int) = (number 10 (Nat.toDigits 10 n) : Nat)
    rw [number_toDigits]

/-- A number of sixteen bits is read back as it was written. -/
theorem parse_decimal {n : Nat} (hn : n ≤ 65535) : parse (Text.decimal n) 0 65535 = .ok n :=
  (parse_eq_ok_iff (by decide) (by decide)).mpr ⟨denotes_decimal n, by omega, by omega⟩

/-- A literal that was read within some bounds is read within others, unless it lies outside. -/
theorem parse_of_parse {s : String} {lower upper v : Int} (h : parse s lower upper = .ok v)
    (lower' upper' : Int) :
    parse s lower' upper' =
      if lower' ≤ v ∧ v ≤ upper' then .ok v
      else .error { kind := .numberOutOfRange, mnemonic := "", construct := s } := by
  rw [parse] at h
  split at h
  · cases h
  · rename_i w hvalue
    split at h
    · obtain rfl := Except.ok.inj h
      rw [parse, hvalue]
    · cases h

/-! ## The result -/

/-- **Literals are read exactly.**  Every text is divided in one way into a sign, the mark of a base
and digits; take the longest part of the digits that has only digits of the base, and the number
that it stands for.

* If there are digits and that part is all of them, the text is a literal.  Its value is returned if
  it is within the bounds, and out of range otherwise.
* If not, the text is out of range if the number has more than 64 bits, and cannot be read
  otherwise. -/
theorem literals_are_read_exactly (s : String) (lower upper : Int64) :
    ∃ l : Literal, l.MakesUp s ∧ (∀ l' : Literal, l'.MakesUp s → l' = l) ∧
      let digits := l.digits.takeWhile (isDigit l.base)
      let n := number l.base digits
      let v := l.signed n
      let outcome := parse s lower.toInt upper.toInt
      (l.digits ≠ [] → digits = l.digits → lower.toInt ≤ v → v ≤ upper.toInt → outcome = .ok v) ∧
      (l.digits ≠ [] → digits = l.digits → v < lower.toInt ∨ upper.toInt < v →
        outcome = .error { kind := .numberOutOfRange, mnemonic := "", construct := s }) ∧
      (l.digits = [] ∨ digits ≠ l.digits → 2 ^ 64 ≤ n →
        outcome = .error { kind := .numberOutOfRange, mnemonic := "", construct := s }) ∧
      (l.digits = [] ∨ digits ≠ l.digits → n < 2 ^ 64 →
        outcome = .error { kind := .unparseable, mnemonic := "", construct := s }) := by
  have hparts : (ofChars s.toList).MakesUp s := makesUp_iff.mpr rfl
  refine ⟨ofChars s.toList, hparts, fun l' hl' ↦ (makesUp_iff.mp hl').symm, ?_⟩
  intro digits n v outcome
  have hlower := lower.le_toInt
  have hupper := upper.toInt_lt
  have houtcome : outcome = _ := parse_eq hparts (by omega) (by omega)
  refine ⟨?_, ?_, ?_, ?_⟩
  · intro hne hall hle hge
    rw [houtcome, if_pos ⟨hne, hall⟩, if_pos ⟨hle, hge⟩]
  · intro hne hall hout
    have hnot : ¬(lower.toInt ≤ v ∧ v ≤ upper.toInt) := by omega
    rw [houtcome, if_pos ⟨hne, hall⟩, if_neg hnot]
  · intro hno hlarge
    rw [houtcome, if_neg (by tauto), if_pos hlarge]
  · intro hno hsmall
    rw [houtcome, if_neg (by tauto), if_neg (Nat.not_le.mpr hsmall)]

/-- The least number of 64 bits, the first one that is too large for it, a character that is no
digit after as much as can be read and after more than that, and the mark of a base alone. -/
theorem literals_are_read_exactly_at_the_ends :
    let read := fun s ↦ parse s Int64.minValue.toInt Int64.maxValue.toInt
    read "-0x8000000000000000" = .ok (-0x8000000000000000) ∧
    read "+0X8000000000000000" = .error ⟨.numberOutOfRange, "", "+0X8000000000000000"⟩ ∧
    read "18446744073709551615z" = .error ⟨.unparseable, "", "18446744073709551615z"⟩ ∧
    read "18446744073709551616z" = .error ⟨.numberOutOfRange, "", "18446744073709551616z"⟩ ∧
    read "-0x" = .error ⟨.unparseable, "", "-0x"⟩ := by
  intro read
  refine ⟨?_, ?_, ?_, ?_, ?_⟩
  · obtain ⟨l, hl, -, hok, -, -, -⟩ :=
      literals_are_read_exactly "-0x8000000000000000" Int64.minValue Int64.maxValue
    obtain rfl := makesUp_iff.mp hl
    exact hok (by decide) (by decide) (by decide) (by decide)
  · obtain ⟨l, hl, -, -, hrange, -, -⟩ :=
      literals_are_read_exactly "+0X8000000000000000" Int64.minValue Int64.maxValue
    obtain rfl := makesUp_iff.mp hl
    exact hrange (by decide) (by decide) (by decide)
  · obtain ⟨l, hl, -, -, -, -, hno⟩ :=
      literals_are_read_exactly "18446744073709551615z" Int64.minValue Int64.maxValue
    obtain rfl := makesUp_iff.mp hl
    exact hno (by decide) (by decide)
  · obtain ⟨l, hl, -, -, -, hlarge, -⟩ :=
      literals_are_read_exactly "18446744073709551616z" Int64.minValue Int64.maxValue
    obtain rfl := makesUp_iff.mp hl
    exact hlarge (by decide) (by decide)
  · obtain ⟨l, hl, -, -, -, -, hno⟩ :=
      literals_are_read_exactly "-0x" Int64.minValue Int64.maxValue
    obtain rfl := makesUp_iff.mp hl
    exact hno (by decide) (by decide)

end Literal
end MipsAsm
