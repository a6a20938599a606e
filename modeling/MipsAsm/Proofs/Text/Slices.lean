import MipsAsm.Proofs.Text.Basic
import MipsAsm.Sink

/-!
# Places in a text

Diagnostics point at places of a line in bytes of its UTF-8 form, and the line is read as a list of
characters.  This file brings the two together: where a search, the trimming of margins and the
division into tokens say that a text stands, its bytes stand.

Everything is stated twice, and for a reason.  A fact about characters can be put together from
smaller ones: what stands in a part of a text stands in the text, further on.  A fact about bytes is
what a reader of a diagnostic needs, who has a line as bytes and two numbers.  The step between the
two is made once, in `HasAt.isSlice`.

* `HasAt` — a text has another one at a byte offset, as a fact about characters.
* `IsSlice` — the same as a fact about bytes: two offsets within the text, in order, and the bytes
  between them.  `HasAt.isSlice` leads from one to the other.
* `slice?`, `slice?_eq_some_iff` — a slice that is cut between two offsets, if the text has them.
* `find?_eq_none_iff`, `hasAt_of_find?`, `find?_singleton` — what a search finds.
* `hasAt_trim`, `hasAt_of_mem_tokens` — where a trimmed text and a token stand, and
  `exists_between_of_mem_tokens` what is on both sides of a token.
* `tokens_pairwise` — tokens stand one after the other.
* `find?_eq_findSome?_tokens` — a text without separators is found in the first token that has it.
-/

set_option autoImplicit false

namespace MipsAsm
namespace Text

/-! ## Bytes

Bytes are those of the UTF-8 form, and `Text.byteLength` counts them without writing them down. -/

/-- The bytes of a text. -/
def bytes (cs : List Char) : Array UInt8 := Sink.bytes (String.ofList cs)

theorem byteLength_eq (cs : List Char) : byteLength cs = (String.ofList cs).utf8ByteSize := by
  induction cs with
  | nil => rfl
  | cons c cs ih =>
    rw [byteLength_cons, ih, String.ofList_cons, String.utf8ByteSize_append]
    simp

theorem byteLength_toList (s : String) : byteLength s.toList = s.utf8ByteSize := by
  rw [byteLength_eq, String.ofList_toList]

@[simp]
theorem size_bytes (cs : List Char) : (bytes cs).size = byteLength cs :=
  (byteLength_eq cs).symm

theorem bytes_append (cs ds : List Char) : bytes (cs ++ ds) = bytes cs ++ bytes ds := by
  show (String.ofList (cs ++ ds)).toByteArray.data = _
  rw [String.ofList_append, String.toByteArray_append, ByteArray.data_append]
  rfl

theorem byteLength_eq_length {cs : List Char} (h : ∀ c ∈ cs, c.utf8Size = 1) :
    byteLength cs = cs.length := by
  induction cs with
  | nil => rfl
  | cons c cs ih =>
    rw [List.forall_mem_cons] at h
    rw [byteLength_cons, h.1, ih h.2, List.length_cons, Nat.add_comm]

theorem byteLength_pos {cs : List Char} (h : cs ≠ []) : 0 < byteLength cs := by
  obtain ⟨c, cs, rfl⟩ := List.exists_cons_of_ne_nil h
  have hc := c.utf8Size_pos
  rw [byteLength_cons]
  omega

theorem Token.stop_eq (t : Token) : t.stop = t.start + byteLength t.text.toList := by
  rw [byteLength_toList, Token.stop]

/-! ## Slices

`IsSlice` is what a diagnostic is understood by, and `HasAt` is what proofs are about, since it can
be put together from parts of the text. -/

/-- `part` is the slice of a text from byte `start` up to byte `stop`. -/
structure IsSlice (cs : List Char) (start stop : Nat) (part : List Char) : Prop where
  /-- The offsets are in order. -/
  le : start ≤ stop
  /-- They are offsets of the text. -/
  bound : stop ≤ byteLength cs
  /-- The bytes between them are those of the part. -/
  bytes : (bytes cs).extract start stop = Text.bytes part

/-- A text has `part` at the byte offset `position`. -/
def HasAt (cs : List Char) (position : Nat) (part : List Char) : Prop :=
  ∃ before after, cs = before ++ part ++ after ∧ position = byteLength before

variable {cs ds part : List Char} {position : Nat}

theorem HasAt.isSlice (h : HasAt cs position part) :
    IsSlice cs position (position + byteLength part) part := by
  obtain ⟨before, after, rfl, rfl⟩ := h
  refine ⟨Nat.le_add_right _ _, ?_, ?_⟩
  · rw [byteLength_append, byteLength_append]
    omega
  · rw [bytes_append, bytes_append, Array.append_assoc, ← size_bytes before,
      Array.extract_append_right, ← size_bytes part]
    simp

/-- What stands in a part of a text stands in the text. -/
theorem HasAt.trans {mid : List Char} {offset : Nat} (h : HasAt cs position mid)
    (hmid : HasAt mid offset part) : HasAt cs (position + offset) part := by
  obtain ⟨before, after, rfl, rfl⟩ := h
  obtain ⟨before', after', rfl, rfl⟩ := hmid
  exact ⟨before ++ before', after' ++ after, by simp, by rw [byteLength_append]⟩

/-! ## Checked slices

An offset within a character is no offset of the text, and a slice that starts or ends there does
not exist. -/

/-- Divide a text at a byte offset, if it is one of the text and within no character. -/
def splitAtByte? : Nat → List Char → Option (List Char × List Char)
  | 0, cs => some ([], cs)
  | _ + 1, [] => none
  | n + 1, c :: cs =>
    if c.utf8Size ≤ n + 1 then
      (splitAtByte? (n + 1 - c.utf8Size) cs).map fun e ↦ (c :: e.1, e.2)
    else none

/-- The slice of a text from one byte offset up to another. -/
def slice? (cs : List Char) (start stop : Nat) : Option (List Char) :=
  if start ≤ stop then
    (splitAtByte? start cs).bind fun e ↦ (splitAtByte? (stop - start) e.2).map Prod.fst
  else none

theorem splitAtByte?_eq_some_iff {n : Nat} {cs before after : List Char} :
    splitAtByte? n cs = some (before, after) ↔ cs = before ++ after ∧ n = byteLength before := by
  fun_induction splitAtByte? n cs generalizing before with
  | case1 cs =>
    rw [Option.some.injEq, Prod.mk.injEq]
    constructor
    · rintro ⟨rfl, rfl⟩
      exact ⟨rfl, rfl⟩
    · rintro ⟨rfl, hlength⟩
      have hnil : before = [] := by
        by_contra hne
        exact absurd hlength (Nat.ne_of_lt (byteLength_pos hne))
      rw [hnil]
      exact ⟨rfl, rfl⟩
  | case2 n =>
    constructor
    · intro hnone
      cases hnone
    · rintro ⟨hnil, hlength⟩
      obtain ⟨rfl, rfl⟩ := List.append_eq_nil_iff.mp hnil.symm
      cases hlength
  | case3 n c cs hfits ih =>
    simp only [Option.map_eq_some_iff, Prod.exists, Prod.mk.injEq]
    constructor
    · rintro ⟨before', after', hsplit, rfl, rfl⟩
      obtain ⟨rfl, hlength⟩ := ih.mp hsplit
      exact ⟨rfl, by rw [byteLength_cons]; omega⟩
    · rintro ⟨hsplit, hlength⟩
      cases before with
      | nil => cases hlength
      | cons d before =>
        obtain ⟨rfl, rfl⟩ := List.cons.inj hsplit
        rw [byteLength_cons] at hlength
        exact ⟨before, after, ih.mpr ⟨rfl, by omega⟩, rfl, rfl⟩
  | case4 n c cs hshort =>
    constructor
    · intro hnone
      cases hnone
    · rintro ⟨hsplit, hlength⟩
      cases before with
      | nil => cases hlength
      | cons d before =>
        obtain ⟨rfl, rfl⟩ := List.cons.inj hsplit
        rw [byteLength_cons] at hlength
        omega

/-- **A slice is what stands between its offsets.** -/
theorem slice?_eq_some_iff {cs part : List Char} {start stop : Nat} :
    slice? cs start stop = some part ↔ HasAt cs start part ∧ stop = start + byteLength part := by
  rw [slice?]
  split
  · rename_i hle
    simp only [Option.bind_eq_some_iff, Option.map_eq_some_iff, Prod.exists,
      splitAtByte?_eq_some_iff]
    constructor
    · rintro ⟨before, rest, ⟨rfl, rfl⟩, part, after, ⟨rfl, hlength⟩, rfl⟩
      exact ⟨⟨before, after, by simp, rfl⟩, by omega⟩
    · rintro ⟨⟨before, after, rfl, rfl⟩, rfl⟩
      exact ⟨before, part ++ after, ⟨by simp, rfl⟩, part, after, ⟨rfl, by omega⟩, rfl⟩
  · rename_i hgt
    constructor
    · intro hnone
      cases hnone
    · rintro ⟨-, rfl⟩
      exact absurd (Nat.le_add_right _ _) hgt

/-! ## Searching

A search goes from left to right and counts the bytes that it has passed. -/

theorem find?_cons (needle : List Char) (start : Nat) (c : Char) (cs : List Char) :
    find? needle start (c :: cs) =
      if needle.isPrefixOf (c :: cs) then some start
      else find? needle (start + c.utf8Size) cs := by
  rw [find?]

/-- A search finds nothing if there is nothing to be found. -/
theorem find?_eq_none_iff {needle : List Char} {start : Nat} :
    find? needle start cs = none ↔ ¬needle <:+: cs := by
  induction cs generalizing start with
  | nil =>
    rw [find?]
    cases needle <;> simp
  | cons c cs ih =>
    rw [find?_cons, List.infix_cons_iff, ← List.isPrefixOf_iff_prefix]
    split
    · rename_i hstarts
      simp [hstarts]
    · rename_i hstarts
      simp [hstarts, ih]

/-- What a search finds is there. -/
theorem hasAt_of_find? {needle : List Char} {start : Nat}
    (h : find? needle start cs = some position) :
    ∃ offset, position = start + offset ∧ HasAt cs offset needle := by
  induction cs generalizing start with
  | nil =>
    rw [find?] at h
    split at h
    · rename_i hstarts
      obtain rfl := Option.some.inj h
      obtain ⟨after, hafter⟩ := List.isPrefixOf_iff_prefix.mp hstarts
      exact ⟨0, rfl, [], after, hafter.symm, rfl⟩
    · cases h
  | cons c cs ih =>
    rw [find?_cons] at h
    split at h
    · rename_i hstarts
      obtain rfl := Option.some.inj h
      obtain ⟨after, hafter⟩ := List.isPrefixOf_iff_prefix.mp hstarts
      exact ⟨0, rfl, [], after, hafter.symm, rfl⟩
    · obtain ⟨offset, rfl, before, after, rfl, rfl⟩ := ih h
      exact ⟨byteLength (c :: before), by rw [byteLength_cons]; omega, c :: before, after, rfl, rfl⟩

/-- A search for one character finds the first. -/
theorem find?_singleton (c : Char) (start : Nat) (cs : List Char) :
    find? [c] start cs =
      if c ∈ cs then some (start + byteLength (cs.takeWhile (· != c))) else none := by
  induction cs generalizing start with
  | nil => rfl
  | cons d cs ih =>
    rw [find?_cons, ih]
    by_cases hc : c = d
    · subst hc
      simp [List.isPrefixOf]
    · simp [List.isPrefixOf, hc, Ne.symm hc, Nat.add_assoc]

/-! ## Trimming

The offset of a trimmed text is the number of bytes that were taken off its start. -/

/-- Where a trimmed text stands. -/
theorem hasAt_trim (p : Char → Bool) (cs : List Char) :
    HasAt cs (byteLength (cs.takeWhile p)) (trim p cs) :=
  ⟨cs.takeWhile p, _, eq_append_trim p cs, rfl⟩

/-! ## Tokens

The offset of a token is that of its first byte, where the text itself may start at any offset. -/

variable {p : Char → Bool} {start : Nat} {t : Token}

/-- On both sides of a token there is an end of the text or a separator. -/
theorem exists_between_of_mem_tokens (h : t ∈ tokens p start cs) :
    ∃ before after, cs = before ++ t.text.toList ++ after ∧
      t.start = start + byteLength before ∧ (∀ c ∈ before.getLast?, p c = true) ∧
      ∀ c ∈ after.head?, p c = true := by
  fun_induction tokens p start cs with
  | case1 => cases h
  | case2 start c rest hc ih =>
    obtain ⟨before, after, rfl, hstart, hbefore, hafter⟩ := ih h
    refine ⟨c :: before, after, rfl, by rw [hstart, byteLength_cons, Nat.add_assoc], ?_, hafter⟩
    cases before with
    | nil =>
      intro d hd
      rwa [← Option.some.inj hd]
    | cons d before => rwa [List.getLast?_cons_cons]
  | case3 start c rest hc run ih =>
    rw [cons_eq_run_append p]
    rcases List.mem_cons.mp h with rfl | h
    · exact ⟨[], _, by rw [String.toList_ofList]; rfl, rfl, by simp, fun d ↦ separator_of_mem_head?⟩
    · obtain ⟨before, after, hrest, hstart, hbefore, hafter⟩ := ih h
      refine ⟨run ++ before, after, by rw [hrest]; simp [run], ?_, ?_, hafter⟩
      · rw [hstart, byteLength_append, Nat.add_assoc]
      · -- a separator follows the run, so that the next token does not
        cases before with
        | nil =>
          obtain ⟨hne, hall⟩ := mem_words (text_mem_words h)
          obtain ⟨d, text, htext⟩ :=
            List.exists_cons_of_ne_nil (String.toList_eq_nil_iff.not.mpr hne)
          have hsep : p d = true := separator_of_mem_head? (by rw [hrest, htext]; rfl)
          rw [(hall d (htext ▸ List.mem_cons_self)).1] at hsep
          cases hsep
        | cons d before =>
          have hlast : (run ++ d :: before).getLast? = (d :: before).getLast? := by
            simp [List.getLast?_append, List.getLast?_cons]
          rwa [hlast]

/-- Where a token stands. -/
theorem hasAt_of_mem_tokens (h : t ∈ tokens p start cs) :
    ∃ offset, t.start = start + offset ∧ HasAt cs offset t.text.toList := by
  obtain ⟨before, after, hcs, hstart, -, -⟩ := exists_between_of_mem_tokens h
  exact ⟨byteLength before, hstart, before, after, hcs, rfl⟩

/-- A token has at least one byte. -/
theorem start_lt_stop_of_mem_tokens (h : t ∈ tokens p start cs) : t.start < t.stop := by
  have hne : t.text.toList ≠ [] := by simpa using (mem_words (text_mem_words h)).1
  have hpos := byteLength_pos hne
  rw [t.stop_eq]
  omega

/-- **Tokens stand one after the other.** -/
theorem tokens_pairwise (p : Char → Bool) (start : Nat) (cs : List Char) :
    (tokens p start cs).Pairwise fun t u ↦ t.stop ≤ u.start := by
  fun_induction tokens p start cs with
  | case1 => exact .nil
  | case2 start c rest hc ih => exact ih
  | case3 start c rest hc run ih =>
    refine .cons (fun u hu ↦ ?_) ih
    rw [Token.stop_eq, String.toList_ofList]
    exact le_start_of_mem_tokens hu

/-! ## A search among tokens

Diagnostics are placed by searching a line for a text.  If it has no separators, it cannot reach
from one token into the next, so the search may be thought of as one through the tokens. -/

/-- A text without separators stands in front of a text only as far as this has none. -/
theorem isPrefixOf_append {needle : List Char} (hneedle : ∀ c ∈ needle, p c = false)
    (hds : ∀ c ∈ ds.head?, p c = true) :
    needle.isPrefixOf (cs ++ ds) = needle.isPrefixOf cs := by
  induction needle generalizing cs with
  | nil => simp
  | cons d needle ih =>
    cases cs with
    | nil =>
      cases ds with
      | nil => rfl
      | cons e ds =>
        have hne : d ≠ e := by
          rintro rfl
          have hsep := hds d rfl
          rw [hneedle d List.mem_cons_self] at hsep
          cases hsep
        simp [List.isPrefixOf, hne]
    | cons c cs =>
      simp only [List.cons_append, List.isPrefixOf]
      rw [ih fun e he ↦ hneedle e (List.mem_cons_of_mem _ he)]

/-- Where a separator or nothing follows, a text without separators is found before it or after
it. -/
theorem find?_append {needle : List Char} (hne : needle ≠ []) (hneedle : ∀ c ∈ needle, p c = false)
    (hds : ∀ c ∈ ds.head?, p c = true) (start : Nat) :
    find? needle start (cs ++ ds) =
      (find? needle start cs).or (find? needle (start + byteLength cs) ds) := by
  induction cs generalizing start with
  | nil =>
    have hnil : find? needle start [] = none := find?_eq_none_iff.mpr (by simpa using hne)
    rw [hnil, Option.none_or]
    rfl
  | cons c cs ih =>
    rw [List.cons_append, find?_cons, find?_cons, ← List.cons_append,
      isPrefixOf_append hneedle hds, ih, byteLength_cons, Nat.add_assoc]
    split <;> rfl

/-- **A text without separators is found in the first token that has it.** -/
theorem find?_eq_findSome?_tokens {needle : List Char} (hne : needle ≠ [])
    (hneedle : ∀ c ∈ needle, p c = false) (start : Nat) (cs : List Char) :
    find? needle start cs =
      (tokens p start cs).findSome? fun t ↦ find? needle t.start t.text.toList := by
  fun_induction tokens p start cs with
  | case1 => exact find?_eq_none_iff.mpr (by simpa using hne)
  | case2 start c rest hc ih =>
    obtain ⟨d, needle, rfl⟩ := List.exists_cons_of_ne_nil hne
    have hdc : d ≠ c := by
      rintro rfl
      rw [hneedle d List.mem_cons_self] at hc
      cases hc
    rw [← ih, find?_cons, if_neg (by simp [List.isPrefixOf, hdc])]
  | case3 start c rest hc run ih =>
    rw [cons_eq_run_append p, find?_append hne hneedle fun d ↦ separator_of_mem_head?, ih,
      List.findSome?_cons, String.toList_ofList]
    cases find? needle start run <;> rfl

end Text
end MipsAsm
