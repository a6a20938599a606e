import MipsAsm.Line
import MipsAsm.Proofs.Text.Slices

/-!
# Tokens as runs of bytes

A line is divided into tokens character by character, and everything else counts bytes: diagnostics,
what an editor shows, and the listing that is read again.  The two agree because every separator has
one byte, which is no byte of any other character.

Most of what is said about tokens elsewhere can do without bytes.  They come in because a position
is one in bytes, and because what a byte belongs to cannot be asked of a list of characters: a
character of three bytes has two positions inside it that are no positions of the list.  Whether a
token could start or end at one of these is settled here for all classes of separators that can be
told by bytes.

* `IsRun` — a maximal run of bytes that are no separators.  Two runs with a byte in common are the
  same (`IsRun.eq_of_mem`), so that a run is known by any of its bytes.
* `Bytewise` — a class of characters that is told by every byte; `Line.bytewise_isSeparator` says
  that the separators are one.
* `Bytewise.isRun` — what is a run among the characters is one among the bytes.
* `isRun_of_mem_tokens`, `exists_mem_tokens_of_byte` — tokens are runs, and no byte is left out.
* `mem_tokens_iff` — the tokens are all runs.
* `words_spaced` — words with separators between them are read back.
* `tokens_are_the_maximal_runs` — the result.
-/

set_option autoImplicit false

namespace MipsAsm

/-- The bytes that divide tokens: space, tab, carriage return, form feed, vertical tab, comma and
the two parentheses. -/
def Line.separatorBytes : List UInt8 := [0x20, 0x09, 0x0d, 0x0c, 0x0b, 0x2c, 0x28, 0x29]

/-- Whether a byte divides tokens. -/
def Line.isSeparatorByte (b : UInt8) : Bool := separatorBytes.contains b

/-- A class of characters without separators. -/
theorem Line.isSeparator_eq_false {q : Char → Bool} {c : Char}
    (hnone : [' ', '\t', '\r', '\x0c', '\x0b', ',', '(', ')'].all (!q ·) = true) (h : q c = true) :
    isSeparator c = false := by
  refine Bool.eq_false_iff.mpr fun hsep ↦ ?_
  have hmem : c ∈ [' ', '\t', '\r', '\x0c', '\x0b', ',', '(', ')'] := by
    simpa [isSeparator, or_assoc] using hsep
  have hnot := List.all_eq_true.mp hnone c hmem
  rw [h] at hnot
  cases hnot

theorem Sink.bytes_injective {s t : String} (h : Sink.bytes s = Sink.bytes t) : s = t :=
  String.toByteArray_inj.mp (ByteArray.ext h)

namespace Text

/-! ## Runs

A run is described by its two ends.  It is maximal, so that at each end there is either an end of
the text or a separator, and that decides where it ends if any of its bytes is known. -/

/-- The bytes from `first` up to `stop` are a maximal run of bytes that are no separators. -/
structure IsRun (isSeparator : UInt8 → Bool) (bs : Array UInt8) (first stop : Nat) : Prop where
  /-- There is at least one byte. -/
  lt : first < stop
  /-- They are bytes of the text. -/
  le : stop ≤ bs.size
  /-- None of them is a separator. -/
  inside : ∀ i b, first ≤ i → i < stop → bs[i]? = some b → isSeparator b = false
  /-- In front of them is the start of the text or a separator. -/
  before : first = 0 ∨ ∃ b, bs[first - 1]? = some b ∧ isSeparator b = true
  /-- After them is the end of the text or a separator. -/
  after : stop = bs.size ∨ ∃ b, bs[stop]? = some b ∧ isSeparator b = true

section

variable {q : UInt8 → Bool} {bs : Array UInt8} {first stop first' stop' i : Nat}

theorem IsRun.first_le (h : IsRun q bs first stop) (h' : IsRun q bs first' stop')
    (hstop : i < stop) (hfirst' : first' ≤ i) : first' ≤ first := by
  by_contra hlt
  obtain hzero | ⟨b, hb, hsep⟩ := h'.before
  · omega
  · rw [h.inside (first' - 1) b (by omega) (by omega) hb] at hsep
    cases hsep

theorem IsRun.stop_le (h : IsRun q bs first stop) (h' : IsRun q bs first' stop')
    (hstop : i < stop) (hfirst' : first' ≤ i) : stop' ≤ stop := by
  by_contra hlt
  obtain hsize | ⟨b, hb, hsep⟩ := h.after
  · have hle := h'.le
    omega
  · rw [h'.inside stop b (by omega) (by omega) hb] at hsep
    cases hsep

/-- **Runs with a byte in common are the same.** -/
theorem IsRun.eq_of_mem (h : IsRun q bs first stop) (h' : IsRun q bs first' stop')
    (hfirst : first ≤ i) (hstop : i < stop) (hfirst' : first' ≤ i) (hstop' : i < stop') :
    first = first' ∧ stop = stop' :=
  ⟨Nat.le_antisymm (h'.first_le h hstop' hfirst) (h.first_le h' hstop hfirst'),
    Nat.le_antisymm (h'.stop_le h hstop' hfirst) (h.stop_le h' hstop hfirst')⟩

end

/-! ## Bytes and characters

Whether what holds of characters holds of bytes is a question of the class alone.  In UTF-8 a
character beyond ASCII has only bytes from 128 on, so any class of ASCII characters is told by each
byte. -/

/-- Every byte of a character tells whether the character belongs to a class. -/
def Bytewise (p : Char → Bool) (q : UInt8 → Bool) : Prop :=
  ∀ c, ∀ b ∈ String.utf8EncodeChar c, q b = p c

/-- A character past the first 128 has none of their bytes. -/
theorem le_toNat_of_mem_utf8EncodeChar {c : Char} (hc : ¬c.toNat < 128) {b : UInt8}
    (hb : b ∈ String.utf8EncodeChar c) : 128 ≤ b.toNat := by
  have hc : ¬c.val.toNat ≤ 127 := by
    rw [Char.toNat_val]
    omega
  rw [String.utf8EncodeChar.eq_def] at hb
  simp only [hc, if_false] at hb
  split at hb
  · simp only [List.mem_cons, List.not_mem_nil, or_false] at hb
    rcases hb with rfl | rfl <;> rw [UInt8.toNat_ofNat'] <;> omega
  · split at hb
    · simp only [List.mem_cons, List.not_mem_nil, or_false] at hb
      rcases hb with rfl | rfl | rfl <;> rw [UInt8.toNat_ofNat'] <;> omega
    · simp only [List.mem_cons, List.not_mem_nil, or_false] at hb
      rcases hb with rfl | rfl | rfl | rfl <;> rw [UInt8.toNat_ofNat'] <;> omega

theorem byteLength_singleton (c : Char) : byteLength [c] = c.utf8Size := rfl

theorem toList_bytes (cs : List Char) : (bytes cs).toList = cs.flatMap String.utf8EncodeChar := by
  show ((cs.flatMap String.utf8EncodeChar).toByteArray.data).toList = _
  rw [List.data_toByteArray, List.toList_toArray]

theorem getElem?_bytes_append (cs ds : List Char) (i : Nat) :
    (bytes (cs ++ ds))[i]? =
      if i < byteLength cs then (bytes cs)[i]? else (bytes ds)[i - byteLength cs]? := by
  rw [bytes_append, Array.getElem?_append, size_bytes]

/-- The bytes of what stands in a text are found there. -/
theorem HasAt.getElem?_mem {cs part : List Char} {position i : Nat} {b : UInt8}
    (h : HasAt cs position part) (hle : position ≤ i) (hlt : i < position + byteLength part)
    (hb : (bytes cs)[i]? = some b) : b ∈ bytes part := by
  obtain ⟨before, after, rfl, rfl⟩ := h
  rw [getElem?_bytes_append, if_pos (by rw [byteLength_append]; exact hlt), getElem?_bytes_append,
    if_neg (Nat.not_lt.mpr hle)] at hb
  exact Array.mem_of_getElem? hb

/-- The bytes of a text that stands in another one are found between its ends. -/
theorem HasAt.extract_eq {cs : List Char} {s : String} {position : Nat}
    (h : HasAt cs position s.toList) :
    (bytes cs).extract position (position + s.utf8ByteSize) = Sink.bytes s := by
  rw [← byteLength_toList, h.isSlice.bytes, bytes, String.ofList_toList]

variable {p : Char → Bool} {q : UInt8 → Bool}

/-- All characters of a text are in a class, or outside of it, if all of its bytes are. -/
theorem Bytewise.forall_mem_bytes_iff (h : Bytewise p q) {cs : List Char} {v : Bool} :
    (∀ b ∈ bytes cs, q b = v) ↔ ∀ c ∈ cs, p c = v := by
  simp only [← Array.mem_toList_iff, toList_bytes, List.mem_flatMap]
  constructor
  · intro hall c hc
    obtain ⟨b, rest, hbytes⟩ := List.exists_cons_of_ne_nil (String.utf8EncodeChar_ne_nil (c := c))
    have hb : b ∈ String.utf8EncodeChar c := hbytes ▸ List.mem_cons_self
    rw [← h c b hb]
    exact hall b ⟨c, hc, hb⟩
  · rintro hall b ⟨c, hc, hb⟩
    rw [h c b hb]
    exact hall c hc

/-- The class of the bytes of a character that stands in a text. -/
theorem Bytewise.of_hasAt (h : Bytewise p q) {cs : List Char} {c : Char} {position i : Nat}
    (hat : HasAt cs position [c]) (hle : position ≤ i) (hlt : i < position + c.utf8Size) :
    ∃ b, (bytes cs)[i]? = some b ∧ q b = p c := by
  have hbound := hat.isSlice.bound
  rw [byteLength_singleton] at hbound
  have hi : i < (bytes cs).size := by
    rw [size_bytes]
    omega
  have hb := Array.getElem?_eq_getElem hi
  refine ⟨_, hb, h.forall_mem_bytes_iff.mpr (fun d hd ↦ ?_) _ (hat.getElem?_mem hle hlt hb)⟩
  rw [List.mem_singleton.mp hd]

/-- A part of a text without separators is a run if there is an end or a separator on both sides of
it. -/
theorem Bytewise.isRun (h : Bytewise p q) {before part after : List Char} (hne : part ≠ [])
    (hpart : ∀ c ∈ part, p c = false) (hbefore : ∀ c ∈ before.getLast?, p c = true)
    (hafter : ∀ c ∈ after.head?, p c = true) :
    IsRun q (bytes (before ++ part ++ after)) (byteLength before)
      (byteLength before + byteLength part) where
  lt := Nat.lt_add_of_pos_right (byteLength_pos hne)
  le := by
    rw [size_bytes, byteLength_append, byteLength_append]
    omega
  inside i b hle hlt hb := by
    have hat : HasAt (before ++ part ++ after) (byteLength before) part := ⟨before, after, rfl, rfl⟩
    exact h.forall_mem_bytes_iff.mpr hpart b (hat.getElem?_mem hle hlt hb)
  before := by
    cases hlast : before.getLast? with
    | none =>
      rw [List.getLast?_eq_none_iff.mp hlast]
      exact .inl rfl
    | some c =>
      -- the byte in front of the run is the last one of the character in front of it
      obtain ⟨init, rfl⟩ := List.getLast?_eq_some_iff.mp hlast
      have hat : HasAt (init ++ [c] ++ part ++ after) (byteLength init) [c] :=
        ⟨init, part ++ after, by simp, rfl⟩
      have hpos := c.utf8Size_pos
      rw [byteLength_append, byteLength_singleton]
      obtain ⟨b, hb, hq⟩ := h.of_hasAt hat (i := byteLength init + c.utf8Size - 1) (by omega)
        (by omega)
      exact .inr ⟨b, hb, hq.trans (hbefore c hlast)⟩
  after := by
    cases after with
    | nil =>
      rw [List.append_nil, size_bytes, byteLength_append]
      exact .inl rfl
    | cons c after =>
      have hat : HasAt (before ++ part ++ c :: after) (byteLength (before ++ part)) [c] :=
        ⟨before ++ part, after, by simp, rfl⟩
      rw [← byteLength_append]
      obtain ⟨b, hb, hq⟩ := h.of_hasAt hat (Nat.le_refl _) (Nat.lt_add_of_pos_right c.utf8Size_pos)
      exact .inr ⟨b, hb, hq.trans (hafter c rfl)⟩

/-! ## Tokens are runs

One direction is by the division into tokens, which are bounded by separators.  For the other, a
byte of the run is in some token, and this is a run with that byte. -/

attribute [ext] Token

variable {start : Nat} {cs : List Char} {t : Token}

/-- **A token is a run.** -/
theorem isRun_of_mem_tokens (hpq : Bytewise p q) (h : t ∈ tokens p start cs) :
    ∃ first, t.start = start + first ∧ IsRun q (bytes cs) first (first + t.text.utf8ByteSize) ∧
      HasAt cs first t.text.toList := by
  obtain ⟨hne, hall⟩ := mem_words (text_mem_words h)
  obtain ⟨before, after, rfl, hstart, hbefore, hafter⟩ := exists_between_of_mem_tokens h
  refine ⟨byteLength before, hstart, ?_, before, after, rfl, rfl⟩
  rw [← byteLength_toList]
  exact hpq.isRun (by simpa using hne) (fun c hc ↦ (hall c hc).1) hbefore hafter

/-- **No byte is left out** that is no separator. -/
theorem exists_mem_tokens_of_byte (hpq : Bytewise p q) (start : Nat) {i : Nat} {b : UInt8}
    (hb : (bytes cs)[i]? = some b) (hq : q b = false) :
    ∃ t ∈ tokens p start cs, t.start ≤ start + i ∧ start + i < t.stop := by
  fun_induction tokens p start cs generalizing i with
  | case1 => cases hb
  | case2 start c rest hc ih =>
    have hat : HasAt (c :: rest) 0 [c] := ⟨[], rest, rfl, rfl⟩
    -- the byte is none of the separator, so that it is one of the rest
    have hle : c.utf8Size ≤ i := by
      by_contra hlt
      obtain ⟨b', hb', hq'⟩ := hpq.of_hasAt hat (Nat.zero_le i) (by omega)
      rw [Option.some.inj (hb.symm.trans hb'), hq', hc] at hq
      cases hq
    rw [← List.singleton_append, getElem?_bytes_append, byteLength_singleton,
      if_neg (Nat.not_lt.mpr hle)] at hb
    obtain ⟨t, ht, hstart, hstop⟩ := ih hb
    exact ⟨t, ht, by omega, by omega⟩
  | case3 start c rest hc run =>
    rename_i ih
    have hsplit : c :: rest = run ++ rest.dropWhile (!p ·) := cons_eq_run_append p c rest
    rw [hsplit, getElem?_bytes_append] at hb
    split at hb
    · rename_i hlt
      refine ⟨_, List.mem_cons_self, Nat.le_add_right _ _, ?_⟩
      rw [Token.stop_eq, String.toList_ofList]
      exact Nat.add_lt_add_left hlt _
    · rename_i hge
      obtain ⟨t, ht, hstart, hstop⟩ := ih hb
      exact ⟨t, List.mem_cons_of_mem _ ht, by omega, by omega⟩

/-- **The tokens are all runs**, each with its bytes as its text. -/
theorem mem_tokens_iff (hpq : Bytewise p q) :
    t ∈ tokens p start cs ↔ ∃ first, t.start = start + first ∧
      IsRun q (bytes cs) first (first + t.text.utf8ByteSize) ∧
      (bytes cs).extract first (first + t.text.utf8ByteSize) = Sink.bytes t.text := by
  constructor
  · intro h
    obtain ⟨first, hstart, hrun, hat⟩ := isRun_of_mem_tokens hpq h
    exact ⟨first, hstart, hrun, hat.extract_eq⟩
  · rintro ⟨first, hstart, hrun, hbytes⟩
    -- the first byte of the run is in a token, whose run is then the same
    have hfirst : first < (bytes cs).size := Nat.lt_of_lt_of_le hrun.lt hrun.le
    have hb := Array.getElem?_eq_getElem hfirst
    obtain ⟨u, hu, hle, hlt⟩ := exists_mem_tokens_of_byte hpq start hb
      (hrun.inside first _ (Nat.le_refl _) hrun.lt hb)
    obtain ⟨first', hstart', hrun', hat⟩ := isRun_of_mem_tokens hpq hu
    rw [Token.stop] at hlt
    obtain ⟨rfl, hstop⟩ := hrun.eq_of_mem hrun' (Nat.le_refl _) hrun.lt (by omega) (by omega)
    have htext : t.text = u.text := by
      apply Sink.bytes_injective
      rw [← hbytes, hstop, hat.extract_eq]
    rwa [Token.ext htext (hstart.trans hstart'.symm)]

/-- **There is a separator between two tokens.** -/
theorem tokens_pairwise_lt (hpq : Bytewise p q) (start : Nat) (cs : List Char) :
    (tokens p start cs).Pairwise fun t u ↦ t.stop < u.start := by
  refine (tokens_pairwise p start cs).imp_of_mem fun {t u} ht hu hle ↦ ?_
  obtain ⟨first, hstart, hrun, -⟩ := isRun_of_mem_tokens hpq ht
  obtain ⟨first', hstart', hrun', -⟩ := isRun_of_mem_tokens hpq hu
  refine Nat.lt_of_le_of_ne hle fun hsame ↦ ?_
  rw [Token.stop] at hsame
  obtain rfl : first' = first + t.text.utf8ByteSize := by omega
  obtain hsize | ⟨b, hb, hsep⟩ := hrun.after
  · have hlt := hrun'.lt
    have hle := hrun'.le
    omega
  · rw [hrun'.inside _ b (Nat.le_refl _) hrun'.lt hb] at hsep
    cases hsep

/-! ## Words with separators between them

How a line is divided does not depend on which separators there are, nor on how many. -/

/-- **Words with separators between them are read back.**  Each word comes with what stands after
it, which may be nothing only after the last. -/
theorem words_spaced {ws : List (String × List Char)}
    (hwords : ∀ e ∈ ws, e.1 ≠ "" ∧ ∀ c ∈ e.1.toList, p c = false)
    (hgaps : ∀ e ∈ ws, ∀ c ∈ e.2, p c = true) (hbetween : ∀ e ∈ ws.dropLast, e.2 ≠ []) :
    words p (ws.flatMap fun e ↦ e.1.toList ++ e.2) = ws.map Prod.fst := by
  induction ws with
  | nil => exact words_nil
  | cons e ws ih =>
    rw [List.forall_mem_cons] at hwords hgaps
    have hlater : ∀ f ∈ ws.dropLast, f.2 ≠ [] := by
      intro f hf
      cases ws with
      | nil => cases hf
      | cons g ws => exact hbetween f (List.mem_cons_of_mem e hf)
    have hfollowed : ∀ c ∈ (e.2 ++ ws.flatMap fun f ↦ f.1.toList ++ f.2).head?, p c = true := by
      intro c hc
      cases hgap : e.2 with
      | nil =>
        -- only the last word has nothing after it
        cases ws with
        | nil =>
          rw [hgap] at hc
          cases hc
        | cons g ws => exact absurd hgap (hbetween e List.mem_cons_self)
      | cons d gap =>
        rw [hgap] at hc
        rw [← Option.some.inj hc]
        exact hgaps.1 d (hgap ▸ List.mem_cons_self)
    rw [List.flatMap_cons, List.append_assoc,
      words_run (String.toList_eq_nil_iff.not.mpr hwords.1.1) hwords.1.2 hfollowed,
      words_separators_append hgaps.1, ih hwords.2 hgaps.2 hlater, String.ofList_toList,
      List.map_cons]

end Text

/-! ## Separators

All eight separators are characters of ASCII. -/

/-- **A separator has one byte**, which is no byte of any other character. -/
theorem Line.bytewise_isSeparator : Text.Bytewise isSeparator isSeparatorByte := by
  intro c b hb
  by_cases hc : c.toNat < 128
  · have hascii : ∀ n < 128, isSeparatorByte (UInt8.ofNat n) = isSeparator (Char.ofNat n) := by
      decide
    have hone : String.utf8EncodeChar c = [UInt8.ofNat c.toNat] := by
      rw [String.utf8EncodeChar.eq_def]
      exact if_pos (Nat.le_of_lt_succ hc)
    rw [hone, List.mem_singleton] at hb
    rw [hb, hascii c.toNat hc, Char.ofNat_toNat]
  · have hb := Text.le_toNat_of_mem_utf8EncodeChar hc hb
    have hbytes : separatorBytes.all (·.toNat < 128) = true := by decide
    have hnot : b ∉ separatorBytes := by
      intro hmem
      have hlt := of_decide_eq_true (List.all_eq_true.mp hbytes b hmem)
      omega
    have hother : isSeparator c = false :=
      isSeparator_eq_false (q := (128 ≤ ·.toNat)) (by decide) (decide_eq_true (Nat.not_lt.mp hc))
    rw [hother, isSeparatorByte, List.contains_eq_mem, decide_eq_false hnot]

/-! ## The result

The class is now that of the separators, and what is asked of a text of words with something between
them is said in bytes as well. -/

/-- **Tokens are the maximal runs of bytes that are no separators.**  A token of a line is one of
them, with the offset of its first byte and with its bytes as text, and every one of them is a
token.  Tokens stand one after the other with something between them, and the bytes that are in some
token are those that are no separators.

So words that are written with separators between them, and any before and after, are the words that
are read. -/
theorem tokens_are_the_maximal_runs (start : Nat) :
    (∀ cs : List Char,
      let bs := Text.bytes cs
      let tokens := Text.tokens Line.isSeparator start cs
      (∀ t : Text.Token, t ∈ tokens ↔ ∃ first, t.start = start + first ∧
        Text.IsRun Line.isSeparatorByte bs first (first + t.text.utf8ByteSize) ∧
        bs.extract first (first + t.text.utf8ByteSize) = Sink.bytes t.text) ∧
      (tokens.Pairwise fun t u ↦ t.stop < u.start) ∧
      ∀ i b, bs[i]? = some b → (Line.isSeparatorByte b = false ↔
        ∃ t ∈ tokens, t.start ≤ start + i ∧ start + i < t.stop)) ∧
    ∀ (left : List Char) (ws : List (String × List Char)),
      (∀ b ∈ Text.bytes left, Line.isSeparatorByte b = true) →
      (∀ e ∈ ws, e.1 ≠ "" ∧ (∀ b ∈ Sink.bytes e.1, Line.isSeparatorByte b = false) ∧
        ∀ b ∈ Text.bytes e.2, Line.isSeparatorByte b = true) →
      (∀ e ∈ ws.dropLast, e.2 ≠ []) →
      (Text.tokens Line.isSeparator start (left ++ ws.flatMap fun e ↦ e.1.toList ++ e.2)).map
        Text.Token.text = ws.map Prod.fst := by
  have hseparators := Line.bytewise_isSeparator
  refine ⟨fun cs ↦ ⟨fun t ↦ ?_, Text.tokens_pairwise_lt hseparators start cs,
    fun i b hb ↦ ⟨?_, ?_⟩⟩, fun left ws hleft hws hbetween ↦ ?_⟩
  · exact Text.mem_tokens_iff hseparators
  · exact Text.exists_mem_tokens_of_byte hseparators start hb
  · rintro ⟨t, ht, hle, hlt⟩
    obtain ⟨first, hstart, hrun, -⟩ := Text.isRun_of_mem_tokens hseparators ht
    rw [Text.Token.stop] at hlt
    exact hrun.inside i b (by omega) (by omega) hb
  · rw [Text.map_text_tokens,
      Text.words_separators_append (hseparators.forall_mem_bytes_iff.mp hleft)]
    refine Text.words_spaced (fun e he ↦ ⟨(hws e he).1, ?_⟩) (fun e he ↦ ?_) hbetween
    · refine hseparators.forall_mem_bytes_iff.mp ?_
      rw [Text.bytes, String.ofList_toList]
      exact (hws e he).2.1
    · exact hseparators.forall_mem_bytes_iff.mp (hws e he).2.2

/-- A tab, a letter of two bytes, three separators and a register, in a text that starts at byte 7.
The second byte of the letter is in a token, and that is a run. -/
theorem tokens_are_the_maximal_runs_of_accent :
    let line := ['\t', 'é', ',', ' ', '(', '$', 't', '0']
    let tokens := Text.tokens Line.isSeparator 7 line
    tokens.map Text.Token.text = ["é", "$t0"] ∧
      ∃ t ∈ tokens, t.start ≤ 7 + 2 ∧ 7 + 2 < t.stop ∧ ∃ first, t.start = 7 + first ∧
        Text.IsRun Line.isSeparatorByte (Text.bytes line) first (first + t.text.utf8ByteSize) := by
  intro line tokens
  obtain ⟨hruns, hspaced⟩ := tokens_are_the_maximal_runs 7
  obtain ⟨hrun, -, hcovered⟩ := hruns line
  obtain ⟨t, ht, hle, hlt⟩ := (hcovered 2 0xa9 (by decide)).mp (by decide)
  obtain ⟨first, hstart, hisRun, -⟩ := (hrun t).mp ht
  have hall : ∀ {bs : Array UInt8} {v : Bool}, bs.toList.all (Line.isSeparatorByte · == v) = true →
      ∀ b ∈ bs, Line.isSeparatorByte b = v := fun h b hb ↦
    beq_iff_eq.mp (List.all_eq_true.mp h b (Array.mem_toList_iff.mpr hb))
  refine ⟨?_, t, ht, hle, hlt, first, hstart, hisRun⟩
  refine hspaced ['\t'] [("é", [',', ' ', '(']), ("$t0", [])] (hall (by decide)) ?_ (by simp)
  rw [List.forall_mem_cons, List.forall_mem_singleton]
  exact ⟨⟨by decide, hall (by decide), hall (by decide)⟩,
    ⟨by decide, hall (by decide), hall (by decide)⟩⟩

end MipsAsm
