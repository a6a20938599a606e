/-!
# Text as a list of characters

The assembler reads text as lists of characters and reports places in it as byte offsets of the
UTF-8 form.  This module holds the few operations both of those need.

* `Text.byteLength` — the length of a text in bytes.
* `Text.splitLines` and `Text.joinLines` — a text and its lines, divided at line feeds only.
* `Text.cut` — a text divided at the first occurrence of a character.
* `Text.trim` and its two halves — a text without the characters of a class at its ends.
* `Text.find?` — the byte offset at which one text first occurs in another.
* `Text.tokens` — the maximal separator-free runs of a text, each with its byte offset.
* `Text.braced` — a text with braces, written with other characters in their place.

The functions that see a whole source text at once (`splitLines`, `joinLines`, `byteLength`) are
built from folds, so that they run in constant stack space on a source of any size.
-/

set_option autoImplicit false

namespace MipsAsm
namespace Text

/-! ## Length -/

/-- The number of bytes of the UTF-8 form of a text. -/
def byteLength (cs : List Char) : Nat := cs.foldr (fun c n ↦ c.utf8Size + n) 0

@[simp]
theorem byteLength_nil : byteLength [] = 0 := rfl

@[simp]
theorem byteLength_cons (c : Char) (cs : List Char) :
    byteLength (c :: cs) = c.utf8Size + byteLength cs := rfl

@[simp]
theorem byteLength_append (cs ds : List Char) :
    byteLength (cs ++ ds) = byteLength cs + byteLength ds := by
  induction cs with
  | nil => rw [List.nil_append, byteLength_nil, Nat.zero_add]
  | cons c cs ih => rw [List.cons_append, byteLength_cons, ih, byteLength_cons, Nat.add_assoc]

/-! ## Lines -/

/-- The lines of a text.  A line feed divides two lines, so a text always has one line more than it
has line feeds, and an empty text has one empty line. -/
def splitLines (cs : List Char) : List (List Char) :=
  cs.foldr (fun c lines ↦ if c = '\n' then [] :: lines else lines.modifyHead (c :: ·)) [[]]

/-- The text whose lines are the given ones. -/
def joinLines (lines : List (List Char)) : List Char := List.intercalate ['\n'] lines

@[simp]
theorem splitLines_nil : splitLines [] = [[]] := rfl

theorem splitLines_cons (c : Char) (cs : List Char) :
    splitLines (c :: cs) =
      if c = '\n' then [] :: splitLines cs else (splitLines cs).modifyHead (c :: ·) := rfl

/-! ## Dividing and trimming -/

/-- Divide a text at the first `sep`: what stands before it, and what stands after it if there is
one at all. -/
def cut (sep : Char) (cs : List Char) : List Char × Option (List Char) :=
  match cs.dropWhile (· != sep) with
  | [] => (cs, none)
  | _ :: rest => (cs.takeWhile (· != sep), some rest)

/-- A text without the characters of `p` at its start. -/
def trimLeft (p : Char → Bool) (cs : List Char) : List Char := cs.dropWhile p

/-- A text without the characters of `p` at its end. -/
def trimRight (p : Char → Bool) (cs : List Char) : List Char := (cs.reverse.dropWhile p).reverse

/-- A text without the characters of `p` at either end. -/
def trim (p : Char → Bool) (cs : List Char) : List Char := trimRight p (trimLeft p cs)

/-! ## Searching -/

/-- The byte offset of the first occurrence of `needle` in `cs`, counted from `start`. -/
def find? (needle : List Char) (start : Nat) (cs : List Char) : Option Nat :=
  if needle.isPrefixOf cs then
    some start
  else
    match cs with
    | [] => none
    | c :: rest => find? needle (start + c.utf8Size) rest

/-! ## Tokens

The same function is used with the separators of operands and with blanks, so the class of
separators is a parameter.  The recursion goes on with what follows a run, which is shorter than the
text. -/

/-- A run of characters together with the byte offset at which it starts. -/
structure Token where
  /-- The characters of the run. -/
  text : String
  /-- The offset of its first byte. -/
  start : Nat
deriving DecidableEq, Repr, Inhabited

/-- The offset of the byte after the last one of a token. -/
def Token.stop (t : Token) : Nat := t.start + t.text.utf8ByteSize

theorem length_dropWhile_le (p : Char → Bool) (cs : List Char) :
    (cs.dropWhile p).length ≤ cs.length := by
  induction cs with
  | nil => exact Nat.le_refl _
  | cons c cs ih =>
    rw [List.dropWhile_cons]
    split
    · exact Nat.le_succ_of_le ih
    · exact Nat.le_refl _

/-- The maximal runs of characters that are no separators, in order.  The first character of the
text has byte offset `start`. -/
def tokens (isSeparator : Char → Bool) (start : Nat) (cs : List Char) : List Token :=
  match cs with
  | [] => []
  | c :: rest =>
    if isSeparator c then
      tokens isSeparator (start + c.utf8Size) rest
    else
      let run := c :: rest.takeWhile (!isSeparator ·)
      { text := String.ofList run, start } ::
        tokens isSeparator (start + byteLength run) (rest.dropWhile (!isSeparator ·))
termination_by cs.length
decreasing_by
  · simp
  · have := length_dropWhile_le (!isSeparator ·) rest
    simp only [List.length_cons]
    omega

/-- The texts of the maximal separator-free runs. -/
def words (isSeparator : Char → Bool) (cs : List Char) : List String :=
  (tokens isSeparator 0 cs).map Token.text

/-! ## Braces

Some of the texts that are shown to an editor, and most of the page, have braces in them. -/

/-- The character that `«` or `»` stands for in a text that is written with them for braces. -/
def brace (c : Char) : Char := if c = '«' then '\x7b' else if c = '»' then '\x7d' else c

/-- A text in which `«` and `»` stand for braces. -/
def braced (s : String) : String := String.ofList (s.toList.map brace)

end Text
end MipsAsm
