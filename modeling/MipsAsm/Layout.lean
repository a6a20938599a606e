import MipsAsm.Assembly.Basic

/-!
# Laying out a source

`reformat` gives a source a uniform layout.  A label starts its line and is followed by one space.
An instruction without a label is indented two columns past the longest label, so that instructions
stand in one column below the longest label line.  A directive starts its line.  Blanks between
words become one space, and a comment keeps its text but for blanks at its end.
-/

set_option autoImplicit false

namespace MipsAsm
namespace Layout

/-- The words of a text with one space between each two. -/
def squeeze (cs : List Char) : List Char :=
  (" ".intercalate (Text.words Text.isBlank cs)).toList

/-- The comment of a line in its new form, after code or after nothing. -/
def comment (afterCode : Bool) : Option (List Char) → List Char
  | none => []
  | some cs => (if afterCode then [' '] else []) ++ '#' :: Text.trimRight Line.isMargin cs

/-- The code of a line in its new form.  It has words, with one space between each two. -/
def code (indent : Nat) (cs : List Char) : List Char :=
  if cs.head? = some '.' then
    cs
  else
    match Text.cut ':' cs with
    | (_, none) => List.replicate indent ' ' ++ cs
    | (label, some rest) =>
      match Text.trimLeft (· == ' ') rest with
      | [] => label ++ [':']
      | body => label ++ ':' :: ' ' :: body

/-- A line in its new form. -/
def line (indent : Nat) (cs : List Char) : List Char :=
  let (before, after) := Text.cut '#' cs
  match squeeze before with
  | [] => comment false after
  | words => code indent words ++ comment true after

/-- The number of bytes of the longest label. -/
def labelWidth (labels : SymbolTable) : Nat :=
  (labels.entries.toList.map (·.name.utf8ByteSize)).max?.getD 0

end Layout

/-- A source in its new layout, given the labels it defines. -/
def Assembly.reformat (a : Assembly) : String :=
  let indent := Layout.labelWidth a.labels + 2
  String.ofList (Text.joinLines (a.source.toList.map (Layout.line indent)))

/-- A source in its new layout.  It is `none` if a table runs out of room. -/
def reformat (o : Options) (source : String) : Option String :=
  (assemble o source).map Assembly.reformat

/-- The end of the last line of a text. -/
def endOfText (source : String) : Position :=
  let lines := Text.splitLines source.toList
  { line := lines.length - 1, character := Text.byteLength (lines.getLast?.getD []) }

end MipsAsm
