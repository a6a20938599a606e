import Std.Data.TreeMap
import MipsAsm.Assembly.Image

/-!
# Assembling a source

`assemble` runs both passes.  What comes out is an `Assembly`: the labels, the jumps left to be
filled in, the listing, the words and all diagnostics.  With the option to stop at the first error,
the second pass runs only if the first found none.

A result always exists, whatever is wrong with the source, unless a table runs out of room.

A source is a text, that is a list of characters, and offsets into a line count the bytes of its
UTF-8 form.  A file that is no UTF-8 is no such text, so what the program does with its bytes is
outside of what is described here.
-/

set_option autoImplicit false

namespace MipsAsm

/-- What the assembler makes of a source. -/
structure Assembly where
  /-- The lines of the source. -/
  source : Array (List Char)
  /-- What the first pass found. -/
  scan : Scan
  /-- What the second pass made of it. -/
  image : Image
  /-- What was logged. -/
  log : List Log.Entry

/-- Run both passes over the lines of a source.  It is `none` if a table runs out of room. -/
def assembleLines (o : Options) (lines : List (List Char)) : Option Assembly := do
  let labels ← (SymbolTable.new o.tableLimit .unique).toOption
  let relocations ← (SymbolTable.new o.tableLimit .repeatable).toOption
  let source := lines.toArray
  let scan ← Scan.ofLines o labels lines
  let scanLog := scan.log.toList ++ [scan.summary]
  if (o.stopOnFirstError && scan.hasErrors) || scan.listing = "" then
    return { source, scan, image := Image.start relocations, log := scanLog }
  else
    let image ← Image.ofListing o source scan relocations
    return { source, scan, image, log := scanLog ++ image.log.toList ++ [image.summary] }

/-- Assemble a source.  It is `none` if a table runs out of room. -/
def assemble (o : Options) (source : String) : Option Assembly :=
  assembleLines o (Text.splitLines source.toList)

namespace Assembly

/-- The labels with their addresses. -/
def labels (a : Assembly) : SymbolTable := a.scan.labels

/-- The jumps whose targets are to be filled in, with their addresses. -/
def relocations (a : Assembly) : SymbolTable := a.image.relocations

/-- The instructions without pseudo-instructions, one on each line. -/
def listing (a : Assembly) : String := a.scan.listing

/-- The words in order. -/
def words (a : Assembly) : Array UInt32 := a.image.placements.map Placement.word

/-- The words as lines of eight digits. -/
def hexText (a : Assembly) : String :=
  String.join (a.words.toList.map fun w ↦ Text.hexWord w ++ "\n")

/-- All diagnostics, those of the first pass first. -/
def diagnostics (a : Assembly) : Array Diagnostic := a.scan.diagnostics ++ a.image.diagnostics

/-- Whether there is a diagnostic that is an error. -/
def hasErrors (a : Assembly) : Bool := a.diagnostics.any Diagnostic.isError

/-- What is at each address.  Of two words at one address the later counts. -/
def addressMap (a : Assembly) : Std.TreeMap UInt32 Placement :=
  a.image.placements.foldl (fun map p ↦ map.insert p.address p) ∅

end Assembly
end MipsAsm
