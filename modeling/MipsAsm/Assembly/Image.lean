import MipsAsm.Assembly.Scan
import MipsAsm.Encoding

/-!
# The second pass

The second pass reads the listing of the first line by line and encodes each instruction at its
address, which is the base address plus four times its position in the listing.  An instruction that
cannot be encoded leaves a gap and a diagnostic on the source line it came from.

`Image` is what is known after some of the lines, and `Image.ofListing` reads all of them.
-/

set_option autoImplicit false

namespace MipsAsm

/-- A word at its address, with the source line it comes from. -/
structure Placement where
  /-- The address. -/
  address : UInt32
  /-- The source line. -/
  line : Nat
  /-- The word. -/
  word : UInt32
deriving DecidableEq, Repr, Inhabited

/-- What the second pass knows after some lines of the listing. -/
structure Image where
  /-- How many lines of the listing were read. -/
  read : Nat
  /-- The jumps whose targets are to be filled in. -/
  relocations : SymbolTable
  /-- The words so far. -/
  placements : Array Placement
  /-- What is wrong with the lines so far. -/
  diagnostics : Array Diagnostic
  /-- What was logged so far. -/
  log : Array Log.Entry

namespace Image

/-- The state before the first line. -/
def start (relocations : SymbolTable) : Image :=
  { read := 0, relocations, placements := #[], diagnostics := #[], log := #[] }

/-- Whether an error was found. -/
def hasErrors (m : Image) : Bool := m.diagnostics.any Diagnostic.isError

/-- The address of the line of the listing at a position. -/
def addressOf (base : UInt32) (position : Nat) : UInt32 := base + 4 * UInt32.ofNat position

/-- What is logged of a line of the listing that cannot be encoded. -/
def rejectionLog (line : Nat) (e : Error) : List Log.Entry :=
  e.insertionReport?.toList
    ++ [.report ("Error: line " ++ Text.decimal (line + 1) ++ ": " ++ e.text)]

/-- Encode an instruction as the next line of the listing.  It comes from the source line with the
number `number`. -/
def place (o : Options) (labels : SymbolTable) (number : Nat) (line : Line) (m : Image)
    (i : Instruction) : Option Image :=
  let { read, relocations, placements, diagnostics, log } := m
  let address := addressOf o.base read
  let (tables, outcome) :=
    i.encode o.tableLimit address { symbols := some labels, relocations := some relocations }
  match tables.relocations, outcome with
  | some relocations, .ok word =>
    some
      { read := read + 1, relocations, diagnostics, log
        placements := placements.push { address, line := number, word } }
  | some relocations, .error (.rejected e) =>
    some
      { read := read + 1, relocations, placements
        diagnostics := diagnostics.push (Diagnostic.ofError e (line.errorRange number e))
        log := log ++ rejectionLog number e }
  | _, _ => none

/-- Read the next line of the listing, unless an error was found and that is where to stop. -/
def readLine (o : Options) (source : Array (List Char)) (scan : Scan) (m : Image)
    (cs : List Char) : Option Image :=
  if o.stopOnFirstError && m.hasErrors then
    some m
  else
    match Instruction.ofTokens? (Text.tokens Line.isSeparator 0 cs) with
    | none => some { m with read := m.read + 1 }
    | some i =>
      let number := scan.origins[m.read]?.getD 0
      m.place o scan.labels number (Line.read (source[number]?.getD [])) i

/-- The lines of a listing.  The last line feed ends the last line and starts no new one. -/
def listingLines (listing : String) : List (List Char) :=
  if listing = "" then [] else (Text.splitLines listing.toList).dropLast

/-- What is traced at the end of the second pass. -/
def summary (m : Image) : Log.Entry :=
  .trace ("pass two: " ++ Text.decimal m.placements.size ++ " words, "
    ++ Text.decimal m.relocations.size ++ " relocations")

/-- Read the listing of a source.  It is `none` if the table of relocations runs out of room. -/
def ofListing (o : Options) (source : Array (List Char)) (scan : Scan) (relocations : SymbolTable) :
    Option Image :=
  (listingLines scan.listing).foldlM (readLine o source scan) (start relocations)

end Image
end MipsAsm
