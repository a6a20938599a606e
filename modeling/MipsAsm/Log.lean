/-!
# The log

What the program tells its operator while it works.  A report is always shown.  A trace is shown
only on request.
-/

set_option autoImplicit false

namespace MipsAsm
namespace Log

/-- A line of the log, without its line feed. -/
inductive Entry where
  /-- A line that is always shown. -/
  | report (text : String)
  /-- A line that is shown only on request. -/
  | trace (text : String)
deriving DecidableEq, Repr, Inhabited

/-- The text of an entry if it is shown. -/
def Entry.shown? (traced : Bool) : Entry → Option String
  | .report text => some text
  | .trace text => if traced then some text else none

/-- The lines of a log, with the traces if `traced`. -/
def render (traced : Bool) (entries : List Entry) : String :=
  String.join ((entries.filterMap (Entry.shown? traced)).map (· ++ "\n"))

end Log
end MipsAsm
