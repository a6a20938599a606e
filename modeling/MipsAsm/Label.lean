/-!
# Label names

A label name is an ASCII letter or underscore, followed by any number of ASCII letters, digits and
underscores.
-/

set_option autoImplicit false

namespace MipsAsm
namespace Label

/-- The characters a label name may start with. -/
def isStart (c : Char) : Bool :=
  ('a' ≤ c && c ≤ 'z') || ('A' ≤ c && c ≤ 'Z') || c == '_'

/-- The characters a label name may go on with. -/
def isContinue (c : Char) : Bool := isStart c || ('0' ≤ c && c ≤ '9')

/-- Whether a text is a label name. -/
def isValid (name : String) : Bool :=
  match name.toList with
  | [] => false
  | c :: rest => isStart c && rest.all isContinue

end Label
end MipsAsm
