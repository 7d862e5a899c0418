import Sigil.Text.Display
import Sigil.Text.Utf8
import Sigil.Value.Fault

/-!
# Exceptions

What a program is run with may refuse to work: the system keeps a file back, a library does not take
its input, the calls nest too deep for the interpreter. That is an exception. The classes are those
that a handler of the program could name, and one for all others.
-/

namespace Sigil

/-- Why the system keeps a file back, and the path as it is shown. -/
structure SystemFault where
  number : Nat
  why : String
  path : String
  deriving DecidableEq, Repr

def SystemFault.message (fault : SystemFault) : String :=
  "[Errno " ++ toString fault.number ++ "] " ++ fault.why ++ ": " ++ Text.display fault.path

/-- What is raised by the system, the interpreter or a library. -/
inductive Exception where
  | system (fault : SystemFault)
  /-- A text is no YAML. -/
  | yaml (why : String)
  /-- The fields of a record are at fault. -/
  | fields (faults : List FieldFault) (why : String)
  | value (why : String)
  /-- Bytes are no text. It counts as a value that is not accepted. -/
  | notText (why : Text.Utf8.DecodeError)
  /-- A value of the wrong kind. -/
  | kind (why : String)
  | key (why : String)
  | index (why : String)
  | nesting
  | other (why : String)
  deriving DecidableEq, Repr

def Exception.message : Exception → String
  | .system fault => fault.message
  | .notText why => why.message
  | .nesting => "maximum recursion depth exceeded"
  | .yaml why | .fields _ why | .value why | .kind why | .key why | .index why | .other why => why

end Sigil
