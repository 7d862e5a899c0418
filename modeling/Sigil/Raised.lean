import Sigil.Document.Basic
import Sigil.Resolve.Error
import Sigil.Schema.Basic

/-!
# What is raised

A step of the program raises a failure of its own hierarchy or an exception of what it is run with;
a command also raises what the reader of command lines turns into the end of the program: a fault
that is told, a fault of usage, a status. A handler (`except`) names one class, raises something
else in place of it, and lets all others through.
-/

namespace Sigil

/-- The faults of the program's own hierarchy. -/
inductive Failure where
  | reading (fault : ReadError)
  | resolution (fault : ResolveError)
  | document (fault : DocumentError)
  | schema (fault : SchemaError)

def Failure.message : Failure → String
  | .reading fault => fault.message
  | .resolution fault => fault.message
  | .document fault => fault.message
  | .schema fault => fault.message

/-- What is raised, by its class. -/
inductive Raised where
  | own (failure : Failure)
  | outside (e : Exception)
  /-- An error of a command, to be told. -/
  | told (message : String)
  | misuse (message : String)
  /-- The end of the program, with a status. -/
  | quit (status : Nat)

def Raised.message : Raised → String
  | .own failure => failure.message
  | .outside e => e.message
  | .told message | .misuse message => message
  | .quit status => toString status

namespace Raised

/-! ## 1. Faults -/

/-- What a read raises. Tokens that run out under the reader are no failure of its own. -/
def ofRead : ReadError → Raised
  | .form .exhausted => .outside (.index "list index out of range")
  | fault => .own (.reading fault)

/-- What a resolution raises. Only what a read raises as its own is blamed on a definition, and a
    foreign value among the nodes is a value of the wrong kind. -/
def ofResolve : ResolveError → Raised
  | .badDefinition _ (.form .exhausted) => .outside (.index "list index out of range")
  | .notExpression shown => .outside (.kind (ResolveError.message (.notExpression shown)))
  | fault => .own (.resolution fault)

def ofSchema (fault : SchemaError) : Raised := .own (.schema fault)

/-! ## 2. Handlers -/

/-- Around the reading of a schema: what the system refuses. -/
def unreadableSchema : Exception → Raised
  | .system why => .own (.schema (.unreadable why))
  | e => .outside e

/-- Around the loader of a schema: what is no YAML. -/
def malformedSchema : Exception → Raised
  | .yaml why => .own (.schema (.malformed why))
  | e => .outside e

/-- Around the check of the fields of a schema: faults of the fields. -/
def invalidSchema : Exception → Raised
  | .fields faults why => .own (.schema (.invalid faults why))
  | e => .outside e

/-- Around the reading of a document: what the system refuses. -/
def unreadableDocument (path : String) : Exception → Raised
  | .system why => .told ("Cannot read " ++ path ++ ": " ++ why.message)
  | e => .outside e

/-- Around the work of a command: the program's own failures. -/
def tellOwn : Raised → Raised
  | .own failure => .told failure.message
  | raised => raised

end Raised

end Sigil
