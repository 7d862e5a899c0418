/-!
# Faults of fields

What can be wrong with the fields of a record: each fault comes with the way to the place where it
was found, and with its kind.
-/

namespace Sigil

inductive Fault where
  | notAllowed
  | notNumber
  | notSpelled
  | notWhole
  | tooSmall
  | tooLarge
  | unknownField
  /-- A field that the record inside a field does not know. -/
  | unknownPart
  | missingField
  | notText
  | notMap
  | notSet
  | notRecord
  /-- Against a rule, in words. -/
  | refused (why : String)
  deriving DecidableEq, Repr

/-- A fault and where it was found. -/
structure FieldFault where
  path : List String
  fault : Fault
  deriving DecidableEq, Repr

end Sigil
