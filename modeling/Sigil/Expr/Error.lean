import Sigil.Token.Basic
import Sigil.Token.Error

/-!
# Faults of form

A sequence of tokens that is no expression has one first fault. It is reported with the place of the
token where it shows, and mostly with what was expected there.
-/

namespace Sigil

/-- Levels of brackets, operators and member accesses that an expression may have. -/
def maxNesting : Nat := 64

/-- Why a sequence of tokens is not an expression. -/
inductive SyntaxError where
  /-- The sequence does not end in the end of the input. -/
  | unterminated (pos : Nat)
  /-- A token after a whole expression. -/
  | trailing (found : Token)
  | missing (wanted : Symbol) (found : Token)
  /-- No expression starts like this. -/
  | unexpected (found : Token)
  /-- No name after a dollar or an exclamation mark. -/
  | missingName (after : Symbol) (found : Token)
  | missingField (found : Token)
  | missingKey (found : Token)
  | repeatedKey (key : String) (pos : Nat)
  /-- More levels than `maxNesting`. -/
  | tooDeep (pos : Nat)
  | exhausted
  deriving DecidableEq, Repr

namespace SyntaxError

/-- Where the fault shows. -/
def pos : SyntaxError → Nat
  | .unterminated pos | .repeatedKey _ pos | .tooDeep pos => pos
  | .trailing found | .missing _ found | .unexpected found | .missingName _ found
  | .missingField found | .missingKey found => found.pos
  | .exhausted => 0

/-- What was expected there. -/
def expected : SyntaxError → Option String
  | .unterminated _ | .trailing _ => some "end of input"
  | .missing wanted _ => some wanted.spelling
  | .unexpected _ => some "expression"
  | .missingName _ _ | .missingField _ => some "identifier"
  | .missingKey _ => some "string"
  | .repeatedKey _ _ | .tooDeep _ | .exhausted => none

def describe : SyntaxError → String
  | .unterminated _ => "Token sequence is not terminated"
  | .trailing found => "Unexpected " ++ found.describe ++ " after expression"
  | .missing wanted found => "Expected '" ++ wanted.spelling ++ "', got " ++ found.describe
  | .unexpected found => "Unexpected " ++ found.describe
  | .missingName after found =>
    "Expected a name after '" ++ after.spelling ++ "', got " ++ found.describe
  | .missingField found => "Member access needs a field name, got " ++ found.describe
  | .missingKey found => "Expected an object key string, got " ++ found.describe
  | .repeatedKey key _ => "Duplicate object key " ++ Text.display key
  | .tooDeep _ => "Expression nested deeper than " ++ toString maxNesting ++ " levels"
  | .exhausted => "Token sequence has no further token"

def message (e : SyntaxError) : String := e.describe ++ " at position " ++ toString e.pos

end SyntaxError

inductive ReadError where
  | spelling (e : LexError)
  | form (e : SyntaxError)
  deriving DecidableEq, Repr

def ReadError.message : ReadError → String
  | .spelling e => e.message
  | .form e => e.message

end Sigil
