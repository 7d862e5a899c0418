import Sigil.Number.Text
import Sigil.Text.Display

/-!
# Tokens

A token is a lexeme and the place where it starts, counted in characters. The lexemes are the
three literals that carry a value, the three words that are literals themselves, the symbols,
and the end of the input. A token is described to the reader of a message by its kind and,
where it has one, its value.
-/

namespace Sigil

inductive Symbol where
  | dollar | bang | question
  | dot | colon | at | star | arrow | pipe | equal | unequal
  | comma | openSquare | closeSquare | openCurly | closeCurly | openRound | closeRound
  deriving DecidableEq, Repr

def Symbol.spelling : Symbol → String
  | .dollar => "$"
  | .bang => "!"
  | .question => "?"
  | .dot => "."
  | .colon => ":"
  | .at => "@"
  | .star => "*"
  | .arrow => "->"
  | .pipe => "|"
  | .equal => "="
  | .unequal => "!="
  | .comma => ","
  | .openSquare => "["
  | .closeSquare => "]"
  | .openCurly => "\x7b"
  | .closeCurly => "\x7d"
  | .openRound => "("
  | .closeRound => ")"

def Symbol.opens : Symbol → Bool
  | .openSquare | .openCurly | .openRound => true
  | _ => false

def Symbol.closes : Symbol → Bool
  | .closeSquare | .closeCurly | .closeRound => true
  | _ => false

inductive Lexeme where
  | number (value : Binary64)
  | string (value : String)
  | name (word : String)
  | null
  | bool (value : Bool)
  | symbol (s : Symbol)
  | finish
  deriving DecidableEq, Repr

/-- A lexeme as a message names it: kind and value of a literal or a name, the spelling of anything
    else between quotes. -/
def Lexeme.describe : Lexeme → String
  | .number value => "number " ++ value.display
  | .string value => "string " ++ Text.display value
  | .name word => "identifier " ++ Text.display word
  | .null => "'null'"
  | .bool true => "'true'"
  | .bool false => "'false'"
  | .symbol s => "'" ++ s.spelling ++ "'"
  | .finish => "end of input"

/-- A lexeme and its place. -/
structure Token where
  lexeme : Lexeme
  pos : Nat
  deriving DecidableEq, Repr

/-- A token as a message names it. -/
def Token.describe (t : Token) : String := t.lexeme.describe

end Sigil
