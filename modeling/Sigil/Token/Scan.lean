import Sigil.Text.Blank
import Sigil.Text.Name
import Sigil.Token.Basic
import Sigil.Token.Error

/-!
# Reading a text as tokens

Blanks separate tokens and are dropped; everything else belongs to a token, and each token is
as long as its spelling can be. A number is digits with an optional minus sign and an optional
fraction, so a minus sign with no digit after it starts nothing but an arrow; a name starts
with a letter of the basic alphabet. The scan walks the text character by character: `lexemeAt`
says which lexeme starts at a place and how many characters beyond the first it takes, and
those are then passed over.
-/

namespace Sigil

namespace Lexeme

open Text (isDigit isLetter isNameChar)

/-! ## 1. The spellings -/

/-- A lexeme at the start of a text, and how many characters it takes beyond the first. -/
structure Found where
  lexeme : Lexeme
  extra : Nat
  deriving DecidableEq, Repr

/-- A fault and its distance from where the lexeme starts. -/
abbrev Fault := Misspelling × Nat

/-- A word is a name unless it is one of the three literals. -/
def ofWord (word : List Char) : Lexeme :=
  if word = ['n', 'u', 'l', 'l'] then .null
  else if word = ['t', 'r', 'u', 'e'] then .bool true
  else if word = ['f', 'a', 'l', 's', 'e'] then .bool false
  else .name (String.ofList word)

/-- The digits of a fraction, if a point with a digit after it stands here. -/
def fractionOf : List Char → List Char
  | '.' :: rest => rest.takeWhile isDigit
  | _ => []

/-- A number: its first character, and the digits that follow. -/
def numberAt (first : Char) (negative : Bool) (digits : List Char) :
    Except Fault Found :=
  let whole := digits.takeWhile isDigit
  let fraction := fractionOf (digits.drop whole.length)
  let value := (Decimal.ofDigits whole fraction).toBinary64 negative
  let length := whole.length + if fraction.isEmpty then 0 else fraction.length + 1
  if whole.isEmpty then .error (.unexpected first, 0)
  else if value.isFinite then .ok ⟨.number value, if negative then length else length - 1⟩
  else .error (.outOfRange first, 0)

/-- The character that an escape stands for. -/
def unescape? : Char → Option Char
  | '"' => some '"'
  | '\\' => some '\\'
  | 'n' => some '\n'
  | 't' => some '\t'
  | _ => none

/-- The rest of a string after `taken` characters of it: its value and its length, with the quote
    that ends it. -/
def stringFrom (taken : Nat) : List Char → Except Fault (List Char × Nat)
  | '"' :: _ => .ok ([], taken + 1)
  | '\\' :: c :: rest =>
    match unescape? c with
    | none => .error (.unknownEscape c, taken + 1)
    | some d =>
      match stringFrom (taken + 2) rest with
      | .ok (value, length) => .ok (d :: value, length)
      | .error fault => .error fault
  | c :: rest =>
    if c = '\\' then .error (.openString, 0)
    else match stringFrom (taken + 1) rest with
      | .ok (value, length) => .ok (c :: value, length)
      | .error fault => .error fault
  | [] => .error (.openString, 0)

/-- The symbols of one character. -/
def symbolOf? : Char → Option Symbol
  | '$' => some .dollar
  | '!' => some .bang
  | '?' => some .question
  | '.' => some .dot
  | ':' => some .colon
  | '@' => some .at
  | '*' => some .star
  | '|' => some .pipe
  | '=' => some .equal
  | ',' => some .comma
  | '[' => some .openSquare
  | ']' => some .closeSquare
  | '{' => some .openCurly
  | '}' => some .closeCurly
  | '(' => some .openRound
  | ')' => some .closeRound
  | _ => none

/-- The lexeme that starts with the character `c` and goes on in `rest`. -/
def lexemeAt (c : Char) (rest : List Char) : Except Fault Found :=
  match c, rest with
  | '!', '=' :: _ => .ok ⟨.symbol .unequal, 1⟩
  | '-', '>' :: _ => .ok ⟨.symbol .arrow, 1⟩
  | '-', digits => numberAt '-' true digits
  | '"', cs =>
    match stringFrom 0 cs with
    | .ok (value, length) => .ok ⟨.string (String.ofList value), length⟩
    | .error fault => .error fault
  | c, cs =>
    if isDigit c then numberAt c false (c :: cs)
    else if isLetter c then
      let others := cs.takeWhile isNameChar
      .ok ⟨ofWord (c :: others), others.length⟩
    else match symbolOf? c with
      | some s => .ok ⟨.symbol s, 0⟩
      | none => .error (.unexpected c, 0)

end Lexeme

namespace Token

/-! ## 2. The scan -/

/-- The tokens of a text that starts at the place `pos`, where the next `pending` characters
    belong to the token before. -/
def scanFrom (pos pending : Nat) : List Char → Except LexError (List Token)
  | [] => .ok [⟨.finish, pos⟩]
  | c :: cs =>
    match pending with
    | more + 1 => scanFrom (pos + 1) more cs
    | 0 =>
      if Text.isBlank c then scanFrom (pos + 1) 0 cs
      else match Lexeme.lexemeAt c cs with
        | .error (fault, distance) => .error ⟨fault, pos + distance⟩
        | .ok found =>
          match scanFrom (pos + 1) found.extra cs with
          | .ok tokens => .ok (⟨found.lexeme, pos⟩ :: tokens)
          | .error e => .error e

/-- The tokens of a text, the last of which is the end of the input. -/
def scan (s : String) : Except LexError (List Token) := scanFrom 0 0 s.toList

end Token

end Sigil
