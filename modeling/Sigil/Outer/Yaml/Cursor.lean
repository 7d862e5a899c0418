/-!
# Places in a file

A file of data is read character by character, and where a character stands matters: its line
and its column decide how the parts nest. A cursor is the text that is left and the place
where it starts. A line ends at a line feed, a carriage return, both together, next line, or a
line or paragraph separator.
-/

namespace Sigil.Yaml

/-! ## 1. Characters -/

def isBreak (c : Char) : Bool :=
  c == '\n' || c == '\r' || c == '\u0085' || c == '\u2028' || c == '\u2029'

/-- A blank within a line. -/
def isGap (c : Char) : Bool := c == ' ' || c == '\t'

/-- Whether a blank, the end of a line or the end of the text stands here. -/
def atGap : List Char → Bool
  | [] => true
  | c :: _ => isGap c || isBreak c

/-- A character that may stand in a file at all. -/
def isAllowed (c : Char) : Bool :=
  let n := c.toNat
  n == 0x09 || n == 0x0A || n == 0x0D || (0x20 ≤ n && n ≤ 0x7E) || n == 0x85 ||
    (0xA0 ≤ n && n ≤ 0xFFFD) || 0x10000 ≤ n

/-- The end of a line at the start of a text, as it reads, and what follows it. The two common
    characters and next line read as a line feed, the separators as themselves. -/
def lineBreak? : List Char → Option (List Char × List Char)
  | '\r' :: '\n' :: cs => some (['\n'], cs)
  | c :: cs =>
    if isBreak c then some (if c == '\u2028' || c == '\u2029' then [c] else ['\n'], cs) else none
  | [] => none

/-- Whether a line starts here that separates documents: three dashes or three points,
    then a gap. -/
def atSeparator : List Char → Bool
  | '-' :: '-' :: '-' :: cs => atGap cs
  | '.' :: '.' :: '.' :: cs => atGap cs
  | _ => false

/-! ## 2. Cursors -/

/-- The text that is left, how many characters and lines come before it, and its column. -/
structure Cursor where
  rest : List Char
  index : Nat := 0
  line : Nat := 0
  column : Nat := 0
  deriving Repr

namespace Cursor

/-- One character further. Of a carriage return and a line feed, the second ends the line. -/
def step (cursor : Cursor) : Cursor :=
  match cursor.rest with
  | [] => cursor
  | c :: rest =>
    if isBreak c && !(c == '\r' && rest.head? == some '\n') then
      ⟨rest, cursor.index + 1, cursor.line + 1, 0⟩
    else ⟨rest, cursor.index + 1, cursor.line, cursor.column + 1⟩

def skip (cursor : Cursor) : Nat → Cursor
  | 0 => cursor
  | n + 1 => cursor.step.skip n

/-- On to a later rest of the same text. -/
def moveTo (cursor : Cursor) (rest : List Char) : Cursor :=
  cursor.skip (cursor.rest.length - rest.length)

end Cursor

end Sigil.Yaml
