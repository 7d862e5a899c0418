/-!
# Lines

Two ways to read line ends. `lines` cuts a text at every character that ends a line, `\r\n` counting
as one end. `unifyLineEnds` only settles the spelling of the ends that files use, and `fileLines`
cuts at those. A text that ends in a line end has no further empty line.
-/

namespace Sigil.Text

/-- The characters that end a line: the line feed to the carriage return, the file, group and record
    separators, next line, and the line and paragraph separators. -/
def isLineEnd (c : Char) : Bool :=
  let n := c.toNat
  (0x0A ≤ n && n ≤ 0x0D) || (0x1C ≤ n && n ≤ 0x1E) || n == 0x85 || n == 0x2028 || n == 0x2029

/-- The text cut at its line ends. -/
def lines : List Char → List (List Char)
  | [] => []
  | '\r' :: '\n' :: cs => [] :: lines cs
  | c :: cs =>
    if isLineEnd c then [] :: lines cs
    else match lines cs with
      | [] => [[c]]
      | line :: rest => (c :: line) :: rest

/-- Every `\r\n` and every other `\r` as a single `\n`. -/
def unifyLineEnds : List Char → List Char
  | [] => []
  | '\r' :: '\n' :: cs => '\n' :: unifyLineEnds cs
  | '\r' :: cs => '\n' :: unifyLineEnds cs
  | c :: cs => c :: unifyLineEnds cs

/-- The text cut at one separating character: one piece more than there are separators. -/
def pieces (separator : Char) : List Char → List (List Char)
  | [] => [[]]
  | c :: cs =>
    if c = separator then [] :: pieces separator cs
    else match pieces separator cs with
      | [] => [[c]]
      | piece :: rest => (c :: piece) :: rest

/-- The lines of a file. -/
def fileLines (cs : List Char) : List (List Char) :=
  let lines := pieces '\n' (unifyLineEnds cs)
  if lines.getLast? = some [] then lines.dropLast else lines

end Sigil.Text
