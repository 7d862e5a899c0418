import Sigil.Data
import Sigil.Number.Text
import Sigil.Text.Hex
import Sigil.Outer.Yaml.Plain

/-!
# Writing data as a file

Data are written in block style: an entry or an item a line, maps in maps two columns further in,
items of a list in a map at the column of the map, and what follows a dash on the line of the dash.
A text is written plain where that is safe, otherwise between single quotes, and where single quotes
cannot hold it between double quotes with escapes.

Long lines are folded at spaces after 80 columns. A plain text breaks in front of a word that would
pass the limit and keeps the space at the end of the line; a quoted one breaks in the place of a
single space. The lines that follow stand two columns inside the collection that holds the text.
-/

namespace Sigil.Yaml

/-! ## 1. Styles -/

/-- The column after which lines are folded. -/
def lineWidth : Nat := 80

def isSpecial (c : Char) : Bool :=
  let n := c.toNat
  !((0x20 ≤ n && n ≤ 0x7E) || n == 0x0A || n == 0x85 || (0xA0 ≤ n && n ≤ 0xD7FF) ||
    (0xE000 ≤ n && n ≤ 0xFFFD) || 0x10000 ≤ n) || n == 0xFEFF

/-- The characters that no plain text starts with. -/
def leadingIndicators : List Char := "#,[]\x7b\x7d&*!|>'\"%@\x60".toList

/-- Whether some colon ends a word, or some number sign starts one. -/
def hasInnerIndicator : List Char → Bool
  | [] => false
  | [c] => c == ':'
  | c :: d :: cs => (c == ':' && d == ' ') || (c == ' ' && d == '#') || hasInnerIndicator (d :: cs)

/-- Whether a text starts like something else than a text. -/
def startsLikeIndicator (cs : List Char) : Bool :=
  match cs with
  | [] => true
  | c :: rest =>
    leadingIndicators.contains c ||
      ((c == '-' || c == '?' || c == ':') && (rest.isEmpty || rest.head? == some ' ')) ||
      cs.take 3 == ['-', '-', '-'] || cs.take 3 == ['.', '.', '.']

inductive Style where
  | plain
  | single
  | double
  deriving DecidableEq, Repr

def styleOf (s : String) : Style :=
  let cs := s.toList
  if cs.any fun c => isSpecial c || c == '\n' then .double
  else if cs.head? != some ' ' && cs.getLast? != some ' ' && !startsLikeIndicator cs &&
    !hasInnerIndicator cs && (plain? s).isNone then .plain
  else if cs.contains '\'' then .double
  else .single

/-! ## 2. Folding -/

/-- A text cut where spaces begin and end: words and runs of spaces in turn. -/
def runs : List Char → List (List Char)
  | [] => []
  | c :: cs => match runs cs with
    | (d :: run) :: rest =>
      if (c == ' ') = (d == ' ') then (c :: d :: run) :: rest else [c] :: (d :: run) :: rest
    | rest => [c] :: rest

def newLine (indent : Nat) : List Char := '\n' :: List.replicate indent ' '

/-- A plain text from this column on, going on at the indent. -/
def foldPlain (indent : Nat) : Nat → List (List Char) → List Char
  | _, [] => []
  | column, run :: rest =>
    let breaks :=
      if run.head? == some ' ' then run.length == 1 && lineWidth ≤ column
      else lineWidth < column + run.length && indent < column
    if breaks then
      if run.head? == some ' ' then newLine indent ++ foldPlain indent indent rest
      else newLine indent ++ run ++ foldPlain indent (indent + run.length) rest
    else run ++ foldPlain indent (column + run.length) rest

/-- What stands between single quotes, from this column on, going on at the indent. Spaces at either
    end stay. -/
def foldSingle (indent : Nat) (first : Bool) : Nat → List (List Char) → List Char
  | _, [] => []
  | column, run :: rest =>
    if run == [' '] && !first && !rest.isEmpty && lineWidth < column then
      newLine indent ++ foldSingle indent false indent rest
    else run ++ foldSingle indent false (column + run.length) rest

def escaped (c : Char) : List Char :=
  match c with
  | '"' => ['\\', '"']
  | '\\' => ['\\', '\\']
  | '\x00' => ['\\', '0']
  | '\x07' => ['\\', 'a']
  | '\x08' => ['\\', 'b']
  | '\t' => ['\\', 't']
  | '\n' => ['\\', 'n']
  | '\x0B' => ['\\', 'v']
  | '\x0C' => ['\\', 'f']
  | '\r' => ['\\', 'r']
  | '\x1B' => ['\\', 'e']
  | '\u0085' => ['\\', 'N']
  | '\u2028' => ['\\', 'L']
  | '\u2029' => ['\\', 'P']
  | c =>
    if isSpecial c then
      if c.toNat < 0x100 then '\\' :: 'x' :: Text.upperHexDigits 2 c.toNat
      else '\\' :: 'u' :: Text.upperHexDigits 4 c.toNat
    else [c]

/-- A text in its style, from this column on. A key is not folded. -/
def writeText (isKey : Bool) (indent column : Nat) (s : String) : List Char :=
  match styleOf s with
  | .plain => if isKey then s.toList else foldPlain indent column (runs s.toList)
  | .single =>
    '\'' ::
      (if isKey then s.toList else foldSingle indent true (column + 1) (runs s.toList)) ++ ['\'']
  | .double => '"' :: s.toList.flatMap escaped ++ ['"']

/-! ## 3. Scalars and collections -/

/-- A floating number: as a message shows it, the others by words after a point. -/
def writeFloat (x : Binary64) : List Char :=
  if x.isNaN then ['.', 'n', 'a', 'n']
  else if x.isFinite then x.display.toList
  else if x.negative then ['-', '.', 'i', 'n', 'f'] else ['.', 'i', 'n', 'f']

/-- Data that take one place on a line: scalars, and collections without members. Nothing is written
    for null. -/
def inline? (indent column : Nat) : Data → Option (List Char)
  | .null => some []
  | .bool b => some (if b then "true".toList else "false".toList)
  | .int n => some (toString n).toList
  | .float x => some (writeFloat x)
  | .string s => some (writeText false indent column s)
  | .list [] => some ['[', ']']
  | .map [] => some ['{', '}']
  | _ => none

/-- A key and its colon. A key with line ends stands alone after a question mark, and its colon
    starts a line of its own. -/
def writeKey (indent : Nat) (key : String) : List Char :=
  let text := writeText true indent indent key
  if key.toList.contains '\n' then '?' :: ' ' :: text ++ newLine indent ++ [':'] else text ++ [':']

def standsAlone (key : String) : Bool := key.toList.contains '\n'

mutual

def writeBlock (indent : Nat) : Data → List Char
  | .list items => writeItems indent items
  | .map entries => writeEntries indent entries
  | _ => []

def writeItems (indent : Nat) : List Data → List Char
  | [] => []
  | item :: items =>
    '-' :: ' ' :: (match inline? (indent + 2) (indent + 2) item with
      | some text => text
      | none => writeBlock (indent + 2) item) ++
    (if items.isEmpty then [] else newLine indent ++ writeItems indent items)

/-- Entries, each with its key in front. After a key that stands alone, a collection goes on at the
    colon. -/
def writeEntries (indent : Nat) : List (String × Data) → List Char
  | [] => []
  | (key, value) :: entries =>
    writeKey indent key ++ (
      let column :=
        if standsAlone key then indent + 2 else indent + (writeKey indent key).length + 1
      match inline? (indent + 2) column value with
      | some [] => []
      | some text => ' ' :: text
      | none =>
        if standsAlone key then ' ' :: writeBlock (indent + 2) value
        else match value with
          | .list items => newLine indent ++ writeItems indent items
          | .map inner => newLine (indent + 2) ++ writeEntries (indent + 2) inner
          | _ => []) ++
    (if entries.isEmpty then [] else newLine indent ++ writeEntries indent entries)

end

/-- Whether a scalar at the root is written without quotes. -/
def isOpen : Data → Bool
  | .string s => styleOf s == .plain
  | .list _ | .map _ => false
  | _ => true

/-- Data as a file. A scalar at the root that has no quotes is followed by the end of the document,
    and null is written out there. -/
def write (d : Data) : String :=
  let text := match d with
    | .null => "null".toList
    | d => (inline? 0 0 d).getD (writeBlock 0 d)
  String.ofList (text ++ '\n' :: (if isOpen d then ['.', '.', '.', '\n'] else []))

end Sigil.Yaml
