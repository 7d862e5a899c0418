import Sigil.Outer.Yaml.Scalar
import Sigil.Outer.Yaml.Tag

/-!
# Tokens of a file

The text of a file is read as tokens that make its nesting explicit. Between brackets the nesting is
written; outside, it is in the indentation: a collection starts where an item or a key stands
further in than those around it, and ends where something stands further out.

A key is not marked in front. So wherever a key may start the place is remembered, and when a colon
follows on the same line, the marks of the key, and of the map if it starts here, are put in there.
A place is required to be a key if it stands exactly at the indentation of its collection.
-/

namespace Sigil.Yaml

inductive Token where
  | directive
  | handle (name start : List Char)
  | documentStart
  | documentEnd
  | blockList
  | blockMap
  | blockEnd
  | flowList
  | flowListEnd
  | flowMap
  | flowMapEnd
  | comma
  | dash
  | key
  | colon
  | alias (name : List Char)
  | anchor (name : List Char)
  | tag (tag : WrittenTag)
  | scalar (plain : Bool) (text : List Char)
  deriving DecidableEq, Repr

/-- A place where a key may have started. -/
structure KeyPlace where
  /-- How many tokens come before it. -/
  before : Nat
  index : Nat
  line : Nat
  column : Nat
  required : Bool
  deriving Repr

/-- How far a file has been read. -/
structure Scanner where
  cursor : Cursor
  /-- The tokens so far, the last one first. -/
  tokens : List Token := []
  /-- The columns of the block collections around, the innermost first. -/
  indents : List Nat := []
  /-- The place of a key at each level of brackets, the innermost first. -/
  keys : List (Option KeyPlace) := [none]
  keyAllowed : Bool := true

namespace Scanner

/-! ## 1. Parts of the state -/

def inFlow (s : Scanner) : Bool := 1 < s.keys.length

/-- The column of the innermost block collection. -/
def indent? (s : Scanner) : Option Nat := s.indents.head?

/-- Whether a column stands further in than the innermost block collection. -/
def isInside (s : Scanner) (column : Nat) : Bool :=
  match s.indent? with
  | some indent => indent < column
  | none => true

def add (s : Scanner) (t : Token) : Scanner := { s with tokens := t :: s.tokens }

/-- The state with tokens put in after the first so many. -/
def addAfter (s : Scanner) (count : Nat) (ts : List Token) : Scanner :=
  let late := s.tokens.length - count
  { s with tokens := s.tokens.take late ++ ts.reverse ++ s.tokens.drop late }

def moveTo (s : Scanner) (rest : List Char) : Scanner := { s with cursor := s.cursor.moveTo rest }

def skip (s : Scanner) (n : Nat) : Scanner := { s with cursor := s.cursor.skip n }

/-! ## 2. Keys -/

/-- The longest distance between the start of a key and its colon. -/
def maxKeyLength : Nat := 1024

/-- Whether a colon here can no longer belong to that place. -/
def isStale (s : Scanner) (place : KeyPlace) : Bool :=
  place.line < s.cursor.line || place.index + maxKeyLength < s.cursor.index

/-- The state without the places of keys that are too far back; none if one of them was required. -/
def dropStale (s : Scanner) : Option Scanner :=
  let stale (place : Option KeyPlace) : Bool := (place.map s.isStale).getD false
  if s.keys.any fun place => stale place && (place.map KeyPlace.required).getD false then none
  else some { s with keys := s.keys.map fun place => if stale place then none else place }

/-- The state without the place of a key at this level; none if it was required. -/
def dropKey (s : Scanner) : Option Scanner :=
  match s.keys with
  | some place :: outer => if place.required then none else some { s with keys := none :: outer }
  | _ => some s

/-- The state with this place as that of a key, if one may start here. -/
def saveKey (s : Scanner) : Option Scanner :=
  if s.keyAllowed then do
    let s ← s.dropKey
    let c := s.cursor
    let place : KeyPlace :=
      ⟨s.tokens.length, c.index, c.line, c.column, !s.inFlow && s.indent? == some c.column⟩
    return { s with keys := some place :: s.keys.drop 1 }
  else some s

/-! ## 3. Indentation -/

/-- The state with the block collections ended that stand further in than the column. -/
def closeTo (s : Scanner) (column : Nat) : Scanner :=
  if s.inFlow then s
  else
    let closed := s.indents.takeWhile fun indent => column < indent
    { s with
      tokens := closed.map (fun _ => Token.blockEnd) ++ s.tokens
      indents := s.indents.drop closed.length }

/-- The state with all block collections ended. -/
def closeAll (s : Scanner) : Scanner :=
  if s.inFlow then s
  else { s with tokens := s.indents.map (fun _ => Token.blockEnd) ++ s.tokens, indents := [] }

/-- The state with a block collection started at the column, if that stands further in; its token
    goes after the first so many. -/
def openAt (s : Scanner) (column count : Nat) (t : Token) : Scanner :=
  if !s.inFlow && s.isInside column then
    { s.addAfter count [t] with indents := column :: s.indents }
  else s

/-! ## 4. Gaps between tokens -/

/-- The text after the blanks, comments and line ends before a token, and whether a line has ended.
    A tab is no blank where a key may start. -/
def gap (flow : Bool) (keyAllowed inComment : Bool) : List Char → List Char × Bool
  | [] => ([], keyAllowed)
  | c :: cs =>
    if isBreak c then gap flow (keyAllowed || !flow) false cs
    else if inComment then gap flow keyAllowed true cs
    else if c == ' ' || (c == '\t' && (flow || !keyAllowed)) then gap flow keyAllowed false cs
    else if c == '#' then gap flow keyAllowed true cs
    else (c :: cs, keyAllowed)

def toNext (s : Scanner) : Scanner :=
  let (rest, keyAllowed) := gap s.inFlow s.keyAllowed false s.cursor.rest
  { s.moveTo rest with keyAllowed }

/-! ## 5. Tokens one by one -/

/-- A line with a directive: the version, or a handle for tags. -/
def directive (s : Scanner) (cs : List Char) : Option Scanner := do
  let s ← s.closeAll.dropKey
  let line := lineOf cs
  let words := (String.ofList (line.takeWhile (· != '#'))).splitOn " " |>.filter (· != "")
  let t ← match words with
    | ["YAML", "1.2"] | ["YAML", "1.1"] => some .directive
    | ["TAG", name, start] => some (.handle name.toList start.toList)
    | _ => none
  return { (s.moveTo (cs.drop line.length)).add t with keyAllowed := false }

/-- A line that separates documents. -/
def separator (s : Scanner) (t : Token) : Option Scanner := do
  let s ← s.closeAll.dropKey
  return { (s.skip 3).add t with keyAllowed := false }

def openFlow (s : Scanner) (t : Token) : Option Scanner := do
  let s ← s.saveKey
  return { (s.skip 1).add t with keyAllowed := true, keys := none :: s.keys }

def closeFlow (s : Scanner) (t : Token) : Option Scanner := do
  let s ← s.dropKey
  let keys := if s.inFlow then s.keys.drop 1 else s.keys
  return { (s.skip 1).add t with keyAllowed := false, keys }

def comma (s : Scanner) : Option Scanner := do
  let s ← s.dropKey
  return { (s.skip 1).add .comma with keyAllowed := true }

def dash (s : Scanner) : Option Scanner := do
  if !s.inFlow && !s.keyAllowed then none
  let s ← (s.openAt s.cursor.column s.tokens.length .blockList).dropKey
  return { (s.skip 1).add .dash with keyAllowed := true }

def questionMark (s : Scanner) : Option Scanner := do
  if !s.inFlow && !s.keyAllowed then none
  let s ← (s.openAt s.cursor.column s.tokens.length .blockMap).dropKey
  return { (s.skip 1).add .key with keyAllowed := !s.inFlow }

def colon (s : Scanner) : Option Scanner :=
  match s.keys with
  | some place :: outer =>
    let s := (s.addAfter place.before [.key]).openAt place.column place.before .blockMap
    some { (s.skip 1).add .colon with keyAllowed := false, keys := none :: outer }
  | _ =>
    if !s.inFlow && !s.keyAllowed then none
    else
      let s := s.openAt s.cursor.column s.tokens.length .blockMap
      some { (s.skip 1).add .colon with keyAllowed := !s.inFlow }

/-- A token before or in place of a node, after the sign it starts with. -/
def property (s : Scanner) (t : Token) (rest : List Char) : Option Scanner := do
  let s ← s.saveKey
  return { (s.moveTo rest).add t with keyAllowed := false }

def block (s : Scanner) (folded : Bool) (cs : List Char) : Option Scanner := do
  let s ← s.dropKey
  let (text, rest) ← blockFrom folded s.indent? cs
  return { (s.moveTo rest).add (.scalar false text) with keyAllowed := true }

def quoted (s : Scanner) (quote : Char) (cs : List Char) : Option Scanner := do
  let s ← s.saveKey
  let (text, rest) ← quotedFrom quote (s.cursor.column + 1) 0 none cs
  return { (s.moveTo rest).add (.scalar false text) with keyAllowed := false }

/-- A plain scalar. A key may start after it if it reaches the end of its line. -/
def plain (s : Scanner) (cs : List Char) : Option Scanner := do
  let s ← s.saveKey
  let least := (s.indent?.map (· + 1)).getD 0
  let found ← plainFrom s.inFlow least s.cursor.column none cs
  return { (s.moveTo found.rest).add (.scalar true found.text) with keyAllowed := found.wraps }

/-- The signs that no plain scalar starts with, unless as the next function says. -/
def signs : List Char := "-?:,[]\x7b\x7d#&*!|>'\"%@\x60".toList

/-- Whether a plain scalar starts with this character. -/
def startsPlain (flow : Bool) (c : Char) (cs : List Char) : Bool :=
  (!signs.contains c && !isGap c) || (c == '-' && !atGap cs) ||
    (!flow && (c == '?' || c == ':') && !atGap cs)

/-- The next token at a character that starts one; none if no token starts like this. -/
def next (s : Scanner) (c : Char) (cs : List Char) : Option Scanner :=
  let flow := s.inFlow
  if s.cursor.column == 0 && c == '%' then s.directive cs
  else if s.cursor.column == 0 && atSeparator (c :: cs) then
    s.separator (if c == '-' then .documentStart else .documentEnd)
  else match c with
    | '[' => s.openFlow .flowList
    | '{' => s.openFlow .flowMap
    | ']' => s.closeFlow .flowListEnd
    | '}' => s.closeFlow .flowMapEnd
    | ',' => s.comma
    | '*' => do let (name, rest) ← anchorFrom cs; s.property (.alias name) rest
    | '&' => do let (name, rest) ← anchorFrom cs; s.property (.anchor name) rest
    | '!' => do let (tag, rest) ← tagFrom flow cs; s.property (.tag tag) rest
    | '\'' => s.quoted '\'' cs
    | '"' => s.quoted '"' cs
    | c =>
      if c == '-' && atGap cs then s.dash
      else if c == '?' && (flow || atGap cs) then s.questionMark
      else if c == ':' && (flow || atGap cs) then s.colon
      else if c == '|' && !flow then s.block false cs
      else if c == '>' && !flow then s.block true cs
      else if startsPlain flow c cs then s.plain (c :: cs)
      else none

/-- All tokens, in at most so many rounds; each round takes a character at least. -/
def run : Nat → Scanner → Option (List Token)
  | 0, _ => none
  | rounds + 1, s => do
    let s ← s.toNext.dropStale
    let s := s.closeTo s.cursor.column
    match s.cursor.rest with
    | [] => do
      let s ← s.closeAll.dropKey
      return s.tokens.reverse
    | c :: cs => run rounds (← s.next c cs)

end Scanner

/-- The tokens of a text; none if it is not well formed. A mark of the byte order in front does not
    count. -/
def tokens? (cs : List Char) : Option (List Token) :=
  let cs := if cs.head? == some '\uFEFF' then cs.drop 1 else cs
  if cs.all isAllowed then Scanner.run (cs.length + 1) { cursor := { rest := cs } } else none

end Sigil.Yaml
