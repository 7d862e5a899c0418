import Sigil.Text.Hex
import Sigil.Outer.Yaml.Cursor

/-!
# Texts of scalars

A scalar is written plain, between single or double quotes, or as a block of lines. Over several
lines it is folded: a single line end reads as a space, and of several the first is dropped. Each
reader here takes the text after the scalar has begun and gives what it says and what follows it;
none says that the text is not well formed.
-/

namespace Sigil.Yaml

/-! ## 1. Gaps between words -/

/-- The blanks and line ends between two words of a scalar. -/
structure Gap where
  blanks : List Char := []
  breaks : List (List Char) := []

namespace Gap

def wraps (gap : Gap) : Bool := !gap.breaks.isEmpty

def fold (gap : Gap) : List Char :=
  match gap.breaks with
  | [] => gap.blanks
  | ['\n'] :: [] => [' ']
  | ['\n'] :: others => others.flatten
  | breaks => breaks.flatten

/-- The gap with one more blank; blanks around line ends do not count. -/
def addBlank (gap : Gap) (c : Char) : Gap :=
  if gap.wraps then gap else { gap with blanks := gap.blanks ++ [c] }

/-- The gap with one more line end. -/
def addBreak (gap : Gap) (lineEnd : List Char) : Gap := ⟨[], gap.breaks ++ [lineEnd]⟩

end Gap

/-! ## 2. Plain scalars -/

/-- A plain scalar: its text, what follows it and the gap after it, and whether that gap wraps. -/
structure PlainText where
  text : List Char
  rest : List Char
  wraps : Bool

/-- The characters that end a plain scalar within flow collections. -/
def endsInFlow (c : Char) (rest : List Char) : Bool :=
  c == ',' || c == '[' || c == ']' || c == '{' || c == '}' || (c == '?' && rest.head? == some ' ')

/-- The rest of a plain scalar from the column on, with the gap before it, none within a word. Lines
    that go on must stand at the indent at least. -/
def plainFrom (flow : Bool) (indent column : Nat) (gap : Option Gap) :
    List Char → Option PlainText
  | [] => some ⟨[], [], (gap.map Gap.wraps).getD false⟩
  | '\r' :: '\n' :: cs => plainFrom flow indent 0 (some ((gap.getD {}).addBreak ['\n'])) cs
  | c :: cs =>
    if isBreak c then
      let lineEnd := if c == '\u2028' || c == '\u2029' then [c] else ['\n']
      plainFrom flow indent 0 (some ((gap.getD {}).addBreak lineEnd)) cs
    else if isGap c then
      let gap := gap.getD {}
      if gap.wraps && column < indent && c == '\t' then none
      else plainFrom flow indent (column + 1) (some (gap.addBlank c)) cs
    else
      let wraps := (gap.map Gap.wraps).getD false
      let ended : PlainText := ⟨[], c :: cs, wraps⟩
      if gap.isSome && ((!flow && column < indent) || c == '#' ||
        (column == 0 && atSeparator (c :: cs))) then some ended
      else if flow && c == ':' &&
        (cs.head?.map fun d => ",?[]\x7b\x7d".toList.contains d) == some true
      then none
      else if (c == ':' && atGap cs) || (flow && endsInFlow c cs) then some ended
      else (plainFrom flow indent (column + 1) none cs).map fun more =>
        { more with text := (gap.map Gap.fold).getD [] ++ c :: more.text }

/-! ## 3. Quoted scalars -/

/-- What an escape of one letter stands for. -/
def escape? : Char → Option Char
  | '0' => some '\x00'
  | 'a' => some '\x07'
  | 'b' => some '\x08'
  | 't' | '\t' => some '\t'
  | 'n' => some '\n'
  | 'v' => some '\x0B'
  | 'f' => some '\x0C'
  | 'r' => some '\r'
  | 'e' => some '\x1B'
  | ' ' => some ' '
  | '"' => some '"'
  | '/' => some '/'
  | '\\' => some '\\'
  | 'N' => some '\u0085'
  | '_' => some '\u00A0'
  | 'L' => some '\u2028'
  | 'P' => some '\u2029'
  | _ => none

/-- The number of digits after the letter of an escape by code. -/
def codeWidth? : Char → Option Nat
  | 'x' => some 2
  | 'u' => some 4
  | 'U' => some 8
  | _ => none

/-- The character of a code of so many digits. -/
def codeChar? (width : Nat) (cs : List Char) : Option Char :=
  if (cs.take width).length < width then none
  else match Text.ofHexDigits? (cs.take width) with
    | some n => if n.isValidChar then some (Char.ofNat n) else none
    | none => none

/-- The gap that an escaped line end begins: it reads as nothing, and blanks after it
    do not count. -/
def joinedLines : Gap := ⟨[], [[]]⟩

/-- The rest of a quoted scalar up to its quote, from the column on, with the gap before it and the
    number of characters that belong to an escape already read. -/
def quotedFrom (quote : Char) (column pending : Nat) (gap : Option Gap) :
    List Char → Option (List Char × List Char)
  | [] => none
  | c :: cs =>
    match pending with
    | more + 1 => quotedFrom quote (column + 1) more gap cs
    | 0 =>
      if c == '\r' && cs.head? == some '\n' then quotedFrom quote column 0 gap cs
      else if isBreak c then
        let lineEnd := if c == '\u2028' || c == '\u2029' then [c] else ['\n']
        quotedFrom quote 0 0 (some ((gap.getD {}).addBreak lineEnd)) cs
      else if isGap c then quotedFrom quote (column + 1) 0 (some ((gap.getD {}).addBlank c)) cs
      else if column == 0 && gap.isSome && atSeparator (c :: cs) then none
      else
        let before := (gap.map Gap.fold).getD []
        let say (said : List Char) (taken : Nat) : Option (List Char × List Char) :=
          (quotedFrom quote (column + 1) taken none cs).map fun more =>
            (before ++ said ++ more.1, more.2)
        if c == quote then
          if quote == '\'' && cs.head? == some '\'' then say ['\''] 1 else some (before, cs)
        else if quote == '"' && c == '\\' then
          match cs with
          | [] => none
          | '\r' :: '\n' :: ds =>
            (quotedFrom quote 0 0 (some joinedLines) ds).map fun more => (before ++ more.1, more.2)
          | d :: ds =>
            if isBreak d then
              (quotedFrom quote 0 0 (some joinedLines) ds).map fun more =>
                (before ++ more.1, more.2)
            else match escape? d, codeWidth? d with
              | some e, _ => say [e] 1
              | none, some width => match codeChar? width ds with
                | some e => say [e] (width + 1)
                | none => none
              | none, none => none
        else say [c] 0

/-! ## 4. Blocks of lines -/

/-- What becomes of the line ends at the end of a block: the last one stays, all stay, or none. -/
inductive Chomp where
  | clip
  | keep
  | strip
  deriving DecidableEq, Repr

/-- What a character of the head says about the end. -/
def chomp? : Char → Option Chomp
  | '+' => some .keep
  | '-' => some .strip
  | _ => none

/-- What a character of the head says about the indent: a digit that is not zero. -/
def indentDigit? (c : Char) : Option Nat :=
  if '1' ≤ c ∧ c ≤ '9' then some (c.toNat - '0'.toNat) else none

/-- The marks at the head of a block, in either order, and what follows them. -/
def headMarks : List Char → Chomp × Option Nat × List Char
  | c :: cs => match chomp? c, indentDigit? c with
    | some chomp, _ => match cs with
      | d :: ds => match indentDigit? d with
        | some n => (chomp, some n, ds)
        | none => (chomp, none, cs)
      | [] => (chomp, none, [])
    | none, some n => match cs with
      | d :: ds => match chomp? d with
        | some chomp => (chomp, some n, ds)
        | none => (.clip, some n, cs)
      | [] => (.clip, some n, [])
    | none, none => (.clip, none, c :: cs)
  | [] => (.clip, none, [])

/-- A text up to the end of its line. -/
def lineOf (cs : List Char) : List Char := cs.takeWhile fun c => !isBreak c

/-- What follows the head of a block: only a gap and a comment may stand on its line. -/
def afterHead (cs : List Char) : Option (List Char) :=
  let rest := cs.dropWhile isGap
  let rest := if rest.head? == some '#' then rest.drop (lineOf rest).length else rest
  match rest with
  | [] => some []
  | rest => (lineBreak? rest).map Prod.snd

/-- Empty lines before a line of a block: their line ends, the deepest column that spaces reach, the
    column of the line, and the line from there. Spaces are passed over up to the indent if that is
    known. There is none if a tab stands where the indent should. -/
def emptyLines (indent : Option Nat) :
    Nat → Nat → List Char → Option (List (List Char) × Nat × Nat × List Char)
  | 0, _, _ => none
  | rounds + 1, deepest, cs =>
    let spaces := (cs.takeWhile (· == ' ')).length
    let column := match indent with
      | some n => min n spaces
      | none => spaces
    let rest := cs.drop column
    let deepest := max deepest column
    let short := match indent with
      | some n => column < n
      | none => true
    if short && rest.head? == some '\t' then none
    else match lineBreak? rest with
      | some (lineEnd, next) => (emptyLines indent rounds deepest next).map fun found =>
        (lineEnd :: found.1, found.2)
      | none => some ([], deepest, column, rest)

/-- The lines of a block from one that stands at the indent, with the line end before it, the empty
    lines before it, and whether the line before that starts with a gap. At the end come the last
    line end and the empty lines after it. -/
def blockLines (folded : Bool) (indent : Nat) :
    Nat → List Char → List (List Char) → Bool → Nat → List Char →
      Option (List Char × List Char × List (List Char) × List Char)
  | 0, _, _, _, _, _ => none
  | rounds + 1, lineEnd, empty, gapBefore, column, cs =>
    if column == indent && !cs.isEmpty then do
      let gapHere := (cs.head?.map isGap).getD false
      let joined :=
        if folded && lineEnd == ['\n'] && !gapBefore && !gapHere then
          if empty.isEmpty then [' '] else []
        else lineEnd
      let line := lineOf cs
      let rest := cs.drop line.length
      let (nextEnd, rest) := (lineBreak? rest).getD ([], rest)
      let (nextEmpty, _, nextColumn, rest) ← emptyLines (some indent) (rest.length + 1) 0 rest
      let (text, last, tail, rest) ←
        blockLines folded indent rounds nextEnd nextEmpty gapHere nextColumn rest
      return (joined ++ empty.flatten ++ line ++ text, last, tail, rest)
    else some ([], lineEnd, empty, cs)

/-- The text of a block, and what follows it. `outer` is the column of the collection around
    it, none at the root. -/
def blockFrom (folded : Bool) (outer : Option Nat) (cs : List Char) :
    Option (List Char × List Char) := do
  let (chomp, digit, rest) := headMarks cs
  let rest ← afterHead rest
  let least := max 1 ((outer.map (· + 1)).getD 0)
  let given := digit.map fun n => (outer.getD 0) + n
  let (empty, deepest, column, rest) ← emptyLines given (rest.length + 1) 0 rest
  let indent := given.getD (max deepest least)
  let (text, last, tail, rest) ← blockLines folded indent (rest.length + 1) [] empty
    false column rest
  let ending := match chomp with
    | .strip => []
    | .clip => last
    | .keep => last ++ tail.flatten
  return (text ++ ending, rest)

end Sigil.Yaml
