import Sigil.Text.Hex
import Sigil.Text.Name
import Sigil.Outer.Yaml.Cursor

/-!
# Tags and anchors

A node may be tagged with the kind of value it is meant to be, and anchored under a name by which an
alias can repeat it. A tag is written in full between angle brackets, or as a handle and a suffix;
the handle is an abbreviation for the start of the full tag.
-/

namespace Sigil.Yaml

/-- A tag as written: a handle, empty for a tag in full, and the rest. -/
structure WrittenTag where
  handle : List Char
  suffix : List Char
  deriving DecidableEq, Repr

def isWordChar (c : Char) : Bool := Text.isNameChar c || c == '-'

/-- A character of a tag that stands for itself. -/
def isTagChar (c : Char) : Bool :=
  isWordChar c || ";/?:@&=+$.!~*'()".toList.contains c

/-- A character of a tag in full. -/
def isFullTagChar (c : Char) : Bool := isTagChar c || c == ',' || c == '[' || c == ']'

/-- The code of a byte after a percent sign. Only bytes of the basic script are read. -/
def byteChar? (high low : Char) : Option Char := do
  let n := 16 * (← Text.hexValue? high) + (← Text.hexValue? low)
  if n < 0x80 then some (Char.ofNat n) else none

/-- The characters of a tag, and what follows them; none if a code is not well formed. -/
def tagChars (allowed : Char → Bool) : List Char → Option (List Char × List Char)
  | [] => some ([], [])
  | '%' :: high :: low :: cs => do
    let c ← byteChar? high low
    let more ← tagChars allowed cs
    return (c :: more.1, more.2)
  | c :: cs =>
    if c == '%' then none
    else if allowed c then (tagChars allowed cs).map fun more => (c :: more.1, more.2)
    else some ([], c :: cs)

/-- Whether a tag may end here. -/
def endsTag (flow : Bool) (cs : List Char) : Bool := atGap cs || (flow && cs.head? == some ',')

/-- The tag that a text spells after its exclamation mark, and what follows it. A word between two
    exclamation marks is a handle; a tag without a suffix is the exclamation mark alone. -/
def tagFrom (flow : Bool) (cs : List Char) : Option (WrittenTag × List Char) := do
  let (tag, rest) ← match cs with
    | '<' :: cs => do
      let (suffix, rest) ← tagChars isFullTagChar cs
      match suffix, rest with
      | [], _ => none
      | suffix, '>' :: rest => some (⟨[], suffix⟩, rest)
      | _, _ => none
    | cs =>
      let word := cs.takeWhile isWordChar
      match cs.drop word.length with
      | '!' :: rest => do
        let (suffix, rest) ← tagChars isTagChar rest
        if suffix.isEmpty then none else some (⟨'!' :: word ++ ['!'], suffix⟩, rest)
      | _ => do
        let (suffix, rest) ← tagChars isTagChar cs
        some (if suffix.isEmpty then ⟨[], ['!']⟩ else ⟨['!'], suffix⟩, rest)
  if endsTag flow rest then some (tag, rest) else none

/-- The name of an anchor or an alias after its sign, and what follows it. -/
def anchorFrom (cs : List Char) : Option (List Char × List Char) :=
  let word := cs.takeWhile isWordChar
  let rest := cs.drop word.length
  let ends :=
    atGap rest || (rest.head?.map fun c => "?:,]\x7d%@\x60".toList.contains c) == some true
  if !word.isEmpty && ends then some (word, rest) else none

/-- The full tags of the standard kinds start like this. -/
def standardStart : List Char := "tag:yaml.org,2002:".toList

/-- A tag in full, by the handles that a document declares and the two that every document has. -/
def WrittenTag.full? (handles : List (List Char × List Char)) (tag : WrittenTag) :
    Option (List Char) :=
  match tag.handle with
  | [] => some tag.suffix
  | handle =>
    match (handles.find? fun entry => entry.1 == handle).map Prod.snd with
    | some start => some (start ++ tag.suffix)
    | none =>
      if handle = ['!'] then some ('!' :: tag.suffix)
      else if handle = ['!', '!'] then some (standardStart ++ tag.suffix)
      else none

end Sigil.Yaml
