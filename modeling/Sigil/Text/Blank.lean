/-!
# Blank characters and trimming

A character is blank when it is white space in the wide sense: a space separator, or a control
character whose text direction is that of white space or of a separator. Between two tokens, around
a declaration and around a warning code exactly these characters do not count. The set is closed
under nothing else: a zero width space and a byte order mark are ordinary characters.
-/

namespace Sigil.Text

/-! ## 1. The class -/

/-- The blank characters: the controls `09`-`0D` and `1C`-`1F`, next line, and every space, line
    and paragraph separator. -/
def isBlank (c : Char) : Bool :=
  let n := c.toNat
  (0x09 ≤ n && n ≤ 0x0D) || (0x1C ≤ n && n ≤ 0x20) || n == 0x85 || n == 0xA0 || n == 0x1680 ||
    (0x2000 ≤ n && n ≤ 0x200A) || n == 0x2028 || n == 0x2029 || n == 0x202F || n == 0x205F ||
    n == 0x3000

/-! ## 2. Trimming -/

def trimStart (cs : List Char) : List Char := cs.dropWhile isBlank

def trimEnd (cs : List Char) : List Char := (cs.reverse.dropWhile isBlank).reverse

def trim (cs : List Char) : List Char := trimEnd (trimStart cs)

def trimmed (s : String) : String := String.ofList (trim s.toList)

end Sigil.Text
