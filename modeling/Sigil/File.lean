import Sigil.Exception
import Sigil.Text.Lines

/-!
# Files

A program asks for what stands under a path and gets an entry: nothing, a directory, or a file with
its bytes. A file is read as a text whose lines end in a line feed, whatever ends them in the bytes.
-/

namespace Sigil

/-- What stands under a path. -/
inductive Entry where
  | absent
  /-- A part of the path that should be a directory is a file. -/
  | blocked
  | directory
  | locked
  | file (bytes : List UInt8)
  deriving DecidableEq, Repr

/-- A path without empty parts and parts that stay in place, as a message shows it. Two slashes in
    front, and no more, are kept. -/
def shownPath (path : String) : String :=
  let cs := path.toList
  let slashes := (cs.takeWhile (· == '/')).length
  let root := if slashes = 2 then "//" else if 0 < slashes then "/" else ""
  let parts := ((Text.pieces '/' cs).map String.ofList).filter fun part => part != "" && part != "."
  let shown := root ++ "/".intercalate parts
  if shown.isEmpty then "." else shown

def File.text (bytes : List UInt8) : Except Exception (List Char) :=
  match Text.Utf8.decode bytes with
  | .ok cs => .ok (Text.unifyLineEnds cs)
  | .error why => .error (.notText why)

def Entry.text (path : String) : Entry → Except Exception (List Char)
  | .absent => .error (.system ⟨2, "No such file or directory", shownPath path⟩)
  | .blocked => .error (.system ⟨20, "Not a directory", shownPath path⟩)
  | .directory => .error (.system ⟨21, "Is a directory", shownPath path⟩)
  | .locked => .error (.system ⟨13, "Permission denied", shownPath path⟩)
  | .file bytes => File.text bytes

end Sigil
