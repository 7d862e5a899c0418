import Sigil.Outer.Yaml.Token

/-!
# Nodes

The tokens of a file are read as one node: a scalar, a list or a map, with the tag it may have. An
alias is the node that was last anchored under its name, so a node cannot be part of itself. Where a
node is due and nothing stands, it is the empty plain scalar.
-/

namespace Sigil.Yaml

/-- A node, with its tag in full if it has one. -/
inductive Node where
  | scalar (tag : Option (List Char)) (plain : Bool) (text : String)
  | list (tag : Option (List Char)) (items : List Node)
  | map (tag : Option (List Char)) (entries : List (Node × Node))
  deriving Inhabited

/-- What is left to read, and what has been named on the way. -/
structure Source where
  tokens : List Token
  anchors : List (List Char × Node) := []
  handles : List (List Char × List Char) := []

namespace Node

abbrev Read := StateT Source Option

def empty : Node := .scalar none true ""

def peek : Read (Option Token) := do return (← get).tokens.head?

/-- Goes on to the next token but one. -/
def drop : Read Unit := modify fun s => { s with tokens := s.tokens.drop 1 }

def nextIs (ts : List Token) : Read Bool := do
  return match ← peek with
    | some t => ts.contains t
    | none => false

def expect (t : Token) : Read Unit := do
  if ← nextIs [t] then drop else failure

/-- The anchor and the tag in front of a node, each at most once, in either order. -/
def properties : Nat → Option (List Char) → Option WrittenTag →
    Read (Option (List Char) × Option WrittenTag)
  | 0, anchor, tag => return (anchor, tag)
  | rounds + 1, anchor, tag => do
    match ← peek, anchor, tag with
    | some (.anchor name), none, tag => drop; properties rounds (some name) tag
    | some (.tag t), anchor, none => drop; properties rounds anchor (some t)
    | _, anchor, tag => return (anchor, tag)

/-- The full tag of a node. The exclamation mark alone says no more than no tag. -/
def fullTag (tag : Option WrittenTag) : Read (Option (List Char)) := do
  match tag with
  | none => return none
  | some tag => match tag.full? (← get).handles with
    | some full => return (if full = ['!'] then none else some full)
    | none => failure

mutual

/-- A node, in at most so many steps. Block collections may start only where `block` says so, and an
    indented list may stand at the column of its map where `loose` does. -/
def node : Nat → Bool → Bool → Read Node
  | 0, _, _ => failure
  | n + 1, block, loose => do
    if let some (.alias name) ← peek then
      drop
      match ((← get).anchors.find? fun entry => entry.1 == name).map Prod.snd with
      | some found => return found
      | none => failure
    let (anchor, written) ← properties 2 none none
    let tag ← fullTag written
    let found ← match ← peek with
      | some .dash =>
        if loose then do pure (Node.list tag (← looseItems n)) else bare anchor written tag
      | some (.scalar plain text) => do
        drop
        pure (Node.scalar tag (plain || (tag.isNone && written.isSome)) (String.ofList text))
      | some .flowList => do drop; pure (Node.list tag (← flowItems n true))
      | some .flowMap => do drop; pure (Node.map tag (← flowEntries n true))
      | some .blockList =>
        if block then do drop; pure (Node.list tag (← blockItems n)) else bare anchor written tag
      | some .blockMap =>
        if block then do drop; pure (Node.map tag (← blockEntries n)) else bare anchor written tag
      | _ => bare anchor written tag
    if let some name := anchor then
      modify fun s => { s with anchors := (name, found) :: s.anchors }
    return found

/-- A node that is nothing but its anchor or its tag. -/
def bare (anchor : Option (List Char)) (written : Option WrittenTag) (tag : Option (List Char)) :
    Read Node :=
  if anchor.isSome || written.isSome then return .scalar tag true "" else failure

/-- A node, unless one of these tokens is next. -/
def nodeUnless : Nat → List Token → Bool → Bool → Read Node
  | 0, _, _, _ => failure
  | n + 1, ends, block, loose => do
    if ← nextIs ends then return empty else node n block loose

/-- The items of a block list, up to its end. -/
def blockItems : Nat → Read (List Node)
  | 0 => failure
  | n + 1 => do
    if ← nextIs [.dash] then
      drop
      let item ← nodeUnless n [.dash, .blockEnd] true false
      return item :: (← blockItems n)
    else
      expect .blockEnd
      return []

/-- The items of a list at the column of its map. -/
def looseItems : Nat → Read (List Node)
  | 0 => failure
  | n + 1 => do
    if ← nextIs [.dash] then
      drop
      let item ← nodeUnless n [.dash, .key, .colon, .blockEnd] true false
      return item :: (← looseItems n)
    else return []

/-- The entries of a block map, up to its end. -/
def blockEntries : Nat → Read (List (Node × Node))
  | 0 => failure
  | n + 1 => do
    if ← nextIs [.key] then
      drop
      let key ← nodeUnless n [.key, .colon, .blockEnd] true true
      let value ← if ← nextIs [.colon] then do
          drop
          nodeUnless n [.key, .colon, .blockEnd] true true
        else pure empty
      return (key, value) :: (← blockEntries n)
    else
      expect .blockEnd
      return []

/-- The value after a key between brackets, if there is one. -/
def flowValue : Nat → Token → Read Node
  | 0, _ => failure
  | n + 1, close => do
    if ← nextIs [.colon] then
      drop
      nodeUnless n [.comma, close] false false
    else return empty

/-- The items of a list between brackets. A key there starts a map of one entry. -/
def flowItems : Nat → Bool → Read (List Node)
  | 0, _ => failure
  | n + 1, first => do
    if ← nextIs [.flowListEnd] then
      drop
      return []
    if !first then expect .comma
    if ← nextIs [.flowListEnd] then
      drop
      return []
    let item ← if ← nextIs [.key] then do
        drop
        let key ← nodeUnless n [.colon, .comma, .flowListEnd] false false
        pure (Node.map none [(key, ← flowValue n .flowListEnd)])
      else node n false false
    return item :: (← flowItems n false)

/-- The entries of a map between brackets. A node without a colon is a key. -/
def flowEntries : Nat → Bool → Read (List (Node × Node))
  | 0, _ => failure
  | n + 1, first => do
    if ← nextIs [.flowMapEnd] then
      drop
      return []
    if !first then expect .comma
    if ← nextIs [.flowMapEnd] then
      drop
      return []
    let entry ← if ← nextIs [.key] then do
        drop
        let key ← nodeUnless n [.colon, .comma, .flowMapEnd] false false
        pure (key, ← flowValue n .flowMapEnd)
      else do pure (← node n false false, empty)
    return entry :: (← flowEntries n false)

end

/-- The directives in front of a document. -/
def directives : Nat → Read Bool
  | 0 => failure
  | n + 1 => do
    match ← peek with
    | some .directive => drop; let _ ← directives n; return true
    | some (.handle name start) =>
      drop
      modify fun s => { s with handles := (name, start) :: s.handles }
      let _ ← directives n
      return true
    | _ => return false

/-- Passes over ends of documents. -/
def documentEnds : Nat → Read Unit
  | 0 => failure
  | n + 1 => do if ← nextIs [.documentEnd] then do drop; documentEnds n

/-- The only document of a file; none if the file is empty. -/
def document (n : Nat) : Read (Option Node) := do
  documentEnds n
  if (← peek).isNone then return none
  if ← directives n then expect .documentStart
  else if ← nextIs [.documentStart] then drop
  let whole ← if (← peek).isNone then pure empty
    else nodeUnless n [.directive, .documentStart, .documentEnd] true false
  documentEnds n
  if (← peek).isSome then failure
  return some whole

/-- The node of the tokens of a file, none if the file is empty; no answer if they do not nest. -/
def ofTokens? (tokens : List Token) : Option (Option Node) :=
  ((document (4 * tokens.length + 8)).run { tokens }).map Prod.fst

end Node

end Sigil.Yaml
