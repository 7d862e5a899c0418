import Mathlib.Algebra.BigOperators.Group.List.Basic
import Sigil.Proofs.Expr.Grammar
import Sigil.Proofs.Token.Respaced

/-!
# Line ends in a tree

The line ends of a tree are those of its strings: the values of its literals and the keys of its
objects. They are the line ends of any lexemes that spell the tree (`Derives.lineEnds_eq`), as
brackets, commas and parentheses hold none.
-/

namespace Sigil.Expr

open Token (lineEnds)

/-! ## 1. Strings of a tree -/

/-- The strings of a node: its value, or its keys. -/
def strings : Expr → List String
  | .string value => [value]
  | .object fields => fields.map Prod.fst
  | _ => []

/-- How many line ends some strings hold. -/
def lineEndsOf (ss : List String) : Nat := (ss.map fun s => Text.lineEnds s.toList).sum

/-- How many line ends the strings of a tree hold. -/
def lineEnds (e : Expr) : Nat := (e.parts.map fun part => lineEndsOf part.strings).sum

/-- The line ends of a tree are those of its node and those of its children. -/
theorem lineEnds_eq (e : Expr) :
    e.lineEnds = lineEndsOf e.strings + (e.children.map lineEnds).sum := by
  unfold lineEnds
  rw [parts_eq, List.map_cons, List.sum_cons, List.map_flatMap, List.flatMap_def, List.sum_flatten,
    List.map_map]
  rfl

/-! ## 2. Line ends of words -/

theorem lineEnds_append (w v : List Lexeme) :
    Token.lineEnds (w ++ v) = Token.lineEnds w + Token.lineEnds v := by
  unfold Token.lineEnds
  rw [List.map_append, List.sum_append]

theorem lineEnds_bracketed {s t : Symbol} (w : List Lexeme) :
    Token.lineEnds (.symbol s :: (w ++ [.symbol t])) = Token.lineEnds w := by
  have hleft : (Lexeme.symbol s).lineEnds = 0 := rfl
  have hright : Token.lineEnds [.symbol t] = 0 := rfl
  rw [Token.lineEnds_cons, lineEnds_append, hleft, hright, Nat.zero_add, Nat.add_zero]

theorem lineEnds_fieldWord (key : String) (w : List Lexeme) :
    Token.lineEnds (fieldWord key w) = Text.lineEnds key.toList + Token.lineEnds w := by
  have hcolon : (Lexeme.symbol .colon).lineEnds = 0 := rfl
  unfold fieldWord
  rw [Token.lineEnds_cons, Token.lineEnds_cons, hcolon, Nat.zero_add]
  rfl

theorem lineEnds_commaSeparated (ws : List (List Lexeme)) :
    Token.lineEnds (commaSeparated ws) = (ws.map Token.lineEnds).sum := by
  induction ws with
  | nil => rfl
  | cons w ws ih =>
    cases ws with
    | nil => exact (Nat.add_zero _).symm
    | cons v ws =>
      have hcomma : (Lexeme.symbol .comma).lineEnds = 0 := rfl
      rw [commaSeparated, lineEnds_append, Token.lineEnds_cons, hcomma, Nat.zero_add, ih]
      rfl

/-- **A word holds the line ends of the tree that it derives.** -/
theorem Derives.lineEnds_eq {d q : Nat} {w : List Lexeme} {e : Expr} (h : Derives d q w e) :
    Token.lineEnds w = e.lineEnds := by
  induction h with
  | lower _ ih => exact ih
  | group _ ih => rw [lineEnds_bracketed, ih]
  | similarity _ ih =>
    rw [lineEnds_bracketed, ih, Expr.lineEnds_eq (.similarity _)]
    simp [lineEndsOf, strings, children]
  | difference _ _ ih =>
    rw [lineEnds_bracketed, ih, Expr.lineEnds_eq (.difference _)]
    simp [lineEndsOf, strings, children]
  | array items _ _ ih =>
    have heach : (items.map Prod.fst).map Token.lineEnds = (items.map Prod.snd).map lineEnds := by
      rw [List.map_map, List.map_map]
      exact List.map_congr_left ih
    rw [lineEnds_bracketed, lineEnds_commaSeparated, heach, Expr.lineEnds_eq (.array _)]
    exact (Nat.zero_add _).symm
  | object fields _ _ _ ih =>
    have heach : (fields.map fun field => fieldWord field.1 field.2.1).map Token.lineEnds =
        fields.map fun field => Text.lineEnds field.1.toList + field.2.2.lineEnds := by
      rw [List.map_map]
      refine List.map_congr_left fun field hfield => ?_
      exact (lineEnds_fieldWord field.1 field.2.1).trans (by rw [ih field hfield])
    rw [lineEnds_bracketed, lineEnds_commaSeparated, heach, List.sum_map_add,
      Expr.lineEnds_eq (.object _)]
    simp only [lineEndsOf, strings, children, List.map_map]
    rfl
  | member field _ ih =>
    have haccess : Token.lineEnds [.symbol .dot, .name field] = 0 := rfl
    rw [lineEnds_append, haccess, ih, Expr.lineEnds_eq (.member _ _)]
    simp [lineEndsOf, strings, children]
  | binary op _ _ ihl ihr =>
    have hsymbol : (Lexeme.symbol op.symbol).lineEnds = 0 := rfl
    rw [lineEnds_append, Token.lineEnds_cons, hsymbol, ihl, ihr, Expr.lineEnds_eq (.binary _ _ _)]
    simp [lineEndsOf, strings, children]
  | _ => rfl

end Sigil.Expr
