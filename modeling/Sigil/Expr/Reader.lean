import Sigil.Expr.Basic
import Sigil.Expr.Error
import Sigil.Token.Scan

/-!
# Reading tokens as an expression

Operators are read by how tightly they bind: an operand is an atom followed by every operator that
binds at least as tightly as the place requires, and the right operand of one requires one step
more, which makes all operators left associative. A member access binds tightest of all.

Square brackets with a comma of their own hold an array, without one a similarity; curly brackets
that open with a string and a colon hold an object, and a difference otherwise.

The reading is layered by the room left for nesting. `expression` at one room uses itself only
at the room below, inside brackets and right of an operator; the loops over operators, items
and fields take that lower reading as an argument. Their count of rounds is the number of
tokens left, as every round takes one. Out of room, any token is a fault, and so is an operator
whose tree would be too high.
-/

namespace Sigil.Expr

/-- How tightly a member access binds. -/
abbrev accessLevel : Nat := 8

/-- What was read: an expression, its height, and the tokens after it. -/
structure Reading where
  expr : Expr
  height : Nat
  rest : List Token

/-- A way to read an operand: from the binding it requires and the tokens. -/
abbrev Operand := Nat → List Token → Except SyntaxError Reading

/-! ## 1. Single tokens -/

/-- The tokens after one that must be the given symbol. -/
def expect (wanted : Symbol) : List Token → Except SyntaxError (List Token)
  | [] => .error .exhausted
  | t :: rest => if t.lexeme = .symbol wanted then .ok rest else .error (.missing wanted t)

/-- The name that follows a dollar or an exclamation mark, as a leaf of the given kind. -/
def named (sigil : Symbol) (leaf : String → Expr) : List Token → Except SyntaxError Reading
  | [] => .error .exhausted
  | t :: rest => match t.lexeme with
    | .name word => .ok ⟨leaf word, 0, rest⟩
    | _ => .error (.missingName sigil t)

/-- Whether a comma stands before the bracket that closes this place, outside any bracket in
    between; `depth` counts those. All kinds of brackets count alike. -/
def hasOwnComma (depth : Nat) : List Token → Bool
  | [] => false
  | t :: rest => match t.lexeme with
    | .finish => false
    | .symbol s =>
      if s.opens then hasOwnComma (depth + 1) rest
      else if s.closes then match depth with
        | 0 => false
        | outer + 1 => hasOwnComma outer rest
      else (s == .comma && depth == 0) || hasOwnComma depth rest
    | _ => hasOwnComma depth rest

/-- Whether an object with fields starts here: a string, then a colon. -/
def startsField : List Token → Except SyntaxError Bool
  | [] => .error .exhausted
  | t :: rest => match t.lexeme, rest with
    | .string _, [] => .error .exhausted
    | .string _, u :: _ => .ok (u.lexeme == .symbol .colon)
    | _, _ => .ok false

/-! ## 2. Loops over a lower reading -/

/-- Items up to the closing bracket: the items, the greatest height among them, and the rest. -/
def items (operand : Operand) :
    Nat → List Token → Except SyntaxError (List Expr × Nat × List Token)
  | 0, _ => .error .exhausted
  | rounds + 1, tokens => do
    let first ← operand 0 tokens
    match first.rest with
    | [] => .error .exhausted
    | t :: after =>
      if t.lexeme = .symbol .comma then
        let (others, height, rest) ← items operand rounds after
        return (first.expr :: others, max first.height height, rest)
      else
        let rest ← expect .closeSquare (t :: after)
        return ([first.expr], first.height, rest)

/-- Fields up to the closing bracket, none of which has a key in `seen`. -/
def fields (operand : Operand) :
    Nat → List String → List Token → Except SyntaxError (List (String × Expr) × Nat × List Token)
  | 0, _, _ => .error .exhausted
  | _ + 1, _, [] => .error .exhausted
  | rounds + 1, seen, t :: tokens => do
    let .string key := t.lexeme | .error (.missingKey t)
    if key ∈ seen then .error (.repeatedKey key t.pos)
    let value ← operand 0 (← expect .colon tokens)
    match value.rest with
    | [] => .error .exhausted
    | u :: after =>
      if u.lexeme = .symbol .comma then
        let (others, height, rest) ← fields operand rounds (key :: seen) after
        return ((key, value.expr) :: others, max value.height height, rest)
      else
        let rest ← expect .closeCurly (u :: after)
        return ([(key, value.expr)], value.height, rest)

/-- Operators and member accesses after a left operand, as far as they bind at least as tightly as
    `least`. No tree may be higher than `room`. -/
def operators (operand : Operand) (room least : Nat) : Nat → Reading → Except SyntaxError Reading
  | 0, _ => .error .exhausted
  | rounds + 1, left =>
    match left.rest with
    | [] => .error .exhausted
    | t :: after => match t.lexeme with
      | .symbol .dot =>
        if accessLevel < least then .ok left
        else match after with
          | [] => .error .exhausted
          | f :: rest => match f.lexeme with
            | .name field =>
              if room ≤ left.height then .error (.tooDeep t.pos)
              else
                let whole : Reading := ⟨.member left.expr field, left.height + 1, rest⟩
                operators operand room least rounds whole
            | _ => .error (.missingField f)
      | .symbol s => match Operator.ofSymbol? s with
        | none => .ok left
        | some op =>
          if op.binding < least then .ok left
          else do
            let right ← operand (op.binding + 1) after
            let height := max left.height right.height
            let whole : Reading := ⟨.binary op left.expr right.expr, height + 1, right.rest⟩
            if room ≤ height then .error (.tooDeep t.pos)
            else operators operand room least rounds whole
      | _ => .ok left

/-! ## 3. Atoms -/

/-- What square brackets hold, after the opening one. -/
def square (operand : Operand) (tokens : List Token) : Except SyntaxError Reading :=
  match tokens with
  | [] => .error .exhausted
  | t :: after => do
    if t.lexeme = .symbol .closeSquare then return ⟨.array [], 0, after⟩
    else if hasOwnComma 0 tokens then
      let (items, height, rest) ← items operand tokens.length tokens
      return ⟨.array items, height + 1, rest⟩
    else
      let inner ← operand 0 tokens
      let rest ← expect .closeSquare inner.rest
      return ⟨.similarity inner.expr, inner.height + 1, rest⟩

/-- What curly brackets hold, after the opening one. -/
def curly (operand : Operand) (tokens : List Token) : Except SyntaxError Reading :=
  match tokens with
  | [] => .error .exhausted
  | t :: after => do
    if t.lexeme = .symbol .closeCurly then return ⟨.object [], 0, after⟩
    else if ← startsField tokens then
      let (fields, height, rest) ← fields operand tokens.length [] tokens
      return ⟨.object fields, height + 1, rest⟩
    else
      let inner ← operand 0 tokens
      let rest ← expect .closeCurly inner.rest
      return ⟨.difference inner.expr, inner.height + 1, rest⟩

/-- An atom. Round brackets add no level to the tree, but what they hold has less room. -/
def atom (operand : Operand) : List Token → Except SyntaxError Reading
  | [] => .error .exhausted
  | t :: rest => match t.lexeme with
    | .null => .ok ⟨.null, 0, rest⟩
    | .bool value => .ok ⟨.bool value, 0, rest⟩
    | .number value => .ok ⟨.number value, 0, rest⟩
    | .string value => .ok ⟨.string value, 0, rest⟩
    | .symbol .question => .ok ⟨.existence, 0, rest⟩
    | .symbol .dollar => named .dollar .reference rest
    | .symbol .bang => named .bang .action rest
    | .symbol .openRound => do
      let inner ← operand 0 rest
      let rest ← expect .closeRound inner.rest
      return ⟨inner.expr, inner.height, rest⟩
    | .symbol .openSquare => square operand rest
    | .symbol .openCurly => curly operand rest
    | _ => .error (.unexpected t)

/-! ## 4. Expressions -/

/-- An expression whose operators bind at least as tightly as required, with this much room: one
    more than the levels it may have. -/
def expression : Nat → Operand
  | 0, _, [] => .error .exhausted
  | 0, _, t :: _ => .error (.tooDeep t.pos)
  | room + 1, least, tokens => do
    let left ← atom (expression room) tokens
    operators (expression room) room least (left.rest.length + 1) left

/-- The expression that a whole sequence of tokens spells, up to the end of the input. -/
def ofTokens (tokens : List Token) : Except SyntaxError Expr :=
  match tokens.getLast? with
  | none => .error (.unterminated 0)
  | some last =>
    if last.lexeme = .finish then do
      let whole ← expression (maxNesting + 1) 0 tokens
      match whole.rest with
      | [] => .error .exhausted
      | t :: _ => if t.lexeme = .finish then return whole.expr else .error (.trailing t)
    else .error (.unterminated last.pos)

def ofText (s : String) : Except ReadError Expr :=
  match Token.scan s with
  | .error e => .error (.spelling e)
  | .ok tokens => (ofTokens tokens).mapError .form

end Sigil.Expr
