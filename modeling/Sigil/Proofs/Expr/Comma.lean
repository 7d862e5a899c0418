import Sigil.Proofs.Expr.Soundness

/-!
# The search for a comma agrees with the reading

Behind an opening square bracket the reader looks ahead for a comma, and counts brackets of
all kinds alike without a check that they match. A reader that only goes forward would read
one expression and decide on the token behind it. Both return the same for all tokens,
malformed ones included.

The two meet where the first expression ends: what was read is balanced, so the search passes over
it and its answer is the one that the search gives from there on (`OperandSound.hasOwnComma_eq`).
There it sees a comma at once, or the bracket that closes, or a token that is a fault for both
readers. And where no first expression is read, both fail before they could differ.
-/

namespace Sigil.Expr

/-! ## 1. A reader that only goes forward -/

/-- What square brackets hold, after the opening one, decided by the token behind the
    first expression. -/
def squareForward (operand : Operand) (tokens : List Token) : Except SyntaxError Reading :=
  match tokens with
  | [] => .error .exhausted
  | t :: after => do
    if t.lexeme = .symbol .closeSquare then return ⟨.array [], 0, after⟩
    else
      let first ← operand 0 tokens
      match first.rest with
      | [] => .error .exhausted
      | u :: behind =>
        if u.lexeme = .symbol .comma then
          let (others, height, rest) ← items operand after.length behind
          return ⟨.array (first.expr :: others), max first.height height + 1, rest⟩
        else
          let rest ← expect .closeSquare (u :: behind)
          return ⟨.similarity first.expr, first.height + 1, rest⟩

/-- An atom, all but the square brackets as in `atom`. -/
def atomForward (operand : Operand) : List Token → Except SyntaxError Reading
  | [] => .error .exhausted
  | t :: rest =>
    if t.lexeme = .symbol .openSquare then squareForward operand rest else atom operand (t :: rest)

/-- An expression that is read forward only. -/
def expressionForward : Nat → Operand
  | 0, _, [] => .error .exhausted
  | 0, _, t :: _ => .error (.tooDeep t.pos)
  | room + 1, least, tokens => do
    let left ← atomForward (expressionForward room) tokens
    operators (expressionForward room) room least (left.rest.length + 1) left

/-- The expression that a whole sequence of tokens spells, read forward only. -/
def ofTokensForward (tokens : List Token) : Except SyntaxError Expr :=
  match tokens.getLast? with
  | none => .error (.unterminated 0)
  | some last =>
    if last.lexeme = .finish then do
      let whole ← expressionForward (maxNesting + 1) 0 tokens
      match whole.rest with
      | [] => .error .exhausted
      | t :: _ => if t.lexeme = .finish then return whole.expr else .error (.trailing t)
    else .error (.unterminated last.pos)

/-! ## 2. The two readers agree -/

variable {operand : Operand}

/-- The search for a comma passes over an expression. -/
theorem OperandSound.hasOwnComma_eq (h : OperandSound operand) {tokens : List Token} {out : Reading}
    (hread : operand 0 tokens = .ok out) (depth : Nat) :
    hasOwnComma depth tokens = hasOwnComma depth out.rest := by
  obtain ⟨⟨word, rfl, d, hd⟩, _⟩ := h.inner hread
  rw [Expr.hasOwnComma_eq, Expr.hasOwnComma_eq, lexemes_append, hd.balanced]

/-- Behind the first expression the search sees the comma, or the bracket that closes. -/
theorem hasOwnComma_zero_cons (t : Token) (tokens : List Token) :
    (t.lexeme = .symbol .comma → hasOwnComma 0 (t :: tokens) = true) ∧
      (t.lexeme = .symbol .closeSquare → hasOwnComma 0 (t :: tokens) = false) := by
  constructor
  · intro h
    simp only [hasOwnComma, h]
    rfl
  · intro h
    simp only [hasOwnComma, h]
    rfl

theorem squareForward_eq (h : OperandSound operand) (tokens : List Token) :
    squareForward operand tokens = square operand tokens := by
  cases tokens with
  | nil => rfl
  | cons t after =>
    simp only [squareForward, square]
    split
    · rfl
    · rw [List.length_cons, items]
      cases hread : operand 0 (t :: after) with
      | error fault =>
        -- without a first expression both fail alike, whatever the search answers
        cases hasOwnComma 0 (t :: after) <;> rfl
      | ok first =>
        rw [h.hasOwnComma_eq hread]
        obtain ⟨e, height, rest⟩ := first
        cases rest with
        | nil => rfl
        | cons u behind =>
          obtain ⟨hcomma, hclose⟩ := hasOwnComma_zero_cons u behind
          simp only [ok_bind]
          by_cases hu : u.lexeme = .symbol .comma
          · rw [hcomma hu, if_pos hu, if_pos hu]
            cases items operand after.length behind <;> rfl
          · rw [if_neg hu, if_neg hu]
            by_cases hsquare : u.lexeme = .symbol .closeSquare
            · rw [hclose hsquare]
              rfl
            · simp only [expect, if_neg hsquare]
              cases hasOwnComma 0 (u :: behind) <;> rfl

theorem atomForward_eq (h : OperandSound operand) (tokens : List Token) :
    atomForward operand tokens = atom operand tokens := by
  cases tokens with
  | nil => rfl
  | cons t rest =>
    rw [atomForward]
    split
    · next hopen =>
      rw [squareForward_eq h, atom, hopen]
    · rfl

/-- Whatever the room, an expression is read alike by both readers. -/
theorem expressionForward_eq (room : Nat) : expressionForward room = expression room := by
  induction room with
  | zero =>
    funext least tokens
    cases tokens <;> rfl
  | succ room ih =>
    funext least tokens
    rw [expressionForward, expression, ih, atomForward_eq (expression_sound room)]

/-! ## 3. Arrays -/

/-- No array of a single item. -/
def isNoSingleton : Expr → Bool
  | .array items => items.length != 1
  | _ => true

/-- The grammar has no array of a single item. -/
theorem Derives.every_isNoSingleton {d q : Nat} {w : List Lexeme} {e : Expr} (h : Derives d q w e) :
    e.Every fun part => part.isNoSingleton = true := by
  induction h with
  | lower _ ih => exact ih
  | group _ ih => exact ih
  | similarity _ ih => exact every_iff.mpr ⟨rfl, List.forall_mem_singleton.mpr ih⟩
  | difference _ _ ih => exact every_iff.mpr ⟨rfl, List.forall_mem_singleton.mpr ih⟩
  | member _ _ ih => exact every_iff.mpr ⟨rfl, List.forall_mem_singleton.mpr ih⟩
  | binary op _ _ ihl ihr =>
    exact every_iff.mpr ⟨rfl, List.forall_mem_cons.mpr ⟨ihl, List.forall_mem_singleton.mpr ihr⟩⟩
  | array items two_le _ ih =>
    refine every_iff.mpr ⟨bne_iff_ne.mpr (by rw [List.length_map]; omega), fun c hc => ?_⟩
    obtain ⟨item, hi, rfl⟩ := List.mem_map.mp hc
    exact ih item hi
  | object fields _ _ _ ih =>
    refine every_iff.mpr ⟨rfl, fun c hc => ?_⟩
    obtain ⟨_, hv, rfl⟩ := List.mem_map.mp hc
    obtain ⟨field, hf, rfl⟩ := List.mem_map.mp hv
    exact ih field hf
  | _ => exact every_iff.mpr ⟨rfl, fun _ hc => absurd hc List.not_mem_nil⟩

/-- **The search for a comma always agrees with the reading.** For all tokens, the reader that goes
    forward only returns the same tree as the one that looks ahead, or the same fault, with its
    message, its place and what was expected there; and no array that is read has a single item. -/
theorem comma_search_agrees (tokens : List Token) :
    ofTokensForward tokens = ofTokens tokens ∧
      ∀ e, ofTokens tokens = .ok e → ∀ items, .array items ∈ e.parts → items.length ≠ 1 := by
  constructor
  · unfold ofTokensForward
    rw [expressionForward_eq]
    rfl
  · intro e hread items hmem
    obtain ⟨d, hd⟩ := spells_of_ofTokens hread
    exact bne_iff_ne.mp (hd.every_isNoSingleton _ hmem)

/-- In `[[null, true]]` there is a comma for the inner bracket only: it is a
    similarity of an array. -/
theorem comma_search_agrees_on_nested_brackets :
    let tokens : List Token := [⟨.symbol .openSquare, 0⟩, ⟨.symbol .openSquare, 1⟩, ⟨.null, 2⟩,
      ⟨.symbol .comma, 6⟩, ⟨.bool true, 8⟩, ⟨.symbol .closeSquare, 12⟩, ⟨.symbol .closeSquare, 13⟩,
      ⟨.finish, 14⟩]
    let items : List Expr := [.null, .bool true]
    ofTokens tokens = .ok (.similarity (.array items)) ∧
      ofTokensForward tokens = .ok (.similarity (.array items)) ∧ items.length ≠ 1 := by
  intro tokens items
  have hread : ofTokens tokens = .ok (.similarity (.array items)) := rfl
  obtain ⟨hagrees, hitems⟩ := comma_search_agrees tokens
  exact ⟨hread, hagrees.trans hread, hitems _ hread items (by simp [parts])⟩

/-- In `[(null], true)` the search takes the square bracket for the end of the round one, and finds
    a comma that no reader comes to. -/
example :
    let tokens : List Token := [⟨.symbol .openSquare, 0⟩, ⟨.symbol .openRound, 1⟩, ⟨.null, 2⟩,
      ⟨.symbol .closeSquare, 6⟩, ⟨.symbol .comma, 7⟩, ⟨.bool true, 9⟩, ⟨.symbol .closeRound, 13⟩,
      ⟨.finish, 14⟩]
    hasOwnComma 0 tokens.tail = true ∧
      ofTokensForward tokens = .error (.missing .closeRound ⟨.symbol .closeSquare, 6⟩) := by
  exact ⟨rfl, rfl⟩

end Sigil.Expr
