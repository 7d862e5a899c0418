import Sigil.Proofs.Expr.Soundness

/-!
# The reader stays inside of its tokens

Whatever the tokens are, as long as the end of the input stands among them the reader finds a token
wherever it looks for one, and no loop runs out of rounds: no function of it fails for being
`exhausted`. It also looks at nothing behind the first end of the input. Both are shown at once, by
reading the same tokens with anything at all behind them: the outcome is the same, with that much
more left over (`Agrees`).

What carries this is that only tokens other than the end of the input are ever passed: what an
operand takes is derived, no derived word holds the end of the input, and none is empty
(`OperandSound.leaves_finish`). So there is one lemma for each function of the reader, over operands
that stay inside (`Inside`), and the induction is on the room.
-/

namespace Sigil.Expr

/-! ## 1. Two outcomes that agree -/

/-- The first outcome is not for want of tokens or rounds, and the second one is the same, with a
    result that is extended. -/
structure Agrees {α : Type} (extend : α → α) (x y : Except SyntaxError α) : Prop where
  within : x ≠ .error .exhausted
  same : y = x.map extend

section

variable {α β : Type} {extend : α → α} {extend' : β → β}

theorem Agrees.ok (a : α) : Agrees extend (.ok a) (.ok (extend a)) := ⟨nofun, rfl⟩

theorem Agrees.error {e : SyntaxError} (h : e ≠ .exhausted) : Agrees extend (.error e) (.error e) :=
  ⟨fun heq => h (Except.error.inj heq), rfl⟩

/-- Two computations agree if their first parts do, and the rest does from every result of these. -/
theorem Agrees.bind {x y : Except SyntaxError α} {f g : α → Except SyntaxError β}
    (h : Agrees extend x y) (hnext : ∀ a, x = .ok a → Agrees extend' (f a) (g (extend a))) :
    Agrees extend' (x >>= f) (y >>= g) := by
  obtain ⟨hwithin, rfl⟩ := h
  cases x with
  | error e => exact Agrees.error fun heq => hwithin (congrArg _ heq)
  | ok a => exact hnext a rfl

end

/-- More tokens left over. -/
def Reading.before (extra : List Token) (out : Reading) : Reading :=
  { out with rest := out.rest ++ extra }

/-! ## 2. Single tokens -/

variable (extra : List Token)

/-- Behind another token the end of the input is still to come. -/
theorem finish_mem_of_cons {t : Token} {tokens : List Token} (h : .finish ∈ lexemes (t :: tokens))
    (ht : t.lexeme ≠ .finish) : .finish ∈ lexemes tokens :=
  (List.mem_cons.mp h).resolve_left ht.symm

theorem expect_agrees (wanted : Symbol) {tokens : List Token} (h : tokens ≠ []) :
    Agrees (· ++ extra) (expect wanted tokens) (expect wanted (tokens ++ extra)) := by
  obtain ⟨t, rest, rfl⟩ := List.exists_cons_of_ne_nil h
  simp only [expect, List.cons_append]
  split
  · exact .ok rest
  · exact .error (by simp)

theorem named_agrees (sigil : Symbol) (leaf : String → Expr) {tokens : List Token}
    (h : tokens ≠ []) :
    Agrees (Reading.before extra) (named sigil leaf tokens)
      (named sigil leaf (tokens ++ extra)) := by
  obtain ⟨t, rest, rfl⟩ := List.exists_cons_of_ne_nil h
  simp only [named, List.cons_append]
  split
  · exact .ok _
  · exact .error (by simp)

theorem startsField_agrees {tokens : List Token} (h : .finish ∈ lexemes tokens) :
    Agrees id (startsField tokens) (startsField (tokens ++ extra)) := by
  obtain ⟨⟨x, pos⟩, rest, rfl⟩ := List.exists_cons_of_ne_nil (lexemes_ne_nil h)
  cases x with
  | string s =>
    obtain ⟨u, rest, rfl⟩ := List.exists_cons_of_ne_nil
      (lexemes_ne_nil (finish_mem_of_cons h (by simp)))
    exact .ok _
  | _ => exact .ok false

/-- The search for a comma ends at the end of the input. -/
theorem commaIn_append {w : List Lexeme} (h : .finish ∈ w) (more : List Lexeme) (depth : Nat) :
    commaIn depth (w ++ more) = commaIn depth w := by
  induction w generalizing depth with
  | nil => cases h
  | cons x w ih =>
    cases x with
    | finish => rfl
    | symbol s =>
      have hrest : .finish ∈ w := (List.mem_cons.mp h).resolve_left (by simp)
      cases depth <;> simp only [List.cons_append, commaIn, ih hrest]
    | _ => exact ih ((List.mem_cons.mp h).resolve_left (by simp)) depth

theorem hasOwnComma_append {tokens : List Token} (h : .finish ∈ lexemes tokens) (depth : Nat) :
    hasOwnComma depth (tokens ++ extra) = hasOwnComma depth tokens := by
  rw [hasOwnComma_eq, hasOwnComma_eq, lexemes_append, commaIn_append h]

/-! ## 3. Operands -/

/-- Such an operand stays inside: up to the end of the input it reads the same
    whatever follows that. -/
def Inside (operand : Operand) : Prop :=
  ∀ least ≤ accessLevel, ∀ tokens, .finish ∈ lexemes tokens → ∀ extra,
    Agrees (Reading.before extra) (operand least tokens) (operand least (tokens ++ extra))

variable {operand : Operand}

/-- An operand takes at least one token, and never the end of the input. -/
theorem OperandSound.leaves_finish (h : OperandSound operand) {least : Nat}
    (hleast : least ≤ accessLevel)
    {tokens : List Token} (hfinish : .finish ∈ lexemes tokens) {out : Reading}
    (hread : operand least tokens = .ok out) :
    .finish ∈ lexemes out.rest ∧ out.rest.length < tokens.length := by
  obtain ⟨⟨⟨word, d, q, rfl, _, _, hd, _⟩, _⟩, _⟩ := h least hleast tokens out hread
  constructor
  · rw [lexemes_append, List.mem_append] at hfinish
    exact hfinish.resolve_left hd.finish_not_mem
  · obtain ⟨x, w, hword, _⟩ := hd.exists_cons
    have hlength : (lexemes word).length = w.length + 1 := by rw [hword, List.length_cons]
    rw [lexemes, List.length_map] at hlength
    rw [List.length_append]
    omega

/-! ## 4. Items and fields -/

section

variable (ho : OperandSound operand) (hi : Inside operand)
include ho hi

/-- The rows of items agree, and a loop has rounds enough if it has as many as there are tokens. -/
theorem items_agrees {rounds rounds' : Nat} {tokens : List Token}
    (hfinish : .finish ∈ lexemes tokens)
    (hrounds : tokens.length ≤ rounds) (hrounds' : tokens.length ≤ rounds') :
    Agrees (fun (es, height, rest) => (es, height, rest ++ extra)) (items operand rounds tokens)
      (items operand rounds' (tokens ++ extra)) := by
  -- as long as the marker lies ahead, the rounds never run out, so their number does not matter
  have hlength := List.length_pos_of_ne_nil (lexemes_ne_nil hfinish)
  induction rounds generalizing tokens rounds' with
  | zero => omega
  | succ rounds ih =>
    obtain ⟨rounds', rfl⟩ : ∃ n, rounds' = n + 1 := ⟨rounds' - 1, by omega⟩
    refine (hi 0 (Nat.zero_le _) tokens hfinish extra).bind fun first hread => ?_
    obtain ⟨hrest, hless⟩ := ho.leaves_finish (Nat.zero_le _) hfinish hread
    obtain ⟨e, height, rest⟩ := first
    obtain ⟨t, after, rfl⟩ := List.exists_cons_of_ne_nil (lexemes_ne_nil hrest)
    simp only [Reading.before, List.cons_append]
    by_cases hcomma : t.lexeme = .symbol .comma
    · rw [if_pos hcomma, if_pos hcomma]
      have hafter : .finish ∈ lexemes after := finish_mem_of_cons hrest (by simp [hcomma])
      rw [List.length_cons] at hless
      exact (ih hafter (by omega) (by omega)
        (List.length_pos_of_ne_nil (lexemes_ne_nil hafter))).bind fun _ _ => .ok _
    · rw [if_neg hcomma, if_neg hcomma]
      exact (expect_agrees extra _ (List.cons_ne_nil t after)).bind fun _ _ => .ok _

/-- The rows of fields agree. -/
theorem fields_agrees {rounds rounds' : Nat} (seen : List String) {tokens : List Token}
    (hfinish : .finish ∈ lexemes tokens) (hrounds : tokens.length ≤ rounds)
    (hrounds' : tokens.length ≤ rounds') :
    Agrees (fun (entries, height, rest) => (entries, height, rest ++ extra))
      (fields operand rounds seen tokens) (fields operand rounds' seen (tokens ++ extra)) := by
  have hlength := List.length_pos_of_ne_nil (lexemes_ne_nil hfinish)
  induction rounds generalizing tokens rounds' seen with
  | zero => omega
  | succ rounds ih =>
    obtain ⟨rounds', rfl⟩ : ∃ n, rounds' = n + 1 := ⟨rounds' - 1, by omega⟩
    obtain ⟨k, tokens, rfl⟩ := List.exists_cons_of_ne_nil (lexemes_ne_nil hfinish)
    rw [List.cons_append]
    simp only [fields]
    split
    · next key hkey =>
      split
      · exact .error (by simp)
      · have hcolon : .finish ∈ lexemes tokens := finish_mem_of_cons hfinish (by simp [hkey])
        refine (expect_agrees extra _ (lexemes_ne_nil hcolon)).bind fun valueTokens hexpect => ?_
        obtain ⟨colon, hsymbol, rfl⟩ := expect_eq_ok_iff.mp hexpect
        have hvalue : .finish ∈ lexemes valueTokens :=
          finish_mem_of_cons hcolon (by simp [hsymbol])
        refine (hi 0 (Nat.zero_le _) valueTokens hvalue extra).bind fun value hread => ?_
        obtain ⟨hrest, hless⟩ := ho.leaves_finish (Nat.zero_le _) hvalue hread
        obtain ⟨e, height, rest⟩ := value
        obtain ⟨t, after, rfl⟩ := List.exists_cons_of_ne_nil (lexemes_ne_nil hrest)
        simp only [Reading.before, List.cons_append]
        by_cases hcomma : t.lexeme = .symbol .comma
        · rw [if_pos hcomma, if_pos hcomma]
          have hafter : .finish ∈ lexemes after := finish_mem_of_cons hrest (by simp [hcomma])
          simp only [List.length_cons] at hless hrounds hrounds'
          exact (ih _ hafter (by omega) (by omega)
            (List.length_pos_of_ne_nil (lexemes_ne_nil hafter))).bind fun _ _ => .ok _
        · rw [if_neg hcomma, if_neg hcomma]
          exact (expect_agrees extra _ (List.cons_ne_nil t after)).bind fun _ _ => .ok _
    · exact .error (by simp)

/-! ## 5. Operators -/

/-- The rounds of operators agree, and as many suffice as there are tokens left, and one. -/
theorem operators_agrees {room least rounds rounds' : Nat} (left : Reading)
    (hfinish : .finish ∈ lexemes left.rest) (hrounds : left.rest.length < rounds)
    (hrounds' : left.rest.length < rounds') :
    Agrees (Reading.before extra) (operators operand room least rounds left)
      (operators operand room least rounds' (left.before extra)) := by
  induction rounds generalizing left rounds' with
  | zero => omega
  | succ rounds ih =>
    obtain ⟨rounds', rfl⟩ : ∃ n, rounds' = n + 1 := ⟨rounds' - 1, by omega⟩
    obtain ⟨e, height, rest⟩ := left
    obtain ⟨t, after, rfl⟩ := List.exists_cons_of_ne_nil (lexemes_ne_nil hfinish)
    simp only [Reading.before, List.cons_append]
    rw [List.length_cons] at hrounds hrounds'
    rcases lexeme_cases t.lexeme with hdot | ⟨op, hop⟩ | hother
    · -- a point, and the name of a field
      have hafter : .finish ∈ lexemes after := finish_mem_of_cons hfinish (by simp [hdot])
      obtain ⟨f, rest, rfl⟩ := List.exists_cons_of_ne_nil (lexemes_ne_nil hafter)
      rw [operators_dot hdot, operators_dot hdot, List.cons_append]
      dsimp only
      split
      · exact .ok _
      · split
        · next field hname =>
          split
          · exact .error (by simp)
          · rw [List.length_cons] at hrounds hrounds'
            exact ih ⟨_, _, rest⟩ (finish_mem_of_cons hafter (by simp [hname]))
              (by dsimp only; omega) (by dsimp only; omega)
        · exact .error (by simp)
    · -- an operator, and its right operand
      rw [operators_symbol hop, operators_symbol hop]
      split
      · exact .ok _
      · have hafter : .finish ∈ lexemes after := finish_mem_of_cons hfinish (by simp [hop])
        have hright := hi (op.binding + 1) (binding_lt_accessLevel op) after hafter extra
        refine hright.bind fun right hread => ?_
        obtain ⟨hrest, hless⟩ := ho.leaves_finish (binding_lt_accessLevel op) hafter hread
        obtain ⟨e', height', rest⟩ := right
        show Agrees _ (if room ≤ max height height' then _ else _)
          (if room ≤ max height height' then _ else _)
        split
        · exact .error (by simp)
        · exact ih ⟨_, _, rest⟩ hrest (by dsimp only at hless ⊢; omega)
            (by dsimp only at hless ⊢; omega)
    · rw [operators_other hother, operators_other hother]
      exact .ok _

/-! ## 6. Atoms and expressions -/

/-- An operand with the bracket that closes it. -/
theorem closed_agrees {tokens : List Token} (hfinish : .finish ∈ lexemes tokens) (wanted : Symbol)
    (whole : Reading → List Token → Reading)
    (hwhole : ∀ inner rest, whole (inner.before extra) (rest ++ extra) =
      (whole inner rest).before extra) :
    Agrees (Reading.before extra)
      (operand 0 tokens >>= fun inner => expect wanted inner.rest >>= fun rest =>
        .ok (whole inner rest))
      (operand 0 (tokens ++ extra) >>= fun inner => expect wanted inner.rest >>= fun rest =>
        .ok (whole inner rest)) := by
  refine (hi 0 (Nat.zero_le _) tokens hfinish extra).bind fun inner hread => ?_
  have hrest := (ho.leaves_finish (Nat.zero_le _) hfinish hread).1
  refine (expect_agrees extra wanted (lexemes_ne_nil hrest)).bind fun rest _ => ?_
  rw [hwhole]
  exact .ok _

theorem square_agrees {tokens : List Token} (hfinish : .finish ∈ lexemes tokens) :
    Agrees (Reading.before extra) (square operand tokens) (square operand (tokens ++ extra)) := by
  have hcomma := hasOwnComma_append extra hfinish 0
  obtain ⟨t, after, rfl⟩ := List.exists_cons_of_ne_nil (lexemes_ne_nil hfinish)
  rw [List.cons_append] at hcomma ⊢
  simp only [square, hcomma]
  split
  · exact .ok _
  · split
    · have hrow := items_agrees extra ho hi hfinish (Nat.le_refl _)
        (show (t :: after).length ≤ (t :: (after ++ extra)).length by simp)
      exact hrow.bind fun _ _ => .ok _
    · exact closed_agrees extra ho hi hfinish .closeSquare
        (fun inner rest => ⟨.similarity inner.expr, inner.height + 1, rest⟩) fun _ _ => rfl

theorem curly_agrees {tokens : List Token} (hfinish : .finish ∈ lexemes tokens) :
    Agrees (Reading.before extra) (curly operand tokens) (curly operand (tokens ++ extra)) := by
  have hfield := startsField_agrees extra hfinish
  obtain ⟨t, after, rfl⟩ := List.exists_cons_of_ne_nil (lexemes_ne_nil hfinish)
  rw [List.cons_append] at hfield ⊢
  simp only [curly]
  split
  · exact .ok _
  -- the two tokens that decide between field and difference come before the marker
  · refine hfield.bind fun answer _ => ?_
    cases answer with
    | true =>
      have hrow := fields_agrees extra ho hi [] hfinish (Nat.le_refl _)
        (show (t :: after).length ≤ (t :: (after ++ extra)).length by simp)
      exact hrow.bind fun _ _ => .ok _
    | false =>
      exact closed_agrees extra ho hi hfinish .closeCurly
        (fun inner rest => ⟨.difference inner.expr, inner.height + 1, rest⟩) fun _ _ => rfl

theorem atom_agrees {tokens : List Token} (hfinish : .finish ∈ lexemes tokens) :
    Agrees (Reading.before extra) (atom operand tokens) (atom operand (tokens ++ extra)) := by
  obtain ⟨⟨x, pos⟩, rest, rfl⟩ := List.exists_cons_of_ne_nil (lexemes_ne_nil hfinish)
  cases x with
  | finish => exact .error (by simp)
  | name => exact .error (by simp)
  | symbol s =>
    have hrest : .finish ∈ lexemes rest := finish_mem_of_cons hfinish (by simp)
    have hne : rest ≠ [] := lexemes_ne_nil hrest
    cases s with
    | question => exact .ok _
    | dollar => exact named_agrees extra .dollar .reference hne
    | bang => exact named_agrees extra .bang .action hne
    | openRound =>
      exact closed_agrees extra ho hi hrest .closeRound
        (fun inner rest => ⟨inner.expr, inner.height, rest⟩)
        fun _ _ => rfl
    | openSquare => exact square_agrees extra ho hi hrest
    | openCurly => exact curly_agrees extra ho hi hrest
    | _ => exact .error (by simp)
  | _ => exact .ok _

end

/-- What is left after an atom still has the end of the input. -/
theorem finish_mem_of_atom (ho : OperandSound operand) {tokens : List Token}
    (hfinish : .finish ∈ lexemes tokens) {out : Reading} (h : atom operand tokens = .ok out) :
    .finish ∈ lexemes out.rest := by
  obtain ⟨⟨word, d, rfl, hd⟩, _⟩ := atom_sound ho h
  rw [lexemes_append, List.mem_append] at hfinish
  exact hfinish.resolve_left hd.finish_not_mem

/-- Whatever the room, an expression is read inside of the tokens up to the end of the input. -/
theorem expression_inside (room : Nat) : Inside (expression room) := by
  induction room with
  | zero =>
    intro least _ tokens hfinish extra
    obtain ⟨t, rest, rfl⟩ := List.exists_cons_of_ne_nil (lexemes_ne_nil hfinish)
    exact .error (by simp)
  | succ room ih =>
    intro least _ tokens hfinish extra
    have hsound := expression_sound room
    refine (atom_agrees extra hsound ih hfinish).bind fun left hatom => ?_
    exact operators_agrees extra hsound ih left (finish_mem_of_atom hsound hfinish hatom)
      (Nat.lt_succ_self _)
      (by simp only [Reading.before, List.length_append]; omega)

/-! ## 7. Whole sequences -/

/-- The tokens up to the first end of the input, with that. -/
def upToFinish : List Token → List Token
  | [] => []
  | t :: tokens => if t.lexeme = .finish then [t] else t :: upToFinish tokens

/-- The cut tokens end in the end of the input, and the others go on from there. -/
theorem upToFinish_spec {tokens : List Token} (h : .finish ∈ lexemes tokens) :
    (upToFinish tokens).getLast?.map Token.lexeme = some .finish ∧
      ∃ extra, tokens = upToFinish tokens ++ extra := by
  induction tokens with
  | nil => cases h
  | cons t tokens ih =>
    -- cut behind the first marker: the tokens up to it are kept as they are
    by_cases ht : t.lexeme = .finish
    · rw [upToFinish, if_pos ht]
      exact ⟨congrArg some ht, tokens, rfl⟩
    · obtain ⟨hlast, extra, hextra⟩ := ih (finish_mem_of_cons h ht)
      rw [upToFinish, if_neg ht]
      constructor
      · rw [List.getLast?_cons]
        cases hcut : (upToFinish tokens).getLast? with
        | none => rw [hcut] at hlast; cases hlast
        | some last => rwa [hcut] at hlast
      · exact ⟨extra, congrArg (t :: ·) hextra⟩

theorem finish_mem_of_getLast? {tokens : List Token}
    (h : tokens.getLast?.map Token.lexeme = some .finish) : .finish ∈ lexemes tokens := by
  obtain ⟨t, ht, hlexeme⟩ := Option.map_eq_some_iff.mp h
  exact List.mem_map.mpr ⟨t, List.mem_of_getLast? ht, hlexeme⟩

/-- The reading of whole tokens that end as they should. -/
theorem ofTokens_eq {tokens : List Token} (h : tokens.getLast?.map Token.lexeme = some .finish) :
    ofTokens tokens = expression (maxNesting + 1) 0 tokens >>= fun whole =>
      match whole.rest with
      | [] => .error .exhausted
      | t :: _ => if t.lexeme = .finish then .ok whole.expr else .error (.trailing t) := by
  obtain ⟨t, ht, hlexeme⟩ := Option.map_eq_some_iff.mp h
  unfold ofTokens
  rw [ht]
  dsimp only
  rw [if_pos hlexeme]
  rfl

/-- Whole tokens and those same tokens with more behind them agree. -/
theorem ofTokens_agrees {tokens extra : List Token}
    (h : tokens.getLast?.map Token.lexeme = some .finish)
    (hextra : (tokens ++ extra).getLast?.map Token.lexeme = some .finish) :
    Agrees id (ofTokens tokens) (ofTokens (tokens ++ extra)) := by
  have hfinish := finish_mem_of_getLast? h
  rw [ofTokens_eq h, ofTokens_eq hextra]
  refine (expression_inside _ 0 (Nat.zero_le _) tokens hfinish extra).bind fun whole hread => ?_
  obtain ⟨hrest, _⟩ := (expression_sound _).leaves_finish (Nat.zero_le _) hfinish hread
  obtain ⟨e, height, rest⟩ := whole
  obtain ⟨t, after, rfl⟩ := List.exists_cons_of_ne_nil (lexemes_ne_nil hrest)
  simp only [Reading.before, List.cons_append]
  split
  · exact .ok e
  · exact .error (by simp)

/-- **The reader never runs off its tokens.** For every sequence that ends in the end of the input,
    also one that holds it before and one whose brackets do not match, the outcome is a tree or a
    fault of form, never one for want of tokens or rounds; and it is the outcome of the sequence cut
    after its first end of the input. -/
theorem reader_stays_inside (tokens : List Token)
    (h : tokens.getLast?.map Token.lexeme = some .finish) :
    ((∃ e, ofTokens tokens = .ok e) ∨ ∃ fault, ofTokens tokens = .error fault ∧
      fault ≠ .exhausted) ∧
      ofTokens (upToFinish tokens) = ofTokens tokens := by
  obtain ⟨hlast, extra, hextra⟩ := upToFinish_spec (finish_mem_of_getLast? h)
  have hagrees := ofTokens_agrees hlast (hextra ▸ h)
  rw [← hextra] at hagrees
  have hcut : ofTokens (upToFinish tokens) = ofTokens tokens := by
    rw [hagrees.same]
    cases ofTokens (upToFinish tokens) <;> rfl
  refine ⟨?_, hcut⟩
  rw [← hcut]
  cases hread : ofTokens (upToFinish tokens) with
  | ok e => exact .inl ⟨e, rfl⟩
  | error fault =>
    exact .inr ⟨fault, rfl, fun heq => hagrees.within (by rw [hread, heq])⟩

/-- A bracket that is left open by the first end of the input and closed before the second one. -/
theorem bracket_is_not_closed_behind_the_end :
    let tokens : List Token := [⟨.symbol .openSquare, 0⟩, ⟨.null, 1⟩, ⟨.finish, 5⟩,
      ⟨.symbol .closeSquare, 6⟩, ⟨.finish, 7⟩]
    tokens.getLast?.map Token.lexeme = some .finish ∧
      ofTokens tokens = .error (.missing .closeSquare ⟨.finish, 5⟩) ∧
      ((∃ e, ofTokens tokens = .ok e) ∨
        ∃ fault, ofTokens tokens = .error fault ∧ fault ≠ .exhausted) ∧
      ofTokens (upToFinish tokens) = ofTokens tokens := by
  intro tokens
  have hlast : tokens.getLast?.map Token.lexeme = some .finish := rfl
  exact ⟨hlast, rfl, reader_stays_inside tokens hlast⟩

end Sigil.Expr
