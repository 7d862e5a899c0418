import Sigil.Proofs.Expr.Fault
import Sigil.Proofs.Expr.Height

/-!
# The nesting limit, counted from above

A start stands at a level: as many nodes, round brackets included, will stand above what is read
there. The room that the reader is given is the other side of that count, `maxNesting` and one less
the level, so what is known of rooms (`expression_height_lt`) says that level and height together
stay within the limit, at the start of every expression and of every atom.

Above the limit the grammar goes on, as it has none: a word whose tree is higher is an
expression, and as no token of it is to blame, being too deep is the only fault that is left for
it (`tooDeep_of_spells`).
-/

namespace Sigil.Expr

/-! ## 1. Starts at a level -/

/-- An expression that starts at a level. -/
def expressionAt (level : Nat) : Operand := expression (maxNesting + 1 - level)

/-- An atom that starts at a level: what it holds starts at the next one. -/
def atomAt (level : Nat) : List Token → Except SyntaxError Reading :=
  atom (expressionAt (level + 1))

/-- Within the limit an expression is an atom at its level, and operators whose right operands
    start at the next one. -/
theorem expressionAt_of_le {level : Nat} (h : level ≤ maxNesting) (least : Nat)
    (tokens : List Token) :
    expressionAt level least tokens = atomAt level tokens >>= fun left =>
      operators (expressionAt (level + 1)) (maxNesting - level) least
        (left.rest.length + 1) left := by
  have hroom : maxNesting + 1 - level = (maxNesting - level) + 1 := by omega
  have hinner : maxNesting + 1 - (level + 1) = maxNesting - level := by omega
  unfold expressionAt atomAt expressionAt
  rw [hroom, hinner]
  rfl

/-- Beyond the limit the first token is refused, before an atom starts there. -/
theorem expressionAt_of_lt {level : Nat} (h : maxNesting < level) (least : Nat) (t : Token)
    (rest : List Token) : expressionAt level least (t :: rest) = .error (.tooDeep t.pos) := by
  have hroom : maxNesting + 1 - level = 0 := by omega
  unfold expressionAt
  rw [hroom]
  rfl

/-- The height is that of the tree, and with the level within the limit. -/
def WithinLimit (level : Nat) (out : Reading) : Prop :=
  out.height = out.expr.height ∧ level + out.height ≤ maxNesting

/-- What an atom holds is read a level further down, and adds at most one level to it. -/
theorem atomAt_within {level : Nat} (hlevel : level ≤ maxNesting) {tokens : List Token}
    {out : Reading} (h : atomAt level tokens = .ok out) : WithinLimit level out := by
  have hlow := atom_height_le (expression_height_lt _) h
  exact ⟨(atom_sound (expression_sound _) h).2, by omega⟩

/-- The rounds of operators check each level that they add. -/
theorem expressionAt_within {level least : Nat} (hleast : least ≤ accessLevel) {tokens : List Token}
    {out : Reading} (h : expressionAt level least tokens = .ok out) : WithinLimit level out := by
  rcases Nat.lt_or_ge maxNesting level with hbeyond | hlevel
  · obtain ⟨⟨⟨word, d, q, rfl, _, _, hd, _⟩, _⟩, _⟩ := expression_sound _ least hleast tokens out h
    obtain ⟨x, w, hword, _⟩ := hd.exists_cons
    obtain ⟨t, ts, rfl, _, _⟩ := exists_of_lexemes_cons hword
    rw [List.cons_append, expressionAt_of_lt hbeyond] at h
    cases h
  · have hheight := (expression_sound _ least hleast tokens out h).1.height_eq
    rw [expressionAt_of_le hlevel] at h
    obtain ⟨left, hatom, hops⟩ := bind_eq_ok_iff.mp h
    obtain ⟨_, hleft⟩ := atomAt_within hlevel hatom
    have hlow : out.height ≤ maxNesting - level := operators_height_le (by omega) hops
    exact ⟨hheight, by omega⟩

/-! ## 2. Trees that are too high -/

/-- The only fault of tokens that spell an expression is that it is too deep. -/
theorem tooDeep_of_spells {tokens : List Token} {e : Expr}
    (hlast : tokens.getLast?.map Token.lexeme = some .finish) (h : Spells (spelling tokens) e)
    {fault : SyntaxError} (hfault : ofTokens tokens = .error fault) :
    ∃ pos, fault = .tooDeep pos := by
  by_contra hdeep
  have hblamed := ofTokens_blamed hlast hfault fun pos heq => hdeep ⟨pos, heq⟩
  exact hblamed.refused ⟨hlast, e, h⟩

/-- **The nesting limit.** Wherever in the tokens an expression starts, and at whatever level: what
    is read there has its true height, and that and the level together do not pass the limit. The
    same holds of the atoms, which start only within the limit (`expressionAt_of_le`,
    `expressionAt_of_lt`). So no tree is higher than the limit, and tokens that spell one which is
    are refused for that. -/
theorem nesting_stays_within_the_limit (tokens : List Token)
    (hlast : tokens.getLast?.map Token.lexeme = some .finish) :
    (∀ start, start <:+ tokens → ∀ level,
      (∀ least ≤ accessLevel, ∀ out, expressionAt level least start = .ok out →
        out.height = out.expr.height ∧ level + out.height ≤ maxNesting) ∧
      (level ≤ maxNesting → ∀ out, atomAt level start = .ok out →
        out.height = out.expr.height ∧ level + out.height ≤ maxNesting)) ∧
    (∀ e, ofTokens tokens = .ok e → e.height ≤ maxNesting) ∧
    ∀ e, Spells (spelling tokens) e → maxNesting < e.height →
      ∃ pos, ofTokens tokens = .error (.tooDeep pos) := by
  refine ⟨fun start _ level => ⟨fun least hleast out => expressionAt_within hleast,
    fun hlevel out => atomAt_within hlevel⟩, fun e => height_le_of_ofTokens,
      fun e hspells hhigh => ?_⟩
  cases hread : ofTokens tokens with
  | ok read =>
    -- the tree that is read would be the one that is spelt
    have hunique : read = e := (spells_of_ofTokens hread).unique hspells
    exact absurd (height_le_of_ofTokens hread) (hunique ▸ Nat.not_le_of_lt hhigh)
  | error fault =>
    obtain ⟨pos, rfl⟩ := tooDeep_of_spells hlast hspells hread
    exact ⟨pos, rfl⟩

/-! ## 3. Nested brackets -/

/-- Similarities around a core, as many as said. -/
def nested (core : Expr) : Nat → Expr
  | 0 => core
  | n + 1 => .similarity (nested core n)

/-- The word of a core in so many square brackets. -/
def nestedWord (core : List Lexeme) : Nat → List Lexeme
  | 0 => core
  | n + 1 => .symbol .openSquare :: (nestedWord core n ++ [.symbol .closeSquare])

theorem Derives.nested {d : Nat} {w : List Lexeme} {e : Expr}
    (h : Derives d loosest w e) (n : Nat) :
    Derives (d + n) loosest (nestedWord w n) (nested e n) := by
  induction n with
  | zero => exact h
  | succ n ih => exact (Derives.similarity ih).lower_le (by decide)

theorem height_nested (core : Expr) (n : Nat) : (nested core n).height = core.height + n := by
  induction n with
  | zero => rfl
  | succ n ih => exact congrArg (· + 1) ih

/-- Brackets at one level more than the limit are refused, though what they hold is still read where
    it starts at the limit. -/
theorem sixty_five_brackets_are_too_deep :
    let tokens : List Token := (nestedWord [.null] 65).map (⟨·, 0⟩) ++ [⟨.finish, 0⟩]
    let out : Reading := ⟨.null, 0, tokens.drop 66⟩
    tokens.getLast?.map Token.lexeme = some .finish ∧ tokens.drop 65 <:+ tokens ∧
      expressionAt 64 0 (tokens.drop 65) = .ok out ∧
      (out.height = out.expr.height ∧ 64 + out.height ≤ maxNesting) ∧
      Spells (spelling tokens) (nested .null 65) ∧ maxNesting < (nested .null 65).height ∧
      ∃ pos, ofTokens tokens = .error (.tooDeep pos) := by
  intro tokens out
  have hlast : tokens.getLast?.map Token.lexeme = some .finish := by simp [tokens]
  have hstart : tokens.drop 65 <:+ tokens := List.drop_suffix 65 tokens
  have hread : expressionAt 64 0 (tokens.drop 65) = .ok out := rfl
  have hlexemes : lexemes ((nestedWord [.null] 65).map fun x => (⟨x, 0⟩ : Token)) =
      nestedWord [.null] 65 := by
    simp [lexemes, Function.comp_def]
  have hspells : Spells (spelling tokens) (nested .null 65) := by
    have hnull : Derives 0 loosest [.null] .null := Derives.null.lower_le (by decide)
    have hword : Spells (nestedWord [.null] 65) (nested .null 65) := ⟨_, hnull.nested 65⟩
    rw [spelling_append_finish (by rw [hlexemes]; exact hword) rfl, hlexemes]
    exact hword
  have hhigh : maxNesting < (nested .null 65).height := by rw [height_nested]; decide
  obtain ⟨hstarts, _, hrefused⟩ := nesting_stays_within_the_limit tokens hlast
  exact ⟨hlast, hstart, hread, (hstarts _ hstart 64).1 0 (Nat.zero_le _) out hread, hspells, hhigh,
    hrefused _ hspells hhigh⟩

end Sigil.Expr
