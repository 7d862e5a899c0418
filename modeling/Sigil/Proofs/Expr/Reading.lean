import Sigil.Proofs.Expr.Grammar
import Sigil.Proofs.Rows

/-!
# One step of the reader

What each function of the reader accepts, and what it then returns, said once for all that is proved
about it: `atom`, `items`, `fields` and one round of `operators` succeed exactly in the cases listed
here. Where an operand ends is told by its next lexeme: `bindingOf?` says how tightly it binds, and
`Stops` that nothing goes on there which binds tightly enough.
-/

namespace Sigil.Expr

/-! ## 1. Where an operand ends -/

/-- How tightly the operator or access binds that starts with this lexeme. -/
def bindingOf? : Lexeme → Option Nat
  | .symbol .dot => some accessLevel
  | .symbol s => (Operator.ofSymbol? s).map Operator.binding
  | _ => none

theorem bindingOf?_symbol (op : Operator) : bindingOf? (.symbol op.symbol) = some op.binding := by
  cases op <;> rfl

/-- Nothing that binds at least as tightly as `least` goes on here. -/
def Stops (least : Nat) (tokens : List Token) : Prop :=
  ∀ t ∈ tokens.head?, ∀ b ∈ bindingOf? t.lexeme, b < least

theorem Stops.mono {least more : Nat} {tokens : List Token} (h : Stops least tokens)
    (hle : least ≤ more) : Stops more tokens :=
  fun t ht b hb => Nat.lt_of_lt_of_le (h t ht b hb) hle

theorem stops_cons_iff {least : Nat} {t : Token} {tokens : List Token} :
    Stops least (t :: tokens) ↔ ∀ b ∈ bindingOf? t.lexeme, b < least := by
  simp [Stops]

theorem stops_of_bindingOf?_eq_none {least : Nat} {t : Token} {tokens : List Token}
    (h : bindingOf? t.lexeme = none) : Stops least (t :: tokens) := by
  rw [stops_cons_iff, h]
  exact fun _ hb => absurd hb (Option.not_mem_none _)

/-- Where a point goes on, what stands left of it is at the level of accesses or at
    that of atoms. -/
theorem Stops.accessLevel_le {q : Nat} {t : Token} {tokens : List Token}
    (h : Stops (q + 1) (t :: tokens)) (dot : t.lexeme = .symbol .dot) : accessLevel ≤ q :=
  Nat.le_of_lt_succ (stops_cons_iff.mp h accessLevel (by rw [dot]; rfl))

/-- Where an operator goes on, what stands left of it binds at least as tightly. -/
theorem Stops.binding_le {q : Nat} {t : Token} {tokens : List Token}
    (h : Stops (q + 1) (t :: tokens))
    {op : Operator} (symbol : t.lexeme = .symbol op.symbol) : op.binding ≤ q :=
  Nat.le_of_lt_succ (stops_cons_iff.mp h op.binding (by rw [symbol, bindingOf?_symbol]; rfl))

/-! ## 2. Single tokens -/

variable {operand : Operand}

theorem expect_eq_ok_iff {wanted : Symbol} {tokens rest : List Token} :
    expect wanted tokens = .ok rest ↔ ∃ t, t.lexeme = .symbol wanted ∧ tokens = t :: rest := by
  cases tokens with
  | nil => simp [expect]
  | cons t tokens =>
    by_cases h : t.lexeme = .symbol wanted
    · simp [expect, h]
    · simp only [expect, h, if_false, reduceCtorEq, List.cons.injEq, false_iff, not_exists]
      rintro u ⟨hu, rfl, rfl⟩
      exact h hu

/-- The test for a field succeeds where two tokens stand. -/
theorem startsField_eq_ok {t : Token} {tokens : List Token} (h : tokens ≠ []) :
    startsField (t :: tokens) = .ok (startsLikeField (lexemes (t :: tokens))) := by
  obtain ⟨u, tokens, rfl⟩ := List.exists_cons_of_ne_nil h
  obtain ⟨x, pos⟩ := t
  obtain ⟨y, pos'⟩ := u
  cases x with
  | string s =>
    simp only [startsField, lexemes_cons, startsLikeField]
    cases y with
    | symbol s => cases s <;> rfl
    | _ => rfl
  | _ => rfl

/-! ## 3. Rounds of operators -/

/-- What a round of operators does that ends in success. -/
inductive OperatorStep (operand : Operand) (room least rounds : Nat)
    (left out : Reading) : Prop where
  /-- No operator binds here. -/
  | stop (t : Token) (after : List Token) (rest_eq : left.rest = t :: after)
    (stops : Stops least left.rest) (result : out = left)
  /-- A member access. -/
  | member (t f : Token) (rest : List Token) (field : String) (rest_eq : left.rest = t :: f :: rest)
    (dot : t.lexeme = .symbol .dot) (binds : least ≤ accessLevel) (name : f.lexeme = .name field)
    (fits : left.height < room)
    (next : operators operand room least rounds ⟨.member left.expr field, left.height + 1, rest⟩ =
      .ok out)
  /-- An operator and its right operand. -/
  | binary (t : Token) (after : List Token) (op : Operator) (right : Reading)
    (rest_eq : left.rest = t :: after) (symbol : t.lexeme = .symbol op.symbol)
    (binds : least ≤ op.binding) (read : operand (op.binding + 1) after = .ok right)
    (fits : max left.height right.height < room)
    (next : operators operand room least rounds
      ⟨.binary op left.expr right.expr, max left.height right.height + 1, right.rest⟩ = .ok out)

/-- What a lexeme after an operand may be: a point, an operator, or anything else. -/
theorem lexeme_cases (x : Lexeme) :
    x = .symbol .dot ∨ (∃ op : Operator, x = .symbol op.symbol) ∨ bindingOf? x = none := by
  cases x with
  | symbol s =>
    cases hop : Operator.ofSymbol? s with
    | some op => exact .inr (.inl ⟨op, by rw [Operator.ofSymbol?_eq_some_iff.mp hop]⟩)
    | none =>
      by_cases hs : s = .dot
      · exact .inl (by rw [hs])
      · refine .inr (.inr ?_)
        cases s <;> first | rfl | exact absurd rfl hs | cases hop
  | _ => exact .inr (.inr rfl)

section

variable {room least rounds : Nat} {e : Expr} {height : Nat} {t : Token} {after : List Token}

theorem operators_other (h : bindingOf? t.lexeme = none) :
    operators operand room least (rounds + 1) ⟨e, height, t :: after⟩ =
      .ok ⟨e, height, t :: after⟩ := by
  obtain ⟨x, pos⟩ := t
  cases x with
  | symbol s => cases s <;> first | rfl | cases h
  | _ => rfl

theorem operators_dot (h : t.lexeme = .symbol .dot) :
    operators operand room least (rounds + 1) ⟨e, height, t :: after⟩ =
      if accessLevel < least then .ok ⟨e, height, t :: after⟩
      else match after with
        | [] => .error .exhausted
        | f :: rest => match f.lexeme with
          | .name field =>
            if room ≤ height then .error (.tooDeep t.pos)
            else operators operand room least rounds ⟨.member e field, height + 1, rest⟩
          | _ => .error (.missingField f) := by
  obtain ⟨x, pos⟩ := t
  cases h
  cases after <;> rfl

theorem operators_symbol {op : Operator} (h : t.lexeme = .symbol op.symbol) :
    operators operand room least (rounds + 1) ⟨e, height, t :: after⟩ =
      if op.binding < least then .ok ⟨e, height, t :: after⟩
      else operand (op.binding + 1) after >>= fun right =>
        if room ≤ max height right.height then .error (.tooDeep t.pos)
        else operators operand room least rounds
          ⟨.binary op e right.expr, max height right.height + 1, right.rest⟩ := by
  obtain ⟨x, pos⟩ := t
  cases h
  cases op <;> rfl

end

theorem operators_eq_ok_iff {room least rounds : Nat} {left out : Reading} :
    operators operand room least (rounds + 1) left = .ok out ↔
      OperatorStep operand room least rounds left out := by
  -- both directions follow the branches of the loop: point, operator, anything else
  obtain ⟨e, height, rest⟩ := left
  constructor
  · intro h
    cases rest with
    | nil => cases h
    | cons t after =>
      rcases lexeme_cases t.lexeme with hdot | ⟨op, hop⟩ | hother
      · rw [operators_dot hdot] at h
        split at h
        · next hlt =>
          cases h
          refine .stop t after rfl (stops_cons_iff.mpr fun b hb => ?_) rfl
          rw [hdot] at hb
          exact Option.mem_some.mp hb ▸ hlt
        · next hle =>
          have hbinds := Nat.le_of_not_lt hle
          cases after with
          | nil => cases h
          | cons f rest =>
            dsimp only at h
            split at h
            · next field hname =>
              split at h
              · cases h
              · next hroom =>
                exact .member t f rest field rfl hdot hbinds hname (Nat.lt_of_not_le hroom) h
            · cases h
      · rw [operators_symbol hop] at h
        split at h
        · next hlt =>
          cases h
          refine .stop t after rfl (stops_cons_iff.mpr fun b hb => ?_) rfl
          rw [hop, bindingOf?_symbol] at hb
          exact Option.mem_some.mp hb ▸ hlt
        · next hle =>
          obtain ⟨right, hread, hnext⟩ := bind_eq_ok_iff.mp h
          split at hnext
          · cases hnext
          · next hfits =>
            exact .binary t after op right rfl hop (Nat.le_of_not_lt hle) hread
              (Nat.lt_of_not_le hfits) hnext
      · rw [operators_other hother] at h
        cases h
        exact .stop t after rfl (stops_of_bindingOf?_eq_none hother) rfl
  · intro h
    cases h with
    | stop t after rest_eq stops result =>
      cases rest_eq
      cases result
      rcases lexeme_cases t.lexeme with hdot | ⟨op, hop⟩ | hother
      · have hlt : accessLevel < least := stops_cons_iff.mp stops accessLevel (by rw [hdot]; rfl)
        rw [operators_dot hdot, if_pos hlt]
      · have hlt : op.binding < least :=
          stops_cons_iff.mp stops op.binding (by rw [hop, bindingOf?_symbol]; rfl)
        rw [operators_symbol hop, if_pos hlt]
      · exact operators_other hother
    | member t f rest field rest_eq dot binds name fits next =>
      cases rest_eq
      rw [operators_dot dot, if_neg (Nat.not_lt_of_le binds)]
      dsimp only
      rw [name]
      dsimp only
      rw [if_neg (Nat.not_le_of_lt fits)]
      exact next
    | binary t after op right rest_eq symbol binds read fits next =>
      cases rest_eq
      rw [operators_symbol symbol, if_neg (Nat.not_lt_of_le binds), read, ok_bind,
        if_neg (Nat.not_le_of_lt fits)]
      exact next

/-! ## 4. Items and fields -/

/-- What a round of items does that ends in success. -/
inductive ItemsStep (operand : Operand) (rounds : Nat) (tokens : List Token) (es : List Expr)
    (height : Nat) (rest : List Token) : Prop where
  /-- The last item. -/
  | last (first : Reading) (c : Token) (read : operand 0 tokens = .ok first)
    (rest_eq : first.rest = c :: rest) (close : c.lexeme = .symbol .closeSquare)
    (items_eq : es = [first.expr]) (height_eq : height = first.height)
  /-- An item, a comma, and further items. -/
  | more (first : Reading) (c : Token) (after : List Token) (others : List Expr) (highest : Nat)
    (read : operand 0 tokens = .ok first) (rest_eq : first.rest = c :: after)
    (comma : c.lexeme = .symbol .comma)
    (next : items operand rounds after = .ok (others, highest, rest))
    (items_eq : es = first.expr :: others) (height_eq : height = max first.height highest)

theorem items_eq_ok_iff {rounds : Nat} {tokens rest : List Token} {es : List Expr} {height : Nat} :
    items operand (rounds + 1) tokens = .ok (es, height, rest) ↔
      ItemsStep operand rounds tokens es height rest := by
  simp only [items, bind_eq_ok_iff]
  constructor
  · rintro ⟨first, hread, h⟩
    split at h
    · cases h
    · next c after hrest =>
      split at h
      · next hcomma =>
        obtain ⟨⟨others, highest, rest'⟩, hnext, h⟩ := bind_eq_ok_iff.mp h
        cases h
        exact .more first c after others highest hread hrest hcomma hnext rfl rfl
      · obtain ⟨rest', hclose, h⟩ := bind_eq_ok_iff.mp h
        cases h
        obtain ⟨c', hc, heq⟩ := expect_eq_ok_iff.mp hclose
        cases heq
        exact .last first c hread hrest hc rfl rfl
  · intro h
    cases h with
    | last first c read rest_eq close items_eq height_eq =>
      refine ⟨first, read, ?_⟩
      rw [rest_eq]
      dsimp only
      rw [if_neg (by rw [close]; decide), expect_eq_ok_iff.mpr ⟨c, close, rfl⟩, items_eq, height_eq]
      rfl
    | more first c after others highest read rest_eq comma next items_eq height_eq =>
      refine ⟨first, read, ?_⟩
      rw [rest_eq]
      dsimp only
      rw [if_pos comma, next, items_eq, height_eq]
      rfl

/-- What a round of fields does that ends in success. -/
inductive FieldsStep (operand : Operand) (rounds : Nat) (seen : List String) (tokens : List Token)
    (entries : List (String × Expr)) (height : Nat) (rest : List Token) : Prop where
  /-- The last field. -/
  | last (k colon : Token) (key : String) (valueTokens : List Token) (value : Reading) (c : Token)
    (tokens_eq : tokens = k :: colon :: valueTokens) (string : k.lexeme = .string key)
    (new : key ∉ seen) (symbol : colon.lexeme = .symbol .colon)
    (read : operand 0 valueTokens = .ok value) (rest_eq : value.rest = c :: rest)
    (close : c.lexeme = .symbol .closeCurly) (entries_eq : entries = [(key, value.expr)])
    (height_eq : height = value.height)
  /-- A field, a comma, and further fields. -/
  | more (k colon : Token) (key : String) (valueTokens : List Token) (value : Reading) (c : Token)
    (after : List Token) (others : List (String × Expr)) (highest : Nat)
    (tokens_eq : tokens = k :: colon :: valueTokens) (string : k.lexeme = .string key)
    (new : key ∉ seen) (symbol : colon.lexeme = .symbol .colon)
    (read : operand 0 valueTokens = .ok value) (rest_eq : value.rest = c :: after)
    (comma : c.lexeme = .symbol .comma)
    (next : fields operand rounds (key :: seen) after = .ok (others, highest, rest))
    (entries_eq : entries = (key, value.expr) :: others)
    (height_eq : height = max value.height highest)

theorem fields_eq_ok_iff {rounds : Nat} {seen : List String} {tokens rest : List Token}
    {entries : List (String × Expr)} {height : Nat} :
    fields operand (rounds + 1) seen tokens = .ok (entries, height, rest) ↔
      FieldsStep operand rounds seen tokens entries height rest := by
  constructor
  · intro h
    cases tokens with
    | nil => cases h
    | cons k tokens =>
      simp only [fields] at h
      split at h
      · next key hkey =>
        split at h
        · cases h
        · next hnew =>
          obtain ⟨valueTokens, hcolon, hvalue⟩ := bind_eq_ok_iff.mp h
          obtain ⟨value, hread, hend⟩ := bind_eq_ok_iff.mp hvalue
          clear h hvalue
          obtain ⟨colon, hc, rfl⟩ := expect_eq_ok_iff.mp hcolon
          split at hend
          · cases hend
          · next c after hrest =>
            split at hend
            · next hcomma =>
              obtain ⟨⟨others, highest, rest'⟩, hnext, hok⟩ := bind_eq_ok_iff.mp hend
              cases hok
              exact .more k colon key valueTokens value c after others highest rfl
                hkey hnew hc hread
                hrest hcomma hnext rfl rfl
            · obtain ⟨rest', hclose, hok⟩ := bind_eq_ok_iff.mp hend
              cases hok
              obtain ⟨c', hc', heq⟩ := expect_eq_ok_iff.mp hclose
              cases heq
              exact .last k colon key valueTokens value c rfl hkey hnew hc hread hrest hc' rfl rfl
      · cases h
  · intro h
    cases h with
    | last k colon key valueTokens value c tokens_eq string new symbol read rest_eq close entries_eq
        height_eq =>
      cases tokens_eq
      simp only [fields, string, new, if_false]
      rw [expect_eq_ok_iff.mpr ⟨colon, symbol, rfl⟩, ok_bind, read, ok_bind, rest_eq]
      dsimp only
      rw [if_neg (by rw [close]; decide), expect_eq_ok_iff.mpr ⟨c, close, rfl⟩,
        entries_eq, height_eq]
      rfl
    | more k colon key valueTokens value c after others highest tokens_eq string new symbol read
        rest_eq comma next entries_eq height_eq =>
      cases tokens_eq
      simp only [fields, string, new, if_false]
      rw [expect_eq_ok_iff.mpr ⟨colon, symbol, rfl⟩, ok_bind, read, ok_bind, rest_eq]
      dsimp only
      rw [if_pos comma, next, entries_eq, height_eq]
      rfl

/-! ## 5. Atoms -/

/-- The expression that a single lexeme is. -/
def leaf? : Lexeme → Option Expr
  | .null => some .null
  | .bool value => some (.bool value)
  | .number value => some (.number value)
  | .string value => some (.string value)
  | .symbol .question => some .existence
  | _ => none

/-- The symbol that a dollar or an exclamation mark makes of a name. -/
def sigil? : Lexeme → Option (String → Expr)
  | .symbol .dollar => some .reference
  | .symbol .bang => some .action
  | _ => none

/-- The atoms, by how they start and what they hold. -/
inductive AtomStep (operand : Operand) : List Token → Reading → Prop where
  | leaf (t : Token) (e : Expr) (rest : List Token) (lexeme : leaf? t.lexeme = some e) :
    AtomStep operand (t :: rest) ⟨e, 0, rest⟩
  | named (t n : Token) (leaf : String → Expr) (name : String) (rest : List Token)
    (sigil : sigil? t.lexeme = some leaf) (word : n.lexeme = .name name) :
    AtomStep operand (t :: n :: rest) ⟨leaf name, 0, rest⟩
  | group (t c : Token) (tokens rest : List Token) (inner : Reading)
    (opening : t.lexeme = .symbol .openRound) (read : operand 0 tokens = .ok inner)
    (rest_eq : inner.rest = c :: rest) (closing : c.lexeme = .symbol .closeRound) :
    AtomStep operand (t :: tokens) ⟨inner.expr, inner.height, rest⟩
  | emptyArray (t c : Token) (rest : List Token) (opening : t.lexeme = .symbol .openSquare)
    (closing : c.lexeme = .symbol .closeSquare) :
    AtomStep operand (t :: c :: rest) ⟨.array [], 0, rest⟩
  | array (t u : Token) (after rest : List Token) (es : List Expr) (height : Nat)
    (opening : t.lexeme = .symbol .openSquare) (nonempty : u.lexeme ≠ .symbol .closeSquare)
    (comma : hasOwnComma 0 (u :: after) = true)
    (read : items operand (after.length + 1) (u :: after) = .ok (es, height, rest)) :
    AtomStep operand (t :: u :: after) ⟨.array es, height + 1, rest⟩
  | similarity (t u c : Token) (after rest : List Token) (inner : Reading)
    (opening : t.lexeme = .symbol .openSquare) (nonempty : u.lexeme ≠ .symbol .closeSquare)
    (noComma : hasOwnComma 0 (u :: after) = false) (read : operand 0 (u :: after) = .ok inner)
    (rest_eq : inner.rest = c :: rest) (closing : c.lexeme = .symbol .closeSquare) :
    AtomStep operand (t :: u :: after) ⟨.similarity inner.expr, inner.height + 1, rest⟩
  | emptyObject (t c : Token) (rest : List Token) (opening : t.lexeme = .symbol .openCurly)
    (closing : c.lexeme = .symbol .closeCurly) :
    AtomStep operand (t :: c :: rest) ⟨.object [], 0, rest⟩
  | object (t u : Token) (after rest : List Token) (entries : List (String × Expr)) (height : Nat)
    (opening : t.lexeme = .symbol .openCurly) (field : startsField (u :: after) = .ok true)
    (read : fields operand (after.length + 1) [] (u :: after) = .ok (entries, height, rest)) :
    AtomStep operand (t :: u :: after) ⟨.object entries, height + 1, rest⟩
  | difference (t u c : Token) (after rest : List Token) (inner : Reading)
    (opening : t.lexeme = .symbol .openCurly) (nonempty : u.lexeme ≠ .symbol .closeCurly)
    (noField : startsField (u :: after) = .ok false) (read : operand 0 (u :: after) = .ok inner)
    (rest_eq : inner.rest = c :: rest) (closing : c.lexeme = .symbol .closeCurly) :
    AtomStep operand (t :: u :: after) ⟨.difference inner.expr, inner.height + 1, rest⟩

theorem atom_of_step {tokens : List Token} {out : Reading} (h : AtomStep operand tokens out) :
    atom operand tokens = .ok out := by
  cases h with
  | leaf t e rest lexeme =>
    obtain ⟨x, pos⟩ := t
    cases x with
    | symbol s =>
      cases s <;> cases lexeme
      rfl
    | _ => cases lexeme <;> rfl
  | named t n leaf name rest sigil word =>
    obtain ⟨x, pos⟩ := t
    obtain ⟨y, pos'⟩ := n
    cases word
    cases x with
    | symbol s => cases s <;> cases sigil <;> rfl
    | _ => cases sigil
  | group t c tokens rest inner opening read rest_eq closing =>
    simp only [atom, opening, read, ok_bind, rest_eq]
    rw [expect_eq_ok_iff.mpr ⟨c, closing, rfl⟩]
    rfl
  | emptyArray t c rest opening closing =>
    simp only [atom, opening, square, closing, if_true]
    rfl
  | array t u after rest es height opening nonempty comma read =>
    simp only [atom, opening, square, nonempty, if_false, comma, if_true, List.length_cons, read]
    rfl
  | similarity t u c after rest inner opening nonempty noComma read rest_eq closing =>
    simp only [atom, opening, square, nonempty, if_false, noComma, Bool.false_eq_true,
      read, ok_bind, rest_eq]
    rw [expect_eq_ok_iff.mpr ⟨c, closing, rfl⟩]
    rfl
  | emptyObject t c rest opening closing =>
    simp only [atom, opening, curly, closing, if_true]
    rfl
  | object t u after rest entries height opening field read =>
    -- a field starts with a string, so the object is not empty
    have nonempty : u.lexeme ≠ .symbol .closeCurly := by
      intro hu
      simp [startsField, hu] at field
    simp only [atom, opening, curly, nonempty, if_false, field, ok_bind, if_true,
      List.length_cons, read]
    rfl
  | difference t u c after rest inner opening nonempty noField read rest_eq closing =>
    simp only [atom, opening, curly, nonempty, if_false, noField, ok_bind, Bool.false_eq_true, read,
      rest_eq]
    rw [expect_eq_ok_iff.mpr ⟨c, closing, rfl⟩]
    rfl

theorem step_of_square {t : Token} {tokens : List Token} {out : Reading}
    (opening : t.lexeme = .symbol .openSquare) (h : square operand tokens = .ok out) :
    AtomStep operand (t :: tokens) out := by
  cases tokens with
  | nil => cases h
  | cons u after =>
    simp only [square] at h
    split at h
    · next hclose =>
      cases h
      exact .emptyArray t u after opening hclose
    · next hclose =>
      split at h
      · next hcomma =>
        obtain ⟨⟨es, height, rest⟩, hread, hok⟩ := bind_eq_ok_iff.mp h
        cases hok
        exact .array t u after rest es height opening hclose hcomma hread
      · next hcomma =>
        obtain ⟨inner, hread, hinner⟩ := bind_eq_ok_iff.mp h
        obtain ⟨rest, hexpect, hok⟩ := bind_eq_ok_iff.mp hinner
        cases hok
        obtain ⟨c, hc, hrest⟩ := expect_eq_ok_iff.mp hexpect
        exact .similarity t u c after rest inner opening hclose (Bool.eq_false_iff.mpr hcomma) hread
          hrest hc

theorem step_of_curly {t : Token} {tokens : List Token} {out : Reading}
    (opening : t.lexeme = .symbol .openCurly) (h : curly operand tokens = .ok out) :
    AtomStep operand (t :: tokens) out := by
  cases tokens with
  | nil => cases h
  | cons u after =>
    simp only [curly] at h
    split at h
    · next hclose =>
      cases h
      exact .emptyObject t u after opening hclose
    · next hclose =>
      obtain ⟨field, hfield, hbody⟩ := bind_eq_ok_iff.mp h
      split at hbody
      · next htrue =>
        obtain ⟨⟨entries, height, rest⟩, hread, hok⟩ := bind_eq_ok_iff.mp hbody
        cases hok
        exact .object t u after rest entries height opening (htrue ▸ hfield) hread
      · next hfalse =>
        obtain ⟨inner, hread, hinner⟩ := bind_eq_ok_iff.mp hbody
        obtain ⟨rest, hexpect, hok⟩ := bind_eq_ok_iff.mp hinner
        cases hok
        obtain ⟨c, hc, hrest⟩ := expect_eq_ok_iff.mp hexpect
        exact .difference t u c after rest inner opening hclose
          (Bool.eq_false_iff.mpr hfalse ▸ hfield) hread hrest hc

theorem step_of_named {t : Token} {sigil : Symbol} {leaf : String → Expr} {tokens : List Token}
    {out : Reading} (hs : sigil? t.lexeme = some leaf) (h : named sigil leaf tokens = .ok out) :
    AtomStep operand (t :: tokens) out := by
  cases tokens with
  | nil => cases h
  | cons n rest =>
    simp only [named] at h
    split at h
    · next name hname =>
      cases h
      exact .named t n leaf name rest hs hname
    · cases h

theorem step_of_atom {tokens : List Token} {out : Reading} (h : atom operand tokens = .ok out) :
    AtomStep operand tokens out := by
  cases tokens with
  | nil => cases h
  | cons t rest =>
    simp only [atom] at h
    split at h
    · next hx => cases h; exact .leaf t _ rest (by rw [hx]; rfl)
    · next value hx => cases h; exact .leaf t _ rest (by rw [hx]; rfl)
    · next value hx => cases h; exact .leaf t _ rest (by rw [hx]; rfl)
    · next value hx => cases h; exact .leaf t _ rest (by rw [hx]; rfl)
    · next hx => cases h; exact .leaf t _ rest (by rw [hx]; rfl)
    · next hx => exact step_of_named (by rw [hx]; rfl) h
    · next hx => exact step_of_named (by rw [hx]; rfl) h
    · next hx =>
      obtain ⟨inner, hread, hinner⟩ := bind_eq_ok_iff.mp h
      obtain ⟨after, hexpect, hok⟩ := bind_eq_ok_iff.mp hinner
      cases hok
      obtain ⟨c, hc, hrest⟩ := expect_eq_ok_iff.mp hexpect
      exact .group t c rest after inner hx hread hrest hc
    · next hx => exact step_of_square hx h
    · next hx => exact step_of_curly hx h
    · cases h

end Sigil.Expr
