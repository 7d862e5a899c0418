import Sigil.Proofs.Expr.Reading

/-!
# What is read is derived

Every expression that the reader returns is derived by the tokens that it took, and its height is
the true one. The reader is layered by the room left, so this is an induction on the room: an
operand that is sound (`OperandSound`) makes the atoms, the rows of items and fields, and the rounds
of operators over it sound. The rounds carry an invariant (`Spelt`): what is read so far stands at
some level, and the next operator does not bind more tightly than that level.
-/

namespace Sigil.Expr

/-! ## 1. Derivations of any depth -/

theorem Derives.spells {d q : Nat} {w : List Lexeme} {e : Expr} (h : Derives d q w e)
    (hq : loosest ≤ q) : Spells w e := ⟨d, h.lower_le hq⟩

/-- Derivations of several words have a common bound on their depth. -/
theorem exists_common_depth {α : Type} {word : α → List Lexeme} {tree : α → Expr} {parts : List α}
    (h : ∀ part ∈ parts, Spells (word part) (tree part)) :
    ∃ d, ∀ part ∈ parts, Derives d loosest (word part) (tree part) := by
  induction parts with
  | nil => exact ⟨0, fun _ hp => absurd hp List.not_mem_nil⟩
  | cons part parts ih =>
    obtain ⟨d, hd⟩ := h part List.mem_cons_self
    obtain ⟨d', hd'⟩ := ih fun p hp => h p (List.mem_cons_of_mem _ hp)
    refine ⟨max d d', fun p hp => ?_⟩
    rcases List.mem_cons.mp hp with rfl | hp
    · exact hd.mono (Nat.le_max_left d d')
    · exact (hd' p hp).mono (Nat.le_max_right d d')

/-! ## 2. What is read so far -/

/-- The tokens up to the rest derive the tree at a level no looser than required, and nothing that
    binds more tightly than that level goes on. -/
structure Spelt (least : Nat) (tokens : List Token) (out : Reading) : Prop where
  derived : ∃ word d q, tokens = word ++ out.rest ∧ least ≤ q ∧ loosest ≤ q ∧
    Derives d q (lexemes word) out.expr ∧ Stops (q + 1) out.rest
  height_eq : out.height = out.expr.height

/-- What such an operand returns is spelt by the tokens it took, and ends where it should. -/
def OperandSound (operand : Operand) : Prop :=
  ∀ least ≤ accessLevel, ∀ tokens out, operand least tokens = .ok out →
    Spelt least tokens out ∧ Stops least out.rest

/-- An expression in brackets. -/
theorem OperandSound.inner {operand : Operand} (h : OperandSound operand) {tokens : List Token}
    {out : Reading} (hread : operand 0 tokens = .ok out) :
    (∃ word, tokens = word ++ out.rest ∧ Spells (lexemes word) out.expr) ∧
      out.height = out.expr.height := by
  obtain ⟨⟨⟨word, d, q, htokens, _, hq, hd, _⟩, hheight⟩, _⟩ :=
    h 0 (Nat.zero_le _) tokens out hread
  exact ⟨⟨word, htokens, hd.spells hq⟩, hheight⟩

variable {operand : Operand}

/-! ## 3. Items and fields -/

/-- Items that are read are expressions with commas between them. -/
theorem items_sound (ho : OperandSound operand) {rounds : Nat} {tokens rest : List Token}
    {es : List Expr} {height : Nat} (h : items operand rounds tokens = .ok (es, height, rest)) :
    ∃ (parts : List (List Lexeme × Expr)) (word : List Token), tokens = word ++ rest ∧
      lexemes word = commaSeparated (parts.map Prod.fst) ++ [.symbol .closeSquare] ∧
      es = parts.map Prod.snd ∧ (∀ part ∈ parts, Spells part.1 part.2) ∧ parts ≠ [] ∧
      height = heightOfItems es := by
  induction rounds generalizing tokens es height with
  | zero => cases h
  | succ rounds ih =>
    cases items_eq_ok_iff.mp h with
    | last first c read rest_eq close items_eq height_eq =>
      obtain ⟨⟨word, rfl, hspells⟩, hheight⟩ := ho.inner read
      refine ⟨[(lexemes word, first.expr)], word ++ [c], ?_, ?_, items_eq, ?_, by simp, ?_⟩
      · rw [rest_eq, List.append_assoc]
        rfl
      · simp [commaSeparated, close]
      · simpa using hspells
      · rw [height_eq, hheight, items_eq]
        simp [heightOfItems]
    | more first c after others highest read rest_eq comma next items_eq height_eq =>
      obtain ⟨⟨word, rfl, hspells⟩, hheight⟩ := ho.inner read
      obtain ⟨parts, word', rfl, hword', rfl, hparts, hne, hhighest⟩ := ih next
      refine ⟨(lexemes word, first.expr) :: parts, word ++ c :: word', ?_, ?_, items_eq,
        ?_, by simp, ?_⟩
      · rw [rest_eq, List.append_assoc]
        rfl
      · cases parts with
        | nil => exact absurd rfl hne
        | cons part parts =>
          rw [lexemes_append, lexemes_cons, comma, hword']
          simp [commaSeparated]
      · exact List.forall_mem_cons.mpr ⟨hspells, hparts⟩
      · rw [height_eq, hheight, hhighest, items_eq]
        rfl

/-- Fields that are read are keys with values and commas between them, and no key comes twice or was
    seen before. -/
theorem fields_sound (ho : OperandSound operand) {rounds : Nat} {seen : List String}
    {tokens rest : List Token} {entries : List (String × Expr)} {height : Nat}
    (h : fields operand rounds seen tokens = .ok (entries, height, rest)) :
    ∃ (parts : List (String × List Lexeme × Expr)) (word : List Token), tokens = word ++ rest ∧
      lexemes word = commaSeparated (parts.map fun part => fieldWord part.1 part.2.1) ++
        [.symbol .closeCurly] ∧
      entries = (parts.map fun part => (part.1, part.2.2)) ∧
      (∀ part ∈ parts, Spells part.2.1 part.2.2) ∧ parts ≠ [] ∧ (parts.map Prod.fst).Nodup ∧
      (∀ part ∈ parts, part.1 ∉ seen) ∧ height = heightOfFields entries := by
  induction rounds generalizing seen tokens entries height with
  | zero => cases h
  | succ rounds ih =>
    cases fields_eq_ok_iff.mp h with
    | last k colon key valueTokens value c tokens_eq string new symbol read rest_eq close entries_eq
        height_eq =>
      obtain ⟨⟨word, rfl, hspells⟩, hheight⟩ := ho.inner read
      refine ⟨[(key, lexemes word, value.expr)], k :: colon :: (word ++ [c]), ?_, ?_,
        entries_eq, ?_, by simp, by simp, ?_, ?_⟩
      · rw [tokens_eq, rest_eq]
        simp
      · simp [commaSeparated, fieldWord, close, string, symbol]
      · simpa using hspells
      · simpa using new
      · rw [height_eq, hheight, entries_eq]
        simp [heightOfFields]
    | more k colon key valueTokens value c after others highest tokens_eq string new symbol read
        rest_eq comma next entries_eq height_eq =>
      obtain ⟨⟨word, rfl, hspells⟩, hheight⟩ := ho.inner read
      obtain ⟨parts, word', rfl, hword', rfl, hparts, hne, hnodup, hnew, hhighest⟩ := ih next
      refine ⟨(key, lexemes word, value.expr) :: parts, k :: colon :: (word ++ c :: word'), ?_, ?_,
        entries_eq, ?_, by simp, ?_, ?_, ?_⟩
      · rw [tokens_eq, rest_eq]
        simp
      · cases parts with
        | nil => exact absurd rfl hne
        | cons part parts =>
          simp only [lexemes_cons, lexemes_append, string, symbol, comma, hword']
          simp [commaSeparated, fieldWord]
      · exact List.forall_mem_cons.mpr ⟨hspells, hparts⟩
      -- a key still to come is new, as those seen include this one
      · refine List.nodup_cons.mpr ⟨fun hkey => ?_, hnodup⟩
        obtain ⟨part, hp, hk⟩ := List.mem_map.mp hkey
        exact hnew part hp (hk ▸ List.mem_cons_self)
      · refine List.forall_mem_cons.mpr ⟨new, fun part hp hseen => ?_⟩
        exact hnew part hp (List.mem_cons_of_mem _ hseen)
      · rw [height_eq, hheight, hhighest, entries_eq]
        rfl

/-! ## 4. Atoms -/

theorem height_array {es : List Expr} (h : es ≠ []) : (array es).height = heightOfItems es + 1 := by
  cases es with
  | nil => exact absurd rfl h
  | cons e es => rfl

theorem height_object {entries : List (String × Expr)} (h : entries ≠ []) :
    (object entries).height = heightOfFields entries + 1 := by
  cases entries with
  | nil => exact absurd rfl h
  | cons entry entries => rfl

/-- A test for a field finds what the lexemes say. -/
theorem startsLikeField_of_startsField {t : Token} {tokens : List Token} {answer : Bool}
    (h : startsField (t :: tokens) = .ok answer) :
    startsLikeField (lexemes (t :: tokens)) = answer := by
  cases tokens with
  | nil =>
    obtain ⟨x, pos⟩ := t
    cases x <;> first | exact Except.ok.inj h | cases h
  | cons u tokens =>
    rw [startsField_eq_ok (List.cons_ne_nil u tokens)] at h
    exact Except.ok.inj h

theorem derives_of_leaf? {x : Lexeme} {e : Expr} (h : leaf? x = some e) :
    Derives 0 atomLevel [x] e ∧ 0 = e.height := by
  cases x with
  | symbol s =>
    cases s <;> cases h
    exact ⟨.existence, rfl⟩
  | number value => cases h; exact ⟨.number value, rfl⟩
  | string value => cases h; exact ⟨.string value, rfl⟩
  | bool value => cases h; exact ⟨.bool value, rfl⟩
  | null => cases h; exact ⟨.null, rfl⟩
  | _ => cases h

theorem derives_of_sigil? {x : Lexeme} {leaf : String → Expr} (h : sigil? x = some leaf)
    (name : String) : Derives 0 atomLevel [x, .name name] (leaf name) ∧ 0 = (leaf name).height := by
  cases x with
  | symbol s =>
    cases s <;> cases h
    · exact ⟨.reference name, rfl⟩
    · exact ⟨.action name, rfl⟩
  | _ => cases h

/-- An atom that is read is derived as one. -/
theorem atom_sound (ho : OperandSound operand) {tokens : List Token} {out : Reading}
    (h : atom operand tokens = .ok out) :
    (∃ word d, tokens = word ++ out.rest ∧ Derives d atomLevel (lexemes word) out.expr) ∧
      out.height = out.expr.height := by
  cases step_of_atom h with
  | leaf t e rest lexeme =>
    obtain ⟨hd, hheight⟩ := derives_of_leaf? lexeme
    exact ⟨⟨[t], 0, rfl, hd⟩, hheight⟩
  | named t n leaf name rest sigil word =>
    obtain ⟨hd, hheight⟩ := derives_of_sigil? sigil name
    refine ⟨⟨[t, n], 0, rfl, ?_⟩, hheight⟩
    simpa [word] using hd
  | group t c tokens rest inner opening read rest_eq closing =>
    obtain ⟨⟨word, rfl, d, hd⟩, hheight⟩ := ho.inner read
    refine ⟨⟨t :: (word ++ [c]), d + 1, by simp [rest_eq], ?_⟩, hheight⟩
    simpa [opening, closing] using hd.group
  | emptyArray t c rest opening closing =>
    refine ⟨⟨[t, c], 0, rfl, ?_⟩, rfl⟩
    simpa [opening, closing] using .emptyArray
  | array t u after rest es height opening nonempty comma read =>
    obtain ⟨parts, word, htokens, hword, rfl, hparts, hne, hheight⟩ := items_sound ho read
    obtain ⟨d, hd⟩ := exists_common_depth hparts
    -- a single item would be balanced, and no comma would have been found
    have two_le : 2 ≤ parts.length := by
      match parts, hne with
      | [part], _ =>
        have hbalanced : Balanced part.1 := (hd part List.mem_cons_self).balanced
        rw [hasOwnComma_eq, htokens, lexemes_append, hword] at comma
        simp only [List.map_cons, List.map_nil, commaSeparated, List.append_assoc] at comma
        rw [hbalanced] at comma
        cases comma
      | _ :: _ :: parts, _ => simp
    refine ⟨⟨t :: word, d + 1, by simp [htokens], ?_⟩, ?_⟩
    · rw [lexemes_cons, opening, hword]
      exact .array parts two_le hd
    · rw [height_array (by simpa using hne), ← hheight]
  | similarity t u c after rest inner opening nonempty noComma read rest_eq closing =>
    obtain ⟨⟨word, htokens, d, hd⟩, hheight⟩ := ho.inner read
    refine ⟨⟨t :: (word ++ [c]), d + 1, by simp [htokens, rest_eq], ?_⟩, ?_⟩
    · simpa [opening, closing] using hd.similarity
    · exact congrArg (· + 1) hheight
  | emptyObject t c rest opening closing =>
    refine ⟨⟨[t, c], 0, rfl, ?_⟩, rfl⟩
    simpa [opening, closing] using .emptyObject
  | object t u after rest entries height opening field read =>
    obtain ⟨parts, word, htokens, hword, rfl, hparts, hne, hnodup, _, hheight⟩ :=
      fields_sound ho read
    obtain ⟨d, hd⟩ := exists_common_depth hparts
    refine ⟨⟨t :: word, d + 1, by simp [htokens], ?_⟩, ?_⟩
    · rw [lexemes_cons, opening, hword]
      exact .object parts hne hnodup hd
    · rw [height_object (by simpa using hne), ← hheight]
  | difference t u c after rest inner opening nonempty noField read rest_eq closing =>
    obtain ⟨⟨word, htokens, d, hd⟩, hheight⟩ := ho.inner read
    refine ⟨⟨t :: (word ++ [c]), d + 1, by simp [htokens, rest_eq], ?_⟩, ?_⟩
    · have hfield : startsLikeField (lexemes word) = false := by
        have hall := startsLikeField_of_startsField noField
        rwa [htokens, rest_eq, lexemes_append, lexemes_cons, closing,
          startsLikeField_append_closed _ rfl] at hall
      simpa [opening, closing] using hd.difference hfield
    · exact congrArg (· + 1) hheight

/-! ## 5. Operators and expressions -/

/-- What does not bind more tightly than the accesses does not go on after an atom. -/
theorem stops_of_accessLevel_lt {least : Nat} (h : accessLevel < least) (tokens : List Token) :
    Stops least tokens := by
  intro t _ b hb
  rcases lexeme_cases t.lexeme with hdot | ⟨op, hop⟩ | hother
  · rw [hdot] at hb
    cases hb
    exact h
  · rw [hop, bindingOf?_symbol] at hb
    cases hb
    exact Nat.lt_trans (binding_lt_accessLevel op) h
  · rw [hother] at hb
    cases hb

/-- What is read so far, and a member access behind it. -/
theorem Spelt.member {least : Nat} (hleast : least ≤ accessLevel) {tokens : List Token}
    {left : Reading}
    (h : Spelt least tokens left) {t f : Token} {rest : List Token} {field : String}
    (rest_eq : left.rest = t :: f :: rest) (dot : t.lexeme = .symbol .dot)
    (name : f.lexeme = .name field) :
    Spelt least tokens ⟨.member left.expr field, left.height + 1, rest⟩ := by
  obtain ⟨⟨word, d, q, htokens, _, _, hd, hstops⟩, hheight⟩ := h
  rw [rest_eq] at hstops
  -- the operand stopped at the point, so its level is that of an access or tighter
  have hmember := (hd.lower_le (hstops.accessLevel_le dot)).member field
  refine ⟨⟨word ++ [t, f], d + 1, accessLevel, ?_, hleast, by decide, ?_, ?_⟩, ?_⟩
  · rw [htokens, rest_eq]
    simp
  · simpa [dot, name] using hmember
  · exact stops_of_accessLevel_lt (Nat.lt_succ_self _) rest
  · exact congrArg (· + 1) hheight

/-- What is read so far, and an operator with its right operand behind it. -/
theorem Spelt.binary (ho : OperandSound operand) {least : Nat} {tokens : List Token}
    {left right : Reading}
    (h : Spelt least tokens left) {t : Token} {after : List Token} {op : Operator}
    (rest_eq : left.rest = t :: after) (symbol : t.lexeme = .symbol op.symbol)
    (binds : least ≤ op.binding) (read : operand (op.binding + 1) after = .ok right) :
    Spelt least tokens
      ⟨.binary op left.expr right.expr, max left.height right.height + 1, right.rest⟩ := by
  obtain ⟨⟨word, d, q, htokens, _, _, hd, hstops⟩, hheight⟩ := h
  rw [rest_eq] at hstops
  obtain ⟨⟨⟨word', d', q', hafter, hq', _, hd', _⟩, hheight'⟩, hstops'⟩ :=
    ho (op.binding + 1) (binding_lt_accessLevel op) after right read
  -- the left operand stopped at the operator, so it binds at least as tightly
  have hl : Derives (max d d') op.binding (lexemes word) left.expr :=
    (hd.lower_le (hstops.binding_le symbol)).mono (Nat.le_max_left d d')
  have hr : Derives (max d d') (op.binding + 1) (lexemes word') right.expr :=
    (hd'.lower_le hq').mono (Nat.le_max_right d d')
  refine ⟨⟨word ++ t :: word', max d d' + 1, op.binding, ?_, binds, loosest_le_binding op, ?_,
    hstops'⟩, ?_⟩
  · rw [htokens, rest_eq, hafter]
    simp
  · rw [lexemes_append, lexemes_cons, symbol]
    exact .binary op hl hr
  · rw [hheight, hheight']
    rfl

/-- The rounds of operators keep what is read so far spelt. -/
theorem operators_sound (ho : OperandSound operand) {room least rounds : Nat} {tokens : List Token}
    {left out : Reading}
    (hleft : Spelt least tokens left) (h : operators operand room least rounds left = .ok out) :
    Spelt least tokens out ∧ Stops least out.rest := by
  induction rounds generalizing left with
  | zero => cases h
  | succ rounds ih =>
    cases operators_eq_ok_iff.mp h with
    | stop t after rest_eq stops result =>
      subst result
      exact ⟨hleft, stops⟩
    | member t f rest field rest_eq dot binds name fits next =>
      exact ih (hleft.member binds rest_eq dot name) next
    | binary t after op right rest_eq symbol binds read fits next =>
      exact ih (hleft.binary ho rest_eq symbol binds read) next

/-- An atom that is read is spelt, wherever it stands. -/
theorem spelt_of_atom (ho : OperandSound operand) {least : Nat} (hleast : least ≤ accessLevel)
    {tokens : List Token} {out : Reading} (h : atom operand tokens = .ok out) :
    Spelt least tokens out := by
  obtain ⟨⟨word, d, htokens, hd⟩, hheight⟩ := atom_sound ho h
  exact ⟨⟨word, d, atomLevel, htokens, Nat.le_succ_of_le hleast, by decide, hd,
    stops_of_accessLevel_lt (by decide) out.rest⟩, hheight⟩

/-- Whatever the room, what an expression returns is spelt by the tokens it took. -/
theorem expression_sound (room : Nat) : OperandSound (expression room) := by
  induction room with
  | zero =>
    intro least _ tokens out h
    cases tokens <;> cases h
  | succ room ih =>
    intro least hleast tokens out h
    obtain ⟨left, hatom, hops⟩ := bind_eq_ok_iff.mp h
    exact operators_sound ih (spelt_of_atom ih hleast hatom) hops

/-- What stands before an end of the input and holds none is the spelling. -/
theorem spelling_of_lexemes {tokens : List Token} {w rest : List Lexeme} (hw : .finish ∉ w)
    (h : lexemes tokens = w ++ .finish :: rest) : spelling tokens = w := by
  have hkeep : ∀ x ∈ w, decide (x ≠ .finish) = true := by
    intro x hx
    have hne : x ≠ .finish := fun heq => hw (heq ▸ hx)
    exact decide_eq_true hne
  unfold spelling
  rw [h, List.takeWhile_append_of_pos hkeep]
  simp

/-- Tokens that spell an expression, the end of the input, and whatever follows it. -/
theorem spelling_append_finish {ts : List Token} {f : Token} {e : Expr} (h : Spells (lexemes ts) e)
    (hf : f.lexeme = .finish) (rest : List Token) : spelling (ts ++ f :: rest) = lexemes ts := by
  obtain ⟨d, hd⟩ := h
  have hlexemes : lexemes (ts ++ f :: rest) = lexemes ts ++ .finish :: lexemes rest := by
    rw [lexemes_append, lexemes_cons, hf]
  exact spelling_of_lexemes hd.finish_not_mem hlexemes

/-- What the reader returns for whole tokens is spelt by those before the end of the input. -/
theorem spells_of_ofTokens {tokens : List Token} {e : Expr} (h : ofTokens tokens = .ok e) :
    Spells (spelling tokens) e := by
  unfold ofTokens at h
  split at h
  · cases h
  · split at h
    · obtain ⟨whole, hread, hend⟩ := bind_eq_ok_iff.mp h
      split at hend
      · cases hend
      · next t after hrest =>
        split at hend
        · next hfinish =>
          cases hend
          obtain ⟨⟨word, htokens, hspells⟩, _⟩ := (expression_sound _).inner hread
          rw [htokens, hrest, spelling_append_finish hspells hfinish]
          exact hspells
        · cases hend
    · cases h

/-- A text is read as a tree if it is scanned, and its tokens are read as that. -/
theorem ofText_eq_ok_iff {s : String} {e : Expr} :
    ofText s = .ok e ↔ ∃ tokens, Token.scan s = .ok tokens ∧ ofTokens tokens = .ok e := by
  unfold ofText
  cases Token.scan s with
  | error cause => simp
  | ok tokens =>
    cases hread : ofTokens tokens <;> simp [hread, Except.mapError]

end Sigil.Expr
