import Sigil.Proofs.Expr.Completeness

/-!
# Reading is blind to places

Where its tokens stand in the text matters to the reader for the faults it reports, and for
nothing it returns. Tokens with the same lexemes are read as the same tree
(`ofTokens_of_lexemes`), so a text is read as what its lexemes are read as. Each loop of the
reader is blind if the operands that it reads are.
-/

namespace Sigil.Expr

/-- Other places of the tokens change nothing but the places of the rest. -/
def Blind (operand : Operand) : Prop :=
  ∀ {least : Nat} {ts us : List Token} {out : Reading}, lexemes ts = lexemes us →
    operand least ts = .ok out →
      ∃ rest, operand least us = .ok { out with rest } ∧ lexemes out.rest = lexemes rest

variable {operand : Operand} {ts us : List Token}

/-- Tokens that start with the lexeme of another one. -/
theorem exists_cons_of_lexemes {t : Token} (h : lexemes (t :: ts) = lexemes us) :
    ∃ u us', us = u :: us' ∧ u.lexeme = t.lexeme ∧ lexemes ts = lexemes us' := by
  obtain ⟨u, us', rfl, hu, hrest⟩ := exists_of_lexemes_cons h.symm
  exact ⟨u, us', rfl, hu, hrest.symm⟩

theorem length_eq_of_lexemes (h : lexemes ts = lexemes us) : ts.length = us.length := by
  simpa [lexemes] using congrArg List.length h

/-! ## 1. Loops -/

theorem Blind.items (ho : Blind operand) {rounds : Nat} {es : List Expr} {height : Nat}
    {rest : List Token} (h : lexemes ts = lexemes us)
    (hread : items operand rounds ts = .ok (es, height, rest)) :
    ∃ rest', Expr.items operand rounds us = .ok (es, height, rest') ∧
      lexemes rest = lexemes rest' := by
  induction rounds generalizing ts us es height rest with
  | zero => cases hread
  | succ rounds ih =>
    cases items_eq_ok_iff.mp hread with
    | last first c read rest_eq close items_eq height_eq =>
      -- the two readings go side by side: what is looked at is the word, never the place
      obtain ⟨after, hfirst, hafter⟩ := ho h read
      rw [rest_eq] at hafter
      obtain ⟨c', rest', rfl, hc, hrest⟩ := exists_cons_of_lexemes hafter
      exact ⟨rest', items_eq_ok_iff.mpr
        (.last _ c' hfirst rfl (hc.trans close) items_eq height_eq), hrest⟩
    | more first c after others highest read rest_eq comma next items_eq height_eq =>
      obtain ⟨after', hfirst, hafter⟩ := ho h read
      rw [rest_eq] at hafter
      obtain ⟨c', after'', rfl, hc, hrests⟩ := exists_cons_of_lexemes hafter
      obtain ⟨rest', hnext, hrest⟩ := ih hrests next
      exact ⟨rest', items_eq_ok_iff.mpr
        (.more _ c' after'' others highest hfirst rfl (hc.trans comma) hnext items_eq height_eq),
        hrest⟩

theorem Blind.fields (ho : Blind operand) {rounds : Nat} {seen : List String}
    {entries : List (String × Expr)} {height : Nat} {rest : List Token}
    (h : lexemes ts = lexemes us)
    (hread : fields operand rounds seen ts = .ok (entries, height, rest)) :
    ∃ rest', Expr.fields operand rounds seen us = .ok (entries, height, rest') ∧
      lexemes rest = lexemes rest' := by
  induction rounds generalizing seen ts us entries height rest with
  | zero => cases hread
  | succ rounds ih =>
    cases fields_eq_ok_iff.mp hread with
    | last k colon key valueTokens value c tokens_eq string new symbol read rest_eq close entries_eq
        height_eq =>
      subst tokens_eq
      obtain ⟨k', us, rfl, hk, h⟩ := exists_cons_of_lexemes h
      obtain ⟨colon', valueTokens', rfl, hcolon, h⟩ := exists_cons_of_lexemes h
      obtain ⟨after, hvalue, hafter⟩ := ho h read
      rw [rest_eq] at hafter
      obtain ⟨c', rest', rfl, hc, hrest⟩ := exists_cons_of_lexemes hafter
      exact ⟨rest', fields_eq_ok_iff.mpr
        (.last k' colon' key valueTokens' _ c' rfl (hk.trans string) new
          (hcolon.trans symbol) hvalue rfl (hc.trans close) entries_eq height_eq), hrest⟩
    | more k colon key valueTokens value c after others highest tokens_eq string new symbol
        read rest_eq comma next entries_eq height_eq =>
      subst tokens_eq
      obtain ⟨k', us, rfl, hk, h⟩ := exists_cons_of_lexemes h
      obtain ⟨colon', valueTokens', rfl, hcolon, h⟩ := exists_cons_of_lexemes h
      obtain ⟨after', hvalue, hafter⟩ := ho h read
      rw [rest_eq] at hafter
      obtain ⟨c', after'', rfl, hc, hrests⟩ := exists_cons_of_lexemes hafter
      obtain ⟨rest', hnext, hrest⟩ := ih hrests next
      exact ⟨rest', fields_eq_ok_iff.mpr
        (.more k' colon' key valueTokens' _ c' after'' others highest rfl (hk.trans string)
          new (hcolon.trans symbol) hvalue rfl (hc.trans comma) hnext entries_eq height_eq), hrest⟩

/-- Other places of the tokens behind the left operand. -/
theorem Blind.operators (ho : Blind operand) {room least rounds : Nat} {left out : Reading}
    {rest : List Token} (h : lexemes left.rest = lexemes rest)
    (hread : operators operand room least rounds left = .ok out) :
    ∃ rest', Expr.operators operand room least rounds { left with rest } =
      .ok { out with rest := rest' } ∧
      lexemes out.rest = lexemes rest' := by
  induction rounds generalizing left out rest with
  | zero => cases hread
  | succ rounds ih =>
    cases operators_eq_ok_iff.mp hread with
    | stop t after rest_eq stops result =>
      subst result
      rw [rest_eq] at h stops
      obtain ⟨t', after', rfl, ht, hafter⟩ := exists_cons_of_lexemes h
      refine ⟨t' :: after', operators_eq_ok_iff.mpr (.stop t' after' rfl ?_ rfl), ?_⟩
      · exact stops_cons_iff.mpr (ht ▸ stops_cons_iff.mp stops)
      · rw [rest_eq, lexemes_cons, lexemes_cons, ht, hafter]
    | member t f after field rest_eq dot binds name fits next =>
      rw [rest_eq] at h
      obtain ⟨t', us, rfl, ht, h⟩ := exists_cons_of_lexemes h
      obtain ⟨f', after', rfl, hf, hafter⟩ := exists_cons_of_lexemes h
      have hbehind : lexemes (⟨.member left.expr field, left.height + 1, after⟩ : Reading).rest =
          lexemes after' := hafter
      obtain ⟨rest', hnext, hrest⟩ := ih hbehind next
      exact ⟨rest', operators_eq_ok_iff.mpr
        (.member t' f' after' field rfl (ht.trans dot) binds (hf.trans name) fits hnext), hrest⟩
    | binary t after op right rest_eq symbol binds read fits next =>
      rw [rest_eq] at h
      obtain ⟨t', after', rfl, ht, hafter⟩ := exists_cons_of_lexemes h
      obtain ⟨behind, hright, hrests⟩ := ho hafter read
      have hbehind : lexemes (⟨.binary op left.expr right.expr, max left.height right.height + 1,
          right.rest⟩ : Reading).rest = lexemes behind := hrests
      obtain ⟨rest', hnext, hrest⟩ := ih hbehind next
      exact ⟨rest', operators_eq_ok_iff.mpr
        (.binary t' after' op _ rfl (ht.trans symbol) binds hright fits hnext), hrest⟩

/-! ## 2. Atoms -/

/-- The test for a field looks at the lexemes. -/
theorem startsField_congr (h : lexemes ts = lexemes us) {field : Bool}
    (hts : startsField ts = .ok field) :
    startsField us = .ok field := by
  cases ts with
  | nil => cases hts
  | cons t ts =>
    obtain ⟨u, us, rfl, hu, hrest⟩ := exists_cons_of_lexemes h
    cases ts with
    | nil =>
      rw [List.map_eq_nil_iff.mp hrest.symm]
      obtain ⟨x, pos⟩ := t
      obtain ⟨y, pos'⟩ := u
      cases hu
      cases x <;> exact hts
    | cons t' ts =>
      obtain ⟨u', us, rfl, -, -⟩ := exists_cons_of_lexemes hrest
      rw [startsField_eq_ok (List.cons_ne_nil _ _)] at hts ⊢
      rw [← h]
      exact hts

theorem Blind.atom (ho : Blind operand) {out : Reading} (h : lexemes ts = lexemes us)
    (hread : atom operand ts = .ok out) :
    ∃ rest, Expr.atom operand us = .ok { out with rest } ∧ lexemes out.rest = lexemes rest := by
  cases step_of_atom hread with
  | leaf t e rest lexeme =>
    obtain ⟨t', rest', rfl, ht, hrest⟩ := exists_cons_of_lexemes h
    exact ⟨rest', atom_of_step (.leaf t' e rest' (ht ▸ lexeme)), hrest⟩
  | named t n leaf name rest sigil word =>
    obtain ⟨t', us, rfl, ht, h⟩ := exists_cons_of_lexemes h
    obtain ⟨n', rest', rfl, hn, hrest⟩ := exists_cons_of_lexemes h
    exact ⟨rest', atom_of_step (.named t' n' leaf name rest' (ht ▸ sigil) (hn.trans word)), hrest⟩
  | group t c tokens rest inner opening read rest_eq closing =>
    obtain ⟨t', us, rfl, ht, h⟩ := exists_cons_of_lexemes h
    obtain ⟨after, hinner, hafter⟩ := ho h read
    rw [rest_eq] at hafter
    obtain ⟨c', rest', rfl, hc, hrest⟩ := exists_cons_of_lexemes hafter
    exact ⟨rest',
      atom_of_step (.group t' c' us rest' { inner with rest := c' :: rest' } (ht.trans opening)
      hinner rfl (hc.trans closing)), hrest⟩
  | emptyArray t c rest opening closing =>
    obtain ⟨t', us, rfl, ht, h⟩ := exists_cons_of_lexemes h
    obtain ⟨c', rest', rfl, hc, hrest⟩ := exists_cons_of_lexemes h
    exact ⟨rest',
      atom_of_step (.emptyArray t' c' rest' (ht.trans opening) (hc.trans closing)), hrest⟩
  | array t u after rest es height opening nonempty comma read =>
    obtain ⟨t', us, rfl, ht, h⟩ := exists_cons_of_lexemes h
    obtain ⟨rest', hitems, hrest⟩ := ho.items h read
    -- the bound on the rounds is the number of tokens, which is the same
    have hlength : after.length + 1 = us.length := length_eq_of_lexemes h
    rw [hasOwnComma_eq, h, ← hasOwnComma_eq] at comma
    obtain ⟨u', us', rfl, hu, -⟩ := exists_cons_of_lexemes h
    rw [hlength, List.length_cons] at hitems
    exact ⟨rest',
      atom_of_step (.array t' u' us' rest' es height (ht.trans opening) (hu ▸ nonempty) comma
      hitems), hrest⟩
  | similarity t u c after rest inner opening nonempty noComma read rest_eq closing =>
    obtain ⟨t', us, rfl, ht, h⟩ := exists_cons_of_lexemes h
    obtain ⟨behind, hinner, hbehind⟩ := ho h read
    rw [rest_eq] at hbehind
    obtain ⟨c', rest', rfl, hc, hrest⟩ := exists_cons_of_lexemes hbehind
    rw [hasOwnComma_eq, h, ← hasOwnComma_eq] at noComma
    obtain ⟨u', us', rfl, hu, -⟩ := exists_cons_of_lexemes h
    exact ⟨rest', atom_of_step (.similarity t' u' c' us' rest' { inner with rest := c' :: rest' }
      (ht.trans opening) (hu ▸ nonempty) noComma hinner rfl (hc.trans closing)), hrest⟩
  | emptyObject t c rest opening closing =>
    obtain ⟨t', us, rfl, ht, h⟩ := exists_cons_of_lexemes h
    obtain ⟨c', rest', rfl, hc, hrest⟩ := exists_cons_of_lexemes h
    exact ⟨rest',
      atom_of_step (.emptyObject t' c' rest' (ht.trans opening) (hc.trans closing)), hrest⟩
  | object t u after rest entries height opening field read =>
    obtain ⟨t', us, rfl, ht, h⟩ := exists_cons_of_lexemes h
    obtain ⟨rest', hfields, hrest⟩ := ho.fields h read
    have hlength : after.length + 1 = us.length := length_eq_of_lexemes h
    have hfield := startsField_congr h field
    obtain ⟨u', us', rfl, hu, -⟩ := exists_cons_of_lexemes h
    rw [hlength, List.length_cons] at hfields
    exact ⟨rest',
      atom_of_step (.object t' u' us' rest' entries height (ht.trans opening) hfield hfields),
      hrest⟩
  | difference t u c after rest inner opening nonempty noField read rest_eq closing =>
    obtain ⟨t', us, rfl, ht, h⟩ := exists_cons_of_lexemes h
    obtain ⟨behind, hinner, hbehind⟩ := ho h read
    rw [rest_eq] at hbehind
    obtain ⟨c', rest', rfl, hc, hrest⟩ := exists_cons_of_lexemes hbehind
    have hfield := startsField_congr h noField
    obtain ⟨u', us', rfl, hu, -⟩ := exists_cons_of_lexemes h
    exact ⟨rest', atom_of_step (.difference t' u' c' us' rest' { inner with rest := c' :: rest' }
      (ht.trans opening) (hu ▸ nonempty) hfield hinner rfl (hc.trans closing)), hrest⟩

/-! ## 3. Expressions -/

/-- Whatever the room, reading an expression is blind to places. -/
theorem blind_expression (room : Nat) : Blind (expression room) := by
  induction room with
  | zero =>
    intro least ts us out _ h
    cases ts <;> cases h
  | succ room ih =>
    intro least ts us out h hread
    obtain ⟨left, hatom, hops⟩ := bind_eq_ok_iff.mp hread
    obtain ⟨behind, hatom', hbehind⟩ := ih.atom h hatom
    obtain ⟨rest, hops', hrest⟩ := ih.operators hbehind hops
    rw [length_eq_of_lexemes hbehind] at hops'
    exact ⟨rest, bind_eq_ok_iff.mpr ⟨_, hatom', hops'⟩, hrest⟩

/-- **What tokens are read as is told by their lexemes.** -/
theorem ofTokens_of_lexemes {e : Expr} (h : lexemes ts = lexemes us) (hread : ofTokens ts = .ok e) :
    ofTokens us = .ok e := by
  have hlast : ts.getLast?.map Token.lexeme = us.getLast?.map Token.lexeme := by
    rw [← List.getLast?_map, ← List.getLast?_map]
    exact congrArg List.getLast? h
  unfold ofTokens at hread ⊢
  split at hread
  · cases hread
  · next last hts =>
    split at hread
    · next hfinish =>
      rw [hts, Option.map_some, hfinish] at hlast
      obtain ⟨last', hus, hfinish'⟩ := Option.map_eq_some_iff.mp hlast.symm
      obtain ⟨whole, hwhole, hend⟩ := bind_eq_ok_iff.mp hread
      obtain ⟨rest, hwhole', hrest⟩ := blind_expression _ h hwhole
      rw [hus]
      dsimp only
      rw [if_pos hfinish', hwhole', ok_bind]
      split at hend
      · cases hend
      · next t after hbehind =>
        rw [hbehind] at hrest
        obtain ⟨t', after', rfl, ht, -⟩ := exists_cons_of_lexemes hrest
        split at hend
        · next hend' =>
          dsimp only
          rw [if_pos (ht.trans hend')]
          exact hend
        · cases hend
    · cases hread

end Sigil.Expr
