import Sigil.Proofs.Expr.Blame

/-!
# A fault shows at the first wrong token

Apart from the nesting limit, the token that an error of the reader names is the first one with
which the tokens stop being the start of an expression (`fault_is_at_first_wrong_token`). The
induction is on the room (`faultsShow`), with one lemma for each kind of bracket and one for
the loop over operators.

Which form a bracket opens is decided by what stands further on, so the same tokens before a
fault may belong to one form here and to another with a different continuation. Square
brackets without a comma of their own are therefore looked at as a row of items; in curly
ones, the token to blame is never so early that what follows it could make an object out of a
difference, or the other way round.

That no expression starts with the tokens up to the one to blame follows at the end from the
completeness of the reader: an expression would be read.
-/

namespace Sigil.Expr

open Filter (atTop)

variable {operand : Operand}

/-! ## 1. Expressions in brackets -/

/-- An expression and the symbol that closes it. -/
def closed (operand : Operand) (s : Symbol) (tokens : List Token) :
    Except SyntaxError (List Token) :=
  operand 0 tokens >>= fun inner => expect s inner.rest

/-- An expression in brackets fails where the expression does or its bracket is missing. -/
theorem closed_eq_error_iff {s : Symbol} {tokens : List Token} {e : SyntaxError}
    {whole : Reading → List Token → Reading} :
    (operand 0 tokens >>= fun inner => expect s inner.rest >>= fun rest => .ok (whole inner rest)) =
      .error e ↔ closed operand s tokens = .error e := by
  unfold closed
  cases operand 0 tokens with
  | error cause => simp
  | ok inner => cases hexpect : expect s inner.rest <;> simp [hexpect]

/-- The word is an expression and the symbol that closes it. -/
def ClosedWord (s : Symbol) (w : List Lexeme) : Prop := ∃ v, Stands 0 v ∧ w = v ++ [.symbol s]

/-- An expression in brackets is refused. -/
def RefusesClosed (s : Symbol) (tokens : List Token) : Prop :=
  ∀ᶠ room in atTop, Fails (closed (expression room) s tokens)

/-- The token to blame for an error of an expression in brackets. -/
theorem closed_blamed {room : Nat} (hroom : FaultsShow room) {s : Symbol} {tokens : List Token}
    (hfinish : .finish ∈ lexemes tokens) {e : SyntaxError}
    (h : closed (expression room) s tokens = .error e) (hdeep : ∀ pos, e ≠ .tooDeep pos) :
    Blamed (ClosedWord s) (RefusesClosed s) tokens e.pos := by
  -- the fault lies inside the brackets, or it is the bracket that does not come
  obtain hread | ⟨inner, hread, hexpect⟩ := bind_eq_error_iff.mp h
  · exact (hroom 0 (Nat.zero_le _) tokens hfinish e hread hdeep).imp (fun w hw => ⟨_, w, hw, rfl⟩)
      fun ts _ hts => hts.mono fun _ hfails => hfails.bind _
  · obtain ⟨word, t, after, rfl, hrest, hinside, _, hstands, hreads⟩ :=
      exists_reads (Nat.zero_le _) hfinish hread
    rw [hrest] at hexpect
    obtain ⟨hne, rfl⟩ := expect_eq_error_iff.mp hexpect
    refine ⟨word, t, after, rfl, rfl, hinside, ⟨_, _, hstands, rfl⟩, fun after' => ?_⟩
    filter_upwards [hreads after'] with room' hread'
    rw [closed, hread', ok_bind]
    exact ⟨_, expect_eq_error_iff.mpr ⟨hne, rfl⟩⟩

/-! ## 2. Square brackets -/

/-- Square brackets that are not empty fail like their items, whether a comma of their
    own is found or not. -/
theorem items_error_of_square {room : Nat} {u : Token} {after : List Token}
    (nonempty : u.lexeme ≠ .symbol .closeSquare) (hfinish : .finish ∈ lexemes (u :: after))
    {e : SyntaxError} (h : square (expression room) (u :: after) = .error e) :
    items (expression room) (after.length + 1) (u :: after) = .error e := by
  simp only [square, nonempty, if_false] at h
  split at h
  · obtain hitems | ⟨_, _, hok⟩ := bind_eq_error_iff.mp h
    · exact hitems
    · cases hok
  · next hcomma =>
    obtain hread | ⟨inner, hread, hexpect⟩ := bind_eq_error_iff.mp (closed_eq_error_iff.mp h)
    · exact items_of_error hread
    · obtain ⟨word, t, rest, htokens, hrest, _, _, ⟨d, q, e', _, _, hd⟩, _⟩ :=
        exists_reads (Nat.zero_le _) hfinish hread
      -- the token behind the expression would have been found if it were a comma
      have ht : t.lexeme ≠ .symbol .comma := by
        intro ht
        rw [hasOwnComma_eq, htokens, lexemes_append, hd.balanced, lexemes_cons, ht] at hcomma
        exact hcomma rfl
      rw [hrest] at hexpect
      rw [items_of_ok hread hrest, if_neg ht, hexpect]
      rfl

/-- Where items are refused, the square brackets are. -/
theorem fails_square {u : Token} {after : List Token} (nonempty : u.lexeme ≠ .symbol .closeSquare)
    (h : ∀ rounds, Fails (items operand rounds (u :: after))) :
    Fails (square operand (u :: after)) := by
  simp only [square, nonempty, if_false]
  -- whether or not the reader goes for a list, its first item is the same, and fails the same
  split
  · exact (h _).bind _
  · obtain ⟨e, he⟩ := h 1
    -- without a comma a single item must be followed by the bracket; one round shows that it is not
    cases hread : operand 0 (u :: after) with
    | error cause => exact ⟨cause, rfl⟩
    | ok inner =>
      cases hrest : inner.rest with
      | nil => exact ⟨.exhausted, by rw [ok_bind, hrest]; rfl⟩
      | cons t rest =>
        rw [items_of_ok hread hrest] at he
        have ht : t.lexeme ≠ .symbol .closeSquare := by
          intro ht
          simp [ht, expect] at he
        rw [ok_bind, hrest]
        exact Fails.bind ⟨_, expect_eq_error_iff.mpr ⟨ht, rfl⟩⟩ _

/-! ## 3. Curly brackets -/

theorem startsLikeField_of_not_string {x : Lexeme} (h : ∀ s, x ≠ .string s) (w : List Lexeme) :
    startsLikeField (x :: w) = false := by
  cases x with
  | string s => exact absurd rfl (h s)
  | _ => rfl

/-- Two lexemes tell whether a word starts like a field. -/
theorem startsLikeField_two (x y : Lexeme) (w v : List Lexeme) :
    startsLikeField (x :: y :: w) = startsLikeField (x :: y :: v) := by
  cases x with
  | string s =>
    cases y with
    | symbol s => cases s <;> rfl
    | _ => rfl
  | _ => rfl

theorem exists_of_startsLikeField {u : Token} {after : List Token}
    (h : startsLikeField (lexemes (u :: after)) = true) :
    ∃ colon key values, after = colon :: values ∧ u.lexeme = .string key ∧
      colon.lexeme = .symbol .colon := by
  simp only [lexemes_cons] at h
  unfold startsLikeField at h
  split at h
  · next key w hword =>
    obtain ⟨hkey, hafter⟩ := List.cons.inj hword
    obtain ⟨colon, values, rfl, hcolon, _⟩ := exists_of_lexemes_cons hafter
    exact ⟨colon, key, values, rfl, hkey, hcolon⟩
  · cases h

/-- The test for a field fails only where a string is the last token. -/
theorem startsField_cases (u : Token) (after : List Token) :
    ((∃ s, u.lexeme = .string s) ∧ after = []) ∨
      startsField (u :: after) = .ok (startsLikeField (lexemes (u :: after))) := by
  cases after with
  | cons v after => exact .inr (startsField_eq_ok (List.cons_ne_nil v after))
  | nil =>
    obtain ⟨x, pos⟩ := u
    cases x with
    | string s => exact .inl ⟨⟨s, rfl⟩, rfl⟩
    | _ => exact .inr rfl

/-- Where neither fields nor a difference can be read, the curly brackets are refused. -/
theorem fails_curly {u : Token} {after : List Token} (nonempty : u.lexeme ≠ .symbol .closeCurly)
    (hfields : startsLikeField (lexemes (u :: after)) = true →
      ∀ rounds, Fails (fields operand rounds [] (u :: after)))
    (hclosed : startsLikeField (lexemes (u :: after)) = false →
      Fails (closed operand .closeCurly (u :: after))) : Fails (curly operand (u :: after)) := by
  simp only [curly, nonempty, if_false]
  -- looking for a field can itself run off the end, which is a failure too
  rcases startsField_cases u after with ⟨⟨s, hs⟩, rfl⟩ | hstarts
  · refine Fails.bind ⟨.exhausted, ?_⟩ _
    simp only [startsField, hs]
  · rw [hstarts, ok_bind]
    cases hlike : startsLikeField (lexemes (u :: after)) with
    | true => exact (hfields hlike _).bind _
    | false =>
      obtain ⟨e, he⟩ := hclosed hlike
      exact ⟨e, closed_eq_error_iff.mpr he⟩

/-- The word is an expression that does not start like a field, and the bracket that closes it. -/
def DifferenceWord (w : List Lexeme) : Prop :=
  ∃ v, Stands 0 v ∧ startsLikeField v = false ∧ w = v ++ [.symbol .closeCurly]

theorem DifferenceWord.stands {w : List Lexeme} (h : DifferenceWord w) :
    Stands atomLevel (.symbol .openCurly :: w) := by
  obtain ⟨v, hv, hfield, rfl⟩ := h
  obtain ⟨e, d, hd⟩ := hv.spells
  exact stands_of_atom (hd.difference hfield)

theorem ClosedWord.differenceWord {w : List Lexeme} (h : ClosedWord .closeCurly w)
    (hfield : startsLikeField w = false) : DifferenceWord w := by
  obtain ⟨v, hv, rfl⟩ := h
  rw [startsLikeField_append_closed v rfl] at hfield
  exact ⟨v, hv, hfield, rfl⟩

/-- What does not start like a field goes on as a difference, if it goes on to a
    closed expression. -/
theorem exists_differenceWord {before rest w : List Lexeme}
    (hfield : startsLikeField (before ++ rest) = false)
    (hw : ClosedWord .closeCurly (before ++ w)) :
    ∃ w', DifferenceWord (before ++ w') := by
  -- a cut behind one token may fall between a key and its colon, so a string is closed at once
  match before with
  | [] => exact ⟨_, [.null], stands_null, rfl, rfl⟩
  | [x] =>
    by_cases hstring : ∃ s, x = .string s
    · obtain ⟨s, rfl⟩ := hstring
      have hs : Stands 0 [.string s] := (stands_of_atom (d := 0) (.string s)).mono (Nat.zero_le _)
      exact ⟨_, _, hs, rfl, rfl⟩
    · exact ⟨w, hw.differenceWord (startsLikeField_of_not_string (fun s hs => hstring ⟨s, hs⟩) w)⟩
  | x :: y :: before =>
    refine ⟨w, hw.differenceWord ?_⟩
    rw [← hfield]
    exact startsLikeField_two x y _ _

/-- Whatever follows the token to blame, the tokens do not start like a field. -/
theorem startsLikeField_of_refusesClosed {before : List Token} {t : Token} {after : List Token}
    (hfield : startsLikeField (lexemes (before ++ t :: after)) = false)
    (hrefuses : ∀ after', RefusesClosed .closeCurly (before ++ t :: after')) (after' : List Token) :
    startsLikeField (lexemes (before ++ t :: after')) = false := by
  match before with
  | [] =>
    refine startsLikeField_of_not_string (fun s hs => ?_) _
    -- a string alone in curly brackets is a difference, and not refused
    let close : Token := ⟨.symbol .closeCurly, 0⟩
    have hreads : Reads 0 ([t] ++ [close]) ⟨.string s, 0, [close]⟩ := by
      refine reads_of_derives (d := 0) (q := atomLevel) ?_ (Nat.zero_le _)
        (stops_of_bindingOf?_eq_none rfl)
      simpa [hs] using .string s
    obtain ⟨room, hread, e, he⟩ := (hreads.and (hrefuses [close])).exists
    simp only [List.nil_append, List.singleton_append] at hread he
    rw [closed, hread] at he
    cases he
  | [u] => exact (startsLikeField_two _ _ _ _).trans hfield
  | u :: v :: before => exact (startsLikeField_two _ _ _ _).trans hfield

/-! ## 4. Atoms -/

section

variable {t : Token} {tokens : List Token} {e : SyntaxError}

/-- The token to blame for an error of a name after a dollar or an exclamation mark. -/
theorem named_blamed {sigil : Symbol} {leaf : String → Expr} (hs : sigil? t.lexeme = some leaf)
    (hatom : ∀ operand ts, atom operand (t :: ts) = named sigil leaf ts)
    (hfinish : .finish ∈ lexemes tokens) (h : named sigil leaf tokens = .error e) :
    Blamed (Stands atomLevel) RefusesAtom (t :: tokens) e.pos := by
  obtain ⟨n, rest, rfl⟩ := List.exists_cons_of_ne_nil (lexemes_ne_nil hfinish)
  simp only [named] at h
  split at h
  · cases h
  · next hname =>
    cases h
    have hinside : t.lexeme ≠ .finish := by
      intro ht
      rw [ht] at hs
      cases hs
    refine ⟨[t], n, rest, rfl, rfl, by simpa using hinside.symm, ?_,
      fun after => .of_forall fun _ => ?_⟩
    · exact ⟨_, stands_of_atom (derives_of_sigil? hs "x").1⟩
    · refine ⟨.missingName sigil n, (hatom _ (n :: after)).trans ?_⟩
      simp only [named]

variable {room : Nat} (hroom : FaultsShow room)

include hroom

/-- The token to blame for an error of an expression in parentheses. -/
theorem group_blamed (opening : t.lexeme = .symbol .openRound) (hfinish : .finish ∈ lexemes tokens)
    (h : atom (expression room) (t :: tokens) = .error e) (hdeep : ∀ pos, e ≠ .tooDeep pos) :
    Blamed (Stands atomLevel) RefusesAtom (t :: tokens) e.pos := by
  have hatom : ∀ operand ts, atom operand (t :: ts) = operand 0 ts >>= fun inner =>
      expect .closeRound inner.rest >>= fun rest => .ok ⟨inner.expr, inner.height, rest⟩ := by
    intro operand ts
    simp only [atom, opening]
    rfl
  rw [hatom] at h
  refine (closed_blamed hroom hfinish (closed_eq_error_iff.mp h) hdeep).under [t]
    (by simp [opening])
    ?_ fun ts _ hts => hts.mono fun room' hfails => ?_
  · rintro _ ⟨v, hv, rfl⟩
    obtain ⟨e', d, hd⟩ := hv.spells
    exact ⟨[], by simpa [opening] using stands_of_atom hd.group⟩
  · obtain ⟨cause, hcause⟩ := hfails
    exact ⟨cause, (hatom _ _).trans (closed_eq_error_iff.mpr hcause)⟩

/-- The token to blame for an error in square brackets. -/
theorem square_blamed (opening : t.lexeme = .symbol .openSquare)
    (hfinish : .finish ∈ lexemes tokens)
    (h : atom (expression room) (t :: tokens) = .error e) (hdeep : ∀ pos, e ≠ .tooDeep pos) :
    Blamed (Stands atomLevel) RefusesAtom (t :: tokens) e.pos := by
  have hatom : ∀ operand ts, atom operand (t :: ts) = square operand ts := by
    intro operand ts
    simp only [atom, opening]
  obtain ⟨u, after, rfl⟩ := List.exists_cons_of_ne_nil (lexemes_ne_nil hfinish)
  rw [hatom] at h
  have nonempty : u.lexeme ≠ .symbol .closeSquare := by
    intro hu
    simp only [square, hu, if_true] at h
    cases h
  have hitems := items_error_of_square nonempty hfinish h
  refine (items_blamed hroom hfinish (Nat.le_refl _) hitems hdeep).under [t] (by simp [opening])
    (fun w hw => ⟨[], by simpa [opening] using hw.stands⟩)
    fun ts hhead hts => hts.mono fun room' hfails => ?_
  obtain ⟨us, rfl⟩ : ∃ us, ts = u :: us := by
    cases ts <;> simp_all
  exact (hatom _ _).symm ▸ fails_square nonempty hfails

/-- The token to blame for an error in curly brackets. -/
theorem curly_blamed (opening : t.lexeme = .symbol .openCurly) (hfinish : .finish ∈ lexemes tokens)
    (h : atom (expression room) (t :: tokens) = .error e) (hdeep : ∀ pos, e ≠ .tooDeep pos) :
    Blamed (Stands atomLevel) RefusesAtom (t :: tokens) e.pos := by
  have hatom : ∀ operand ts, atom operand (t :: ts) = curly operand ts := by
    intro operand ts
    simp only [atom, opening]
  obtain ⟨u, after, rfl⟩ := List.exists_cons_of_ne_nil (lexemes_ne_nil hfinish)
  rw [hatom] at h
  have nonempty : u.lexeme ≠ .symbol .closeCurly := by
    intro hu
    simp only [curly, hu, if_true] at h
    cases h
  -- the marker is still to come, so the look ahead does not run off the end
  have hstarts : startsField (u :: after) = .ok (startsLikeField (lexemes (u :: after))) := by
    refine (startsField_cases u after).resolve_left ?_
    rintro ⟨⟨s, hs⟩, rfl⟩
    simp [hs] at hfinish
  simp only [curly, nonempty, if_false, hstarts, ok_bind] at h
  cases hlike : startsLikeField (lexemes (u :: after)) with
  -- with a key and a colon read, only a field can follow, whatever comes after the wrong token
  | true =>
    obtain ⟨colon, key, values, rfl, hkey, hcolon⟩ := exists_of_startsLikeField hlike
    rw [hlike, if_pos rfl] at h
    have hfields :
        fields (expression room) ((colon :: values).length + 1) [] (u :: colon :: values) =
        .error e := by
      obtain hfields | ⟨_, _, hok⟩ := bind_eq_error_iff.mp h
      · exact hfields
      · cases hok
    have hvalues : .finish ∈ lexemes values := by simpa [hkey, hcolon] using hfinish
    refine (field_blamed hroom hkey List.not_mem_nil hcolon hvalues hfields hdeep
      fun ts hts hlength hnext => fields_blamed hroom hts (Nat.le_succ_of_le hlength)
        hnext hdeep).under
        [t, u, colon] (by simp [opening, hkey, hcolon])
        (fun w hw => ⟨[], by simpa [opening, hkey, hcolon, fieldWord] using hw.stands⟩)
        fun ts _ hts => hts.mono fun room' hfails => ?_
    have hagain : startsLikeField (lexemes (u :: colon :: ts)) = true :=
      (startsLikeField_two _ _ _ _).trans hlike
    exact (hatom _ _).symm ▸ fails_curly nonempty (fun _ => hfails) fun hno =>
      absurd (hagain.symm.trans hno) (by decide)
  | false =>
    rw [hlike, if_neg Bool.false_ne_true] at h
    -- no field: the fault is that of a bracketed expression, but the word must not turn into one
    obtain ⟨before, x, rest, htokens, hpos, hinside, ⟨w, hw⟩, hrefuses⟩ :=
      closed_blamed hroom hfinish (closed_eq_error_iff.mp h) hdeep
    rw [htokens] at hlike ⊢
    refine ⟨t :: before, x, rest, rfl, hpos, by simp [opening, hinside], ?_, fun rest' => ?_⟩
    · rw [lexemes_append] at hlike
      obtain ⟨w', hw'⟩ := exists_differenceWord hlike hw
      exact ⟨w', by simpa [opening] using hw'.stands⟩
    -- the same two tokens, or a string at the cut, decide for the bracketed expression again
    · have hagain := startsLikeField_of_refusesClosed hlike hrefuses rest'
      obtain ⟨us, hus⟩ : ∃ us, before ++ x :: rest' = u :: us := by
        cases before <;> simp_all
      rw [List.cons_append, hus]
      rw [hus] at hagain
      refine (hrefuses rest').mono fun room' hfails => ?_
      rw [hus] at hfails
      exact (hatom _ _).symm ▸ fails_curly nonempty
        (fun hyes => absurd (hagain.symm.trans hyes) (by decide)) fun _ => hfails

/-- The token to blame for an error of an atom. -/
theorem atom_blamed (hfinish : .finish ∈ lexemes tokens)
    (h : atom (expression room) tokens = .error e) (hdeep : ∀ pos, e ≠ .tooDeep pos) :
    Blamed (Stands atomLevel) RefusesAtom tokens e.pos := by
  obtain ⟨t, rest, rfl⟩ := List.exists_cons_of_ne_nil (lexemes_ne_nil hfinish)
  have hrest : t.lexeme ≠ .finish → .finish ∈ lexemes rest := fun hne =>
    (List.mem_cons.mp hfinish).resolve_left (Ne.symm hne)
  have hform := h
  simp only [atom] at hform
  split at hform
  · cases hform
  · cases hform
  · cases hform
  · cases hform
  · cases hform
  · next hx =>
    exact named_blamed (by rw [hx]; rfl) (fun _ _ => by simp only [atom, hx])
      (hrest (by simp [hx])) hform
  · next hx =>
    exact named_blamed (by rw [hx]; rfl) (fun _ _ => by simp only [atom, hx])
      (hrest (by simp [hx])) hform
  · next hx => exact group_blamed hroom hx (hrest (by simp [hx])) h hdeep
  · next hx => exact square_blamed hroom hx (hrest (by simp [hx])) h hdeep
  · next hx => exact curly_blamed hroom hx (hrest (by simp [hx])) h hdeep
  · cases hform
    refine blamed_first (stands_of_atom (d := 0) .null) fun after => .of_forall fun room' => ?_
    refine ⟨.unexpected t, ?_⟩
    simp only [atom]

end

/-! ## 5. Operators and expressions -/

section

variable {least : Nat} {tokens : List Token} {left : Reading}
    (hleft : Spelt least tokens left) {t : Token}

include hleft

/-- Whatever follows the token behind what is read so far, the loop over operators
    comes to that token. -/
theorem Spelt.passes {after : List Token} (rest_eq : left.rest = t :: after) :
    ∃ word d q, tokens = word ++ t :: after ∧ least ≤ q ∧ Derives d q (lexemes word) left.expr ∧
      Stops (q + 1) (t :: after) ∧ ∀ after', ∀ᶠ room in atTop,
        Passes room least (word ++ t :: after') ⟨left.expr, left.expr.height, t :: after'⟩ := by
  obtain ⟨word, d, q, htokens, hq, _, hd, hstops⟩ := hleft.derived
  rw [rest_eq] at htokens hstops
  exact ⟨word, d, q, htokens, hq, hd, hstops, fun after' =>
    passes_of_derives hd hq (stops_cons_iff.mpr (stops_cons_iff.mp hstops))⟩

/-- What stands behind a point and is no name is to blame. -/
theorem missingField_blamed (hleast : least ≤ accessLevel) {f : Token} {rest : List Token}
    (rest_eq : left.rest = t :: f :: rest) (dot : t.lexeme = .symbol .dot)
    (noName : ∀ field, f.lexeme ≠ .name field) :
    Blamed (Stands least) (Refuses least) tokens f.pos := by
  -- an operand stands before the point, so any name would have been read
  obtain ⟨word, d, q, rfl, _, hd, hstops, hpasses⟩ := hleft.passes rest_eq
  refine ⟨word ++ [t], f, rest, by simp, rfl, by simp [hd.finish_not_mem, dot], ?_, fun after => ?_⟩
  · have hmember := (hd.lower_le (hstops.accessLevel_le dot)).member "x"
    exact ⟨[.name "x"], _, _, _, hleast, by decide, by simpa [dot] using hmember⟩
  · rw [List.append_assoc]
    refine refuses_of_passes (hpasses (f :: after)) (.of_forall fun _ n => ⟨.missingField f, ?_⟩)
    rw [operators_dot dot, if_neg (Nat.not_lt_of_le hleast)]
    dsimp only
    split
    · next field hname => exact absurd hname (noName field)
    · rfl

/-- What is to blame in a right operand is so in the whole. -/
theorem rightOperand_blamed {after : List Token} {op : Operator} {pos : Nat}
    (rest_eq : left.rest = t :: after) (symbol : t.lexeme = .symbol op.symbol)
    (binds : least ≤ op.binding)
    (hright : Blamed (Stands (op.binding + 1)) (Refuses (op.binding + 1)) after pos) :
    Blamed (Stands least) (Refuses least) tokens pos := by
  obtain ⟨word, d, q, rfl, _, hd, hstops, hpasses⟩ := hleft.passes rest_eq
  -- the left operand goes in front, and together with a right operand it makes a whole expression
  refine hright.behind hd.finish_not_mem (by simp [symbol]) (fun w hw => ?_) fun ts hts => ?_
  · obtain ⟨d', r, hr⟩ := hw.derives
    have hbinary :=
      Derives.binary op ((hd.lower_le (hstops.binding_le symbol)).mono (Nat.le_max_left d d'))
      (hr.mono (Nat.le_max_right d d'))
    exact ⟨[], _, _, _, binds, loosest_le_binding op, by simpa [symbol] using hbinary⟩
  · refine refuses_of_passes (hpasses ts) ?_
    filter_upwards [hts] with room ⟨cause, hcause⟩ n
    exact ⟨cause, by rw [operators_symbol symbol, if_neg (Nat.not_lt_of_le binds),
      hcause, error_bind]⟩

end

/-- The token to blame for an error of the loop over operators. -/
theorem operators_blamed {room : Nat} (hroom : FaultsShow room) {least : Nat}
    (hleast : least ≤ accessLevel)
    {rounds : Nat} {tokens : List Token} {left : Reading} (hleft : Spelt least tokens left)
    (hfinish : .finish ∈ lexemes left.rest) (hrounds : left.rest.length < rounds) {e : SyntaxError}
    (h : operators (expression room) room least rounds left = .error e)
    (hdeep : ∀ pos, e ≠ .tooDeep pos) :
    Blamed (Stands least) (Refuses least) tokens e.pos := by
  induction rounds generalizing left with
  | zero => cases hrounds
  | succ rounds ih =>
    obtain ⟨l, height, rest⟩ := left
    obtain ⟨t, after, rfl⟩ := List.exists_cons_of_ne_nil (lexemes_ne_nil hfinish)
    simp only [List.length_cons] at hrounds
    -- the token behind the operand: a point, an operator, or the end of the expression
    rcases lexeme_cases t.lexeme with hdot | ⟨op, hop⟩ | hother
    · have hafter : .finish ∈ lexemes after := by simpa [hdot] using hfinish
      obtain ⟨f, rest, rfl⟩ := List.exists_cons_of_ne_nil (lexemes_ne_nil hafter)
      rw [operators_dot hdot, if_neg (Nat.not_lt_of_le hleast)] at h
      dsimp only at h
      split at h
      · next field hname =>
        split at h
        · cases h
          exact absurd rfl (hdeep t.pos)
        · have hrest : .finish ∈ lexemes rest := by simpa [hname] using hafter
          have hshorter : rest.length < rounds := by
            simp only [List.length_cons] at hrounds
            omega
          exact ih (hleft.member hleast rfl hdot hname) hrest hshorter h
      · next hname =>
        cases h
        exact missingField_blamed hleft hleast rfl hdot hname
    · have hafter : .finish ∈ lexemes after := by simpa [hop] using hfinish
      rw [operators_symbol hop] at h
      split at h
      · cases h
      · next hbinds =>
        -- the right operand is blamed by the assumption on the room, the rest by the induction on
        -- the rounds
        obtain hread | ⟨right, hread, hnext⟩ := bind_eq_error_iff.mp h
        · exact rightOperand_blamed hleft rfl hop (Nat.le_of_not_lt hbinds)
            (hroom (op.binding + 1) (binding_lt_accessLevel op) after hafter e hread hdeep)
        · obtain ⟨word, u, rest, rfl, hright, _, hfollows, _, _⟩ :=
            exists_reads (binding_lt_accessLevel op) hafter hread
          split at hnext
          · cases hnext
            exact absurd rfl (hdeep t.pos)
          · have hshorter : right.rest.length < rounds := by
              rw [hright]
              simp only [List.length_cons, List.length_append] at hrounds ⊢
              omega
            exact ih (hleft.binary (expression_sound room) rfl hop (Nat.le_of_not_lt hbinds) hread)
              (hright ▸ hfollows) hshorter hnext
    · rw [operators_other hother] at h
      cases h

/-- Errors in any room, the nesting limit apart, are those of the token to blame. -/
theorem faultsShow (room : Nat) : FaultsShow room := by
  -- on the room: with none every reading is too deep, and each bracket takes one away
  induction room with
  | zero =>
    intro least _ tokens hfinish e h hdeep
    obtain ⟨t, rest, rfl⟩ := List.exists_cons_of_ne_nil (lexemes_ne_nil hfinish)
    cases h
    exact absurd rfl (hdeep t.pos)
  | succ room ih =>
    intro least hleast tokens hfinish e h hdeep
    obtain hatom | ⟨left, hatom, hops⟩ := bind_eq_error_iff.mp h
    · exact (atom_blamed ih hfinish hatom hdeep).imp
        (fun w hw => ⟨[], by simpa using hw.mono (Nat.le_succ_of_le hleast)⟩)
        fun ts _ hts => hts.refuses least
    · have hleft := spelt_of_atom (expression_sound room) hleast hatom
      obtain ⟨word, _, _, htokens, _, _, hd, _⟩ := hleft.derived
      have hrest : .finish ∈ lexemes left.rest := by
        rw [htokens, lexemes_append, List.mem_append] at hfinish
        exact hfinish.resolve_left hd.finish_not_mem
      exact operators_blamed ih hleast hleft hrest (Nat.lt_succ_self _) hops hdeep

/-! ## 6. Whole sequences of tokens -/

/-- The grammar, without the nesting limit, accepts these tokens: they end in the end of the input,
    and those before its first occurrence spell an expression. -/
def Accepted (tokens : List Token) : Prop :=
  tokens.getLast?.map Token.lexeme = some .finish ∧ ∃ e, Spells (spelling tokens) e

/-- What is accepted is read, up to an end of the input. -/
theorem Accepted.reads {tokens : List Token} (h : Accepted tokens) :
    ∃ out f rest, Reads 0 tokens out ∧ out.rest = f :: rest ∧ f.lexeme = .finish := by
  obtain ⟨hlast, e, d, hd⟩ := h
  obtain ⟨last, hgetLast, hfinish⟩ := Option.map_eq_some_iff.mp hlast
  obtain ⟨ts, f, rest, rfl, hf, hspelling⟩ :=
    exists_spelling ⟨last, List.mem_of_getLast? hgetLast, hfinish⟩
  rw [hspelling] at hd
  exact ⟨_, f, rest, reads_of_derives hd (Nat.zero_le _)
    (stops_of_bindingOf?_eq_none (by rw [hf]; rfl)), rfl, hf⟩

/-- A word that is an expression is accepted when the end of the input is put behind it. -/
theorem exists_accepted {before : List Token} {w : List Lexeme} {e : Expr}
    (h : Spells (lexemes before ++ w) e) : ∃ rest, Accepted (before ++ rest) := by
  let ts : List Token := w.map fun x => ⟨x, 0⟩
  have hts : lexemes ts = w := by simp [ts, lexemes, Function.comp_def]
  rw [← hts, ← lexemes_append] at h
  refine ⟨ts ++ [⟨.finish, 0⟩], by simp [← List.append_assoc], e, ?_⟩
  rw [← List.append_assoc, spelling_append_finish h rfl]
  exact h

/-- A token that follows an expression is to blame, unless it is the end of the input. -/
theorem trailing_blamed {word : List Token} {t : Token} {after : List Token} {e : Expr}
    {height : Nat} (hinside : .finish ∉ lexemes word) (hstands : Stands 0 (lexemes word))
    (hreads : ∀ after', Reads 0 (word ++ t :: after') ⟨e, height, t :: after'⟩)
    (hne : t.lexeme ≠ .finish) :
    Blamed (fun w => ∃ x, Spells w x) (fun ts => ¬ Accepted ts) (word ++ t :: after) t.pos := by
  refine ⟨word, t, after, rfl, rfl, hinside, ⟨[], by simpa using hstands.spells⟩,
    fun after' haccepted => ?_⟩
  -- the reading stops at this token, so it would have to be the end of the input
  obtain ⟨out, f, rest, hout, hcons, hf⟩ := haccepted.reads
  rw [← (hreads after').unique hout] at hcons
  exact hne ((List.cons.inj hcons).1 ▸ hf)

/-- The token to blame for an error of whole tokens. -/
theorem ofTokens_blamed {tokens : List Token}
    (hlast : tokens.getLast?.map Token.lexeme = some .finish)
    {e : SyntaxError} (h : ofTokens tokens = .error e) (hdeep : ∀ pos, e ≠ .tooDeep pos) :
    Blamed (fun w => ∃ x, Spells w x) (fun ts => ¬ Accepted ts) tokens e.pos := by
  obtain ⟨last, hgetLast, hfinish⟩ := Option.map_eq_some_iff.mp hlast
  have hmem : .finish ∈ lexemes tokens :=
    List.mem_map.mpr ⟨last, List.mem_of_getLast? hgetLast, hfinish⟩
  unfold ofTokens at h
  rw [hgetLast] at h
  dsimp only at h
  rw [if_pos hfinish] at h
  obtain hread | ⟨whole, hread, hend⟩ := bind_eq_error_iff.mp h
  · refine (faultsShow _ 0 (Nat.zero_le _) tokens hmem e hread hdeep).imp
      (fun w hw => ⟨[], by simpa using hw.spells⟩) fun ts _ hrefuses haccepted => ?_
    obtain ⟨out, _, _, hreads, _, _⟩ := haccepted.reads
    exact hreads.not_refuses hrefuses
  · obtain ⟨word, t, after, rfl, hrest, hinside, _, hstands, hreads⟩ :=
      exists_reads (Nat.zero_le _) hmem hread
    rw [hrest] at hend
    dsimp only at hend
    split at hend
    · cases hend
    · next hne =>
      cases hend
      exact trailing_blamed hinside hstands hreads hne

/-- **A fault shows at the first wrong token.** An error of the reader, the nesting limit apart,
    names the place of a token that is no later than the first end of the input. The tokens before
    it go on to accepted ones, but with it none are accepted; where it is the end of the input
    itself, those before it are not an expression yet. -/
theorem fault_is_at_first_wrong_token (tokens : List Token)
    (hlast : tokens.getLast?.map Token.lexeme = some .finish) {e : SyntaxError}
    (h : ofTokens tokens = .error e) (hdeep : ∀ pos, e ≠ .tooDeep pos) :
    ∃ before t after, tokens = before ++ t :: after ∧ .finish ∉ lexemes before ∧ e.pos = t.pos ∧
      (∃ rest, Accepted (before ++ rest)) ∧ (∀ rest, ¬ Accepted (before ++ t :: rest)) ∧
      (t.lexeme = .finish → ∀ x, ¬ Spells (lexemes before) x) := by
  obtain ⟨before, t, after, htokens, hpos, hinside, ⟨w, x, hx⟩, hrefuses⟩ :=
    ofTokens_blamed hlast h hdeep
  refine ⟨before, t, after, htokens, hinside, hpos, exists_accepted hx, hrefuses, fun ht y hy => ?_⟩
  refine hrefuses [] ⟨by simp [ht], y, ?_⟩
  rw [spelling_append_finish hy ht]
  exact hy

/-- A bracket that closes nothing shows where it stands, though the tokens before it
    are no expression yet. -/
theorem unmatched_bracket_is_the_fault :
    let tokens : List Token := [⟨.symbol .openSquare, 0⟩, ⟨.null, 1⟩, ⟨.symbol .comma, 5⟩,
      ⟨.symbol .closeRound, 6⟩, ⟨.symbol .closeSquare, 7⟩, ⟨.finish, 8⟩]
    let e : SyntaxError := .unexpected ⟨.symbol .closeRound, 6⟩
    (tokens.getLast?.map Token.lexeme = some .finish ∧ ofTokens tokens = .error e ∧
      ∀ pos, e ≠ .tooDeep pos) ∧
    ∃ before t after, tokens = before ++ t :: after ∧ .finish ∉ lexemes before ∧ e.pos = t.pos ∧
      (∃ rest, Accepted (before ++ rest)) ∧ (∀ rest, ¬ Accepted (before ++ t :: rest)) ∧
      (t.lexeme = .finish → ∀ x, ¬ Spells (lexemes before) x) := by
  intro tokens e
  have hlast : tokens.getLast?.map Token.lexeme = some .finish := rfl
  have herror : ofTokens tokens = .error e := rfl
  have hdeep : ∀ pos, e ≠ .tooDeep pos := fun _ => nofun
  exact ⟨⟨hlast, herror, hdeep⟩, fault_is_at_first_wrong_token tokens hlast herror hdeep⟩

end Sigil.Expr
