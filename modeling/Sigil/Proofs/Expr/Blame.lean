import Mathlib.Data.Fintype.EquivFin
import Sigil.Proofs.Expr.Locality

/-!
# The token to blame for items and fields

A token of a sequence is to blame for a fault of a form (`Blames`) if the tokens before it go on to
a word of the form, and with it the reader refuses them, whatever follows. What is shown here for
the rows of items and of fields rests on the same for the expressions in them (`FaultsShow`): an
error comes up from one of these, or one of the tokens between them is to blame. Around a form the
tokens before grow by what was read there already (`Blamed.under`).
-/

namespace Sigil.Expr

open Filter (atTop)

/-! ## 1. The token that is to blame -/

/-- The tokens before go on to something viable, but with this one they are refused,
    whatever follows. -/
structure Blames (viable : List Lexeme → Prop) (refuses : List Token → Prop) (before : List Token)
    (t : Token) : Prop where
  inside : .finish ∉ lexemes before
  viable : ∃ w, viable (lexemes before ++ w)
  refuses : ∀ after, refuses (before ++ t :: after)

/-- A token to blame stands at this position. -/
def Blamed (viable : List Lexeme → Prop) (refuses : List Token → Prop) (tokens : List Token)
    (pos : Nat) : Prop :=
  ∃ before t after, tokens = before ++ t :: after ∧ pos = t.pos ∧ Blames viable refuses before t

section

variable {viable viable' : List Lexeme → Prop} {refuses refuses' : List Token → Prop}

/-- The first token is to blame. -/
theorem blamed_first {t : Token} {after : List Token} {w : List Lexeme} (hviable : viable w)
    (hrefuses : ∀ after', refuses (t :: after')) : Blamed viable refuses (t :: after) t.pos :=
  ⟨[], t, after, rfl, rfl, by simp, ⟨w, hviable⟩, hrefuses⟩

/-- The token to blame in a part is that of the whole. -/
theorem Blamed.under {tokens : List Token} {pos : Nat} (h : Blamed viable refuses tokens pos)
    (head : List Token) (hhead : .finish ∉ lexemes head)
    (hviable : ∀ w, viable w → ∃ w', viable' (lexemes head ++ (w ++ w')))
    (hrefuses : ∀ ts, ts.head? = tokens.head? → refuses ts → refuses' (head ++ ts)) :
    Blamed viable' refuses' (head ++ tokens) pos := by
  obtain ⟨before, t, after, rfl, hpos, hinside, ⟨w, hw⟩, href⟩ := h
  -- the head moves into the accepted part; the word after it must still complete to something
  -- viable
  refine ⟨head ++ before, t, after, by simp, hpos, ?_, ?_, fun after' => ?_⟩
  · simp [hhead, hinside]
  · obtain ⟨w', hw'⟩ := hviable _ hw
    exact ⟨w ++ w', by simpa using hw'⟩
  · rw [List.append_assoc]
    refine hrefuses _ ?_ (href after')
    cases before <;> rfl

/-- The token to blame behind a word and the token that ends it. -/
theorem Blamed.behind {after : List Token} {pos : Nat} (h : Blamed viable refuses after pos)
    {word : List Token} (hword : .finish ∉ lexemes word) {t : Token} (ht : t.lexeme ≠ .finish)
    (hviable : ∀ w, viable w → ∃ w', viable' (lexemes word ++ t.lexeme :: (w ++ w')))
    (hrefuses : ∀ ts, refuses ts → refuses' (word ++ t :: ts)) :
    Blamed viable' refuses' (word ++ t :: after) pos := by
  rw [List.append_cons]
  refine h.under (word ++ [t]) (by simp [hword, ht.symm]) (fun w hw => ?_) fun ts _ hts => ?_
  · obtain ⟨w', hw'⟩ := hviable w hw
    exact ⟨w', by simpa using hw'⟩
  · rw [← List.append_cons]
    exact hrefuses ts hts

theorem Blamed.refused {tokens : List Token} {pos : Nat} (h : Blamed viable refuses tokens pos) :
    refuses tokens := by
  obtain ⟨before, t, after, rfl, _, hblames⟩ := h
  exact hblames.refuses after

/-- A form that the same tokens belong to. -/
theorem Blamed.imp {tokens : List Token} {pos : Nat} (h : Blamed viable refuses tokens pos)
    (hviable : ∀ w, viable w → ∃ w', viable' (w ++ w'))
    (hrefuses : ∀ ts, ts.head? = tokens.head? → refuses ts → refuses' ts) :
    Blamed viable' refuses' tokens pos :=
  h.under [] (by simp) hviable hrefuses

end

/-- Errors of expressions in this room are those of the token to blame. -/
def FaultsShow (room : Nat) : Prop :=
  ∀ least ≤ accessLevel, ∀ tokens, .finish ∈ lexemes tokens → ∀ e,
    expression room least tokens = .error e → (∀ pos, e ≠ .tooDeep pos) →
      Blamed (Stands least) (Refuses least) tokens e.pos

theorem stands_null : Stands 0 [.null] := (stands_of_atom (d := 0) .null).mono (Nat.zero_le _)

/-! ## 2. Items -/

/-- Items with commas between them, up to the closing bracket. -/
def ItemsWord (w : List Lexeme) : Prop :=
  ∃ parts : List (List Lexeme × Expr), parts ≠ [] ∧ (∀ part ∈ parts, Spells part.1 part.2) ∧
    w = commaSeparated (parts.map Prod.fst) ++ [.symbol .closeSquare]

theorem itemsWord_last {w : List Lexeme} (h : Stands 0 w) :
    ItemsWord (w ++ [.symbol .closeSquare]) := by
  obtain ⟨e, he⟩ := h.spells
  exact ⟨[(w, e)], by simp, by simpa using he, rfl⟩

theorem ItemsWord.more {v w : List Lexeme} (hw : Stands 0 w) (hv : ItemsWord v) :
    ItemsWord (w ++ .symbol .comma :: v) := by
  obtain ⟨e, he⟩ := hw.spells
  obtain ⟨parts, hne, hparts, rfl⟩ := hv
  refine ⟨(w, e) :: parts, by simp, List.forall_mem_cons.mpr ⟨he, hparts⟩, ?_⟩
  obtain ⟨part, parts, rfl⟩ := List.exists_cons_of_ne_nil hne
  simp [commaSeparated]

/-- What square brackets hold is one item, or several. -/
theorem ItemsWord.stands {w : List Lexeme} (h : ItemsWord w) :
    Stands atomLevel (.symbol .openSquare :: w) := by
  obtain ⟨parts, hne, hparts, rfl⟩ := h
  obtain ⟨d, hd⟩ := exists_common_depth hparts
  match parts, hne with
  | [part], _ => exact stands_of_atom (hd part List.mem_cons_self).similarity
  | _ :: _ :: parts, _ => exact stands_of_atom (.array _ (by simp) hd)

/-- Items are refused, however many rounds are left. -/
def RefusesItems (tokens : List Token) : Prop :=
  ∀ᶠ room in atTop, ∀ rounds, Fails (items (expression room) rounds tokens)

/-- Without a round left, everything is refused. -/
theorem refusesItems_of_succ {tokens : List Token}
    (h : ∀ᶠ room in atTop, ∀ rounds, Fails (items (expression room) (rounds + 1) tokens)) :
    RefusesItems tokens := by
  filter_upwards [h] with room hfails rounds
  cases rounds with
  | zero => exact ⟨_, rfl⟩
  | succ rounds => exact hfails rounds

variable {operand : Operand}

theorem items_of_error {rounds : Nat} {tokens : List Token} {e : SyntaxError}
    (h : operand 0 tokens = .error e) : items operand (rounds + 1) tokens = .error e := by
  simp only [items, h]
  rfl

/-- A round of items whose first one is read. -/
theorem items_of_ok {rounds : Nat} {tokens after : List Token} {first : Reading} {t : Token}
    (h : operand 0 tokens = .ok first) (hrest : first.rest = t :: after) :
    items operand (rounds + 1) tokens =
      if t.lexeme = .symbol .comma then
        items operand rounds after >>= fun others =>
          .ok (first.expr :: others.1, max first.height others.2.1, others.2.2)
      else expect .closeSquare (t :: after) >>= fun rest =>
        .ok ([first.expr], first.height, rest) := by
  simp only [items, h, ok_bind, hrest]
  rfl

/-- The token to blame for an error of items. -/
theorem items_blamed {room : Nat} (hroom : FaultsShow room) {rounds : Nat} {tokens : List Token}
    (hfinish : .finish ∈ lexemes tokens) (hrounds : tokens.length ≤ rounds) {e : SyntaxError}
    (h : items (expression room) rounds tokens = .error e) (hdeep : ∀ pos, e ≠ .tooDeep pos) :
    Blamed ItemsWord RefusesItems tokens e.pos := by
  induction rounds generalizing tokens with
  | zero =>
    rw [List.length_eq_zero_iff.mp (Nat.le_zero.mp hrounds)] at hfinish
    cases hfinish
  | succ rounds ih =>
    -- either the item itself is refused, and the fault is the operand's own
    cases hread : expression room 0 tokens with
    | error cause =>
      rw [items_of_error hread] at h
      cases h
      refine (hroom 0 (Nat.zero_le _) tokens hfinish _ hread hdeep).imp
        (fun w hw => ⟨_, itemsWord_last hw⟩) fun ts _ hts => refusesItems_of_succ ?_
      filter_upwards [hts] with room' ⟨cause', hcause⟩ rounds'
      exact ⟨_, items_of_error hcause⟩
    | ok first =>
      -- or it is read, and the token behind it is a comma with a wrong rest, or wrong itself
      obtain ⟨word, t, after, rfl, hrest, hinside, hfollows, hstands, hreads⟩ :=
        exists_reads (Nat.zero_le _) hfinish hread
      rw [items_of_ok hread hrest] at h
      split at h
      · next hcomma =>
        obtain hnext | ⟨_, _, hok⟩ := bind_eq_error_iff.mp h
        · have hafter : .finish ∈ lexemes after := by simpa [hcomma] using hfollows
          have hshorter : after.length ≤ rounds := by
            simp only [List.length_append, List.length_cons] at hrounds
            omega
          -- the read item goes in front of the blamed place, which the rest already has
          refine (ih hafter hshorter hnext).behind hinside (by simp [hcomma])
            (fun w hw => ⟨[], by simpa [hcomma] using hw.more hstands⟩) fun ts hts => ?_
          refine refusesItems_of_succ ?_
          filter_upwards [hreads ts, hts] with room' hread' hnext' rounds'
          rw [items_of_ok hread' rfl, if_pos hcomma]
          exact (hnext' rounds').bind _
        · cases hok
      · next hcomma =>
        obtain hclose | ⟨_, _, hok⟩ := bind_eq_error_iff.mp h
        · obtain ⟨hne, rfl⟩ := expect_eq_error_iff.mp hclose
          -- neither comma nor bracket: the list could have ended here, so this very token is the
          -- wrong one
          refine ⟨word, t, after, rfl, rfl, hinside, ⟨_, itemsWord_last hstands⟩, fun after' =>
            refusesItems_of_succ ?_⟩
          filter_upwards [hreads after'] with room' hread' rounds'
          rw [items_of_ok hread' rfl, if_neg hcomma]
          exact Fails.bind ⟨_, expect_eq_error_iff.mpr ⟨hne, rfl⟩⟩ _
        · cases hok

/-! ## 3. Fields -/

/-- Fields with commas between them, up to the closing bracket, none of which has a
    key in `seen`. -/
def FieldsWord (seen : List String) (w : List Lexeme) : Prop :=
  ∃ parts : List (String × List Lexeme × Expr), parts ≠ [] ∧ (parts.map Prod.fst).Nodup ∧
    (∀ part ∈ parts, part.1 ∉ seen) ∧ (∀ part ∈ parts, Spells part.2.1 part.2.2) ∧
    w = commaSeparated (parts.map fun part => fieldWord part.1 part.2.1) ++ [.symbol .closeCurly]

theorem fieldsWord_last {seen : List String} {key : String} (hnew : key ∉ seen) {w : List Lexeme}
    (h : Stands 0 w) : FieldsWord seen (fieldWord key w ++ [.symbol .closeCurly]) := by
  obtain ⟨e, he⟩ := h.spells
  exact ⟨[(key, w, e)], by simp, by simp, by simpa using hnew, by simpa using he, rfl⟩

theorem FieldsWord.more {seen : List String} {key : String} (hnew : key ∉ seen) {v w : List Lexeme}
    (hw : Stands 0 w) (hv : FieldsWord (key :: seen) v) :
    FieldsWord seen (fieldWord key w ++ .symbol .comma :: v) := by
  obtain ⟨e, he⟩ := hw.spells
  obtain ⟨parts, hne, hnodup, hnews, hparts, rfl⟩ := hv
  refine ⟨(key, w, e) :: parts, by simp, ?_, ?_, List.forall_mem_cons.mpr ⟨he, hparts⟩, ?_⟩
  · refine List.nodup_cons.mpr ⟨fun hkey => ?_, hnodup⟩
    obtain ⟨part, hp, rfl⟩ := List.mem_map.mp hkey
    exact hnews part hp List.mem_cons_self
  · exact List.forall_mem_cons.mpr
      ⟨hnew, fun part hp hseen => hnews part hp (List.mem_cons_of_mem _ hseen)⟩
  · obtain ⟨part, parts, rfl⟩ := List.exists_cons_of_ne_nil hne
    simp [commaSeparated]

/-- There is always a key that was not seen. -/
theorem exists_fieldsWord (seen : List String) : ∃ w, FieldsWord seen w := by
  obtain ⟨key, hkey⟩ := Infinite.exists_notMem_finset seen.toFinset
  exact ⟨_, fieldsWord_last (List.mem_toFinset.not.mp hkey) stands_null⟩

/-- What curly brackets hold that start like an object. -/
theorem FieldsWord.stands {w : List Lexeme} (h : FieldsWord [] w) :
    Stands atomLevel (.symbol .openCurly :: w) := by
  obtain ⟨parts, hne, hnodup, _, hparts, rfl⟩ := h
  obtain ⟨d, hd⟩ := exists_common_depth hparts
  exact stands_of_atom (.object parts hne hnodup hd)

/-- Fields are refused, however many rounds are left. -/
def RefusesFields (seen : List String) (tokens : List Token) : Prop :=
  ∀ᶠ room in atTop, ∀ rounds, Fails (fields (expression room) rounds seen tokens)

theorem refusesFields_of_succ {seen : List String} {tokens : List Token}
    (h : ∀ᶠ room in atTop, ∀ rounds, Fails (fields (expression room) (rounds + 1) seen tokens)) :
    RefusesFields seen tokens := by
  filter_upwards [h] with room hfails rounds
  cases rounds with
  | zero => exact ⟨_, rfl⟩
  | succ rounds => exact hfails rounds

section

variable {rounds : Nat} {seen : List String} {k colon : Token} {key : String} {tokens : List Token}

theorem fields_no_key (h : ∀ key, k.lexeme ≠ .string key) :
    fields operand (rounds + 1) seen (k :: tokens) = .error (.missingKey k) := by
  simp only [fields]

theorem fields_repeated (string : k.lexeme = .string key) (old : key ∈ seen) :
    fields operand (rounds + 1) seen (k :: tokens) = .error (.repeatedKey key k.pos) := by
  simp only [fields, string, old, if_true]
  rfl

theorem fields_no_colon (string : k.lexeme = .string key) (new : key ∉ seen)
    (h : colon.lexeme ≠ .symbol .colon) :
    fields operand (rounds + 1) seen (k :: colon :: tokens) = .error (.missing .colon colon) := by
  simp only [fields, string, new, if_false, expect, h]
  rfl

theorem fields_of_error (string : k.lexeme = .string key) (new : key ∉ seen)
    (symbol : colon.lexeme = .symbol .colon) {e : SyntaxError} (h : operand 0 tokens = .error e) :
    fields operand (rounds + 1) seen (k :: colon :: tokens) = .error e := by
  simp only [fields, string, new, if_false, expect, symbol, if_true, ok_bind, h]
  rfl

/-- A round of fields whose first value is read. -/
theorem fields_of_ok (string : k.lexeme = .string key) (new : key ∉ seen)
    (symbol : colon.lexeme = .symbol .colon) {value : Reading} {t : Token} {after : List Token}
    (h : operand 0 tokens = .ok value) (hrest : value.rest = t :: after) :
    fields operand (rounds + 1) seen (k :: colon :: tokens) =
      if t.lexeme = .symbol .comma then
        fields operand rounds (key :: seen) after >>= fun others =>
          .ok ((key, value.expr) :: others.1, max value.height others.2.1, others.2.2)
      else
        expect .closeCurly (t :: after) >>= fun rest =>
          .ok ([(key, value.expr)], value.height, rest) := by
  simp only [fields, string, new, if_false, expect, symbol, if_true, ok_bind, h, hrest]
  rfl

/-- Fields start with a new key and a colon, or one of the first two tokens is to blame,
    whatever the operand. -/
theorem fields_start (seen : List String) (hfinish : .finish ∈ lexemes tokens) :
    (∃ k colon key values, tokens = k :: colon :: values ∧ k.lexeme = .string key ∧ key ∉ seen ∧
      colon.lexeme = .symbol .colon) ∨
    ∃ cause : SyntaxError, Blamed (FieldsWord seen)
      (fun ts => ∀ (operand : Operand) rounds, fields operand (rounds + 1) seen ts = .error cause)
      tokens cause.pos := by
  obtain ⟨k, tokens, rfl⟩ := List.exists_cons_of_ne_nil (lexemes_ne_nil hfinish)
  obtain ⟨w, hw⟩ := exists_fieldsWord seen
  -- the three ways a field can go wrong before its value: no key, a repeated key, no colon
  by_cases hstring : ∃ key, k.lexeme = .string key
  · obtain ⟨key, hkey⟩ := hstring
    by_cases hold : key ∈ seen
    · exact .inr ⟨.repeatedKey key k.pos, blamed_first hw fun _ _ _ => fields_repeated hkey hold⟩
    · have hrest : .finish ∈ lexemes tokens := by simpa [hkey] using hfinish
      obtain ⟨colon, values, rfl⟩ := List.exists_cons_of_ne_nil (lexemes_ne_nil hrest)
      by_cases hcolon : colon.lexeme = .symbol .colon
      · exact .inl ⟨k, colon, key, values, rfl, hkey, hold, hcolon⟩
      · refine .inr ⟨.missing .colon colon, [k], colon, values, rfl, rfl, by simp [hkey], ?_,
          fun _ _ _ => fields_no_colon hkey hold hcolon⟩
        exact ⟨_, by simpa [fieldWord, hkey] using fieldsWord_last hold stands_null⟩
  · have hno : ∀ key, k.lexeme ≠ .string key := fun key hkey => hstring ⟨key, hkey⟩
    exact .inr ⟨.missingKey k, blamed_first hw fun _ _ _ => fields_no_key hno⟩

/-- The token to blame for an error behind a key and its colon. -/
theorem field_blamed {room : Nat} (hroom : FaultsShow room) (string : k.lexeme = .string key)
    (new : key ∉ seen) (symbol : colon.lexeme = .symbol .colon) (hfinish : .finish ∈ lexemes tokens)
    {e : SyntaxError}
    (h : fields (expression room) (rounds + 1) seen (k :: colon :: tokens) = .error e)
    (hdeep : ∀ pos, e ≠ .tooDeep pos)
    (hnext : ∀ ts, .finish ∈ lexemes ts → ts.length ≤ tokens.length →
      fields (expression room) rounds (key :: seen) ts = .error e →
        Blamed (FieldsWord (key :: seen)) (RefusesFields (key :: seen)) ts e.pos) :
    Blamed (fun w => FieldsWord seen (fieldWord key w))
      (fun ts => RefusesFields seen (k :: colon :: ts))
      tokens e.pos := by
  cases hread : expression room 0 tokens with
  | error cause =>
    rw [fields_of_error string new symbol hread] at h
    cases h
    refine (hroom 0 (Nat.zero_le _) tokens hfinish _ hread hdeep).imp
      (fun w hw => ⟨_, fieldsWord_last new hw⟩) fun ts _ hts => refusesFields_of_succ ?_
    filter_upwards [hts] with room' ⟨cause', hcause⟩ rounds'
    exact ⟨_, fields_of_error string new symbol hcause⟩
  | ok value =>
    obtain ⟨word, t, after, rfl, hvalue, hinside, hfollows, hstands, hreads⟩ :=
      exists_reads (Nat.zero_le _) hfinish hread
    rw [fields_of_ok string new symbol hread hvalue] at h
    split at h
    · next hcomma =>
      obtain hothers | ⟨_, _, hok⟩ := bind_eq_error_iff.mp h
      · have hafter : .finish ∈ lexemes after := by simpa [hcomma] using hfollows
        have hshorter : after.length ≤ (word ++ t :: after).length := by
          simp only [List.length_append, List.length_cons]
          omega
        refine (hnext after hafter hshorter hothers).behind hinside (by simp [hcomma])
          (fun w hw => ⟨[], by simpa [fieldWord, hcomma] using hw.more new hstands⟩)
            fun ts hts => ?_
        refine refusesFields_of_succ ?_
        filter_upwards [hreads ts, hts] with room' hread' hothers' rounds'
        rw [fields_of_ok string new symbol hread' rfl, if_pos hcomma]
        exact (hothers' rounds').bind _
      · cases hok
    · next hcomma =>
      obtain hclose | ⟨_, _, hok⟩ := bind_eq_error_iff.mp h
      · obtain ⟨hne, rfl⟩ := expect_eq_error_iff.mp hclose
        refine ⟨word, t, after, rfl, rfl, hinside, ⟨_, fieldsWord_last new hstands⟩, fun after' =>
          refusesFields_of_succ ?_⟩
        filter_upwards [hreads after'] with room' hread' rounds'
        rw [fields_of_ok string new symbol hread' rfl, if_neg hcomma]
        exact Fails.bind ⟨_, expect_eq_error_iff.mpr ⟨hne, rfl⟩⟩ _
      · cases hok

end

/-- The token to blame for an error of fields. -/
theorem fields_blamed {room : Nat} (hroom : FaultsShow room) {rounds : Nat} {seen : List String}
    {tokens : List Token} (hfinish : .finish ∈ lexemes tokens) (hrounds : tokens.length ≤ rounds)
    {e : SyntaxError} (h : fields (expression room) rounds seen tokens = .error e)
    (hdeep : ∀ pos, e ≠ .tooDeep pos) :
    Blamed (FieldsWord seen) (RefusesFields seen) tokens e.pos := by
  induction rounds generalizing seen tokens with
  | zero =>
    rw [List.length_eq_zero_iff.mp (Nat.le_zero.mp hrounds)] at hfinish
    cases hfinish
  | succ rounds ih =>
    -- a fault before the value stands at the start; every later one is behind key and colon
    rcases fields_start seen hfinish with
      ⟨k, colon, key, tokens, rfl, string, new, symbol⟩ | ⟨cause, hblamed⟩
    · have hvalues : .finish ∈ lexemes tokens := by simpa [string, symbol] using hfinish
      refine (field_blamed hroom string new symbol hvalues h hdeep fun ts hts hlength hnext =>
        ih hts (Nat.le_trans hlength ?_) hnext).under [k, colon] (by simp [string, symbol])
          (fun w hw => ⟨[], by simpa [string, symbol, fieldWord] using hw⟩) fun ts _ hts => hts
      simp only [List.length_cons] at hrounds
      omega
    -- the cause does not depend on the rounds, so it is the one the reader gave
    · have hcause : e = cause := Except.error.inj (h.symm.trans (hblamed.refused _ rounds))
      rw [hcause]
      exact hblamed.imp (fun w hw => ⟨[], by simpa using hw⟩) fun ts _ hts =>
        refusesFields_of_succ (.of_forall fun _ _ => ⟨cause, hts _ _⟩)

end Sigil.Expr
