import Sigil.Proofs.Expr.Soundness

/-!
# What is derived is read

A word that derives an expression is read as that expression by any room that its derivation fits
in, whatever follows it, as long as no operator that binds as tightly as the word's level does. The
induction is on the derivation. Its invariant (`Passes`) speaks about the loop over operators in the
middle of its run: at some round the loop holds the derived tree and the tokens that follow, so that
a derivation of a longer word may continue from there.
-/

namespace Sigil.Expr

/-! ## 1. Tokens that spell a composed word -/

theorem exists_of_lexemes_cons {ts : List Token} {x : Lexeme} {w : List Lexeme}
    (h : lexemes ts = x :: w) : ∃ t us, ts = t :: us ∧ t.lexeme = x ∧ lexemes us = w :=
  List.map_eq_cons_iff.mp h

theorem exists_of_lexemes_append {ts : List Token} {w v : List Lexeme} (h : lexemes ts = w ++ v) :
    ∃ us vs, ts = us ++ vs ∧ lexemes us = w ∧ lexemes vs = v :=
  List.map_eq_append_iff.mp h

/-- Tokens of a word that a symbol ends. -/
theorem exists_of_lexemes_closed {ts : List Token} {w : List Lexeme} {s : Symbol}
    (h : lexemes ts = w ++ [.symbol s]) :
    ∃ us c, ts = us ++ [c] ∧ lexemes us = w ∧ c.lexeme = .symbol s := by
  obtain ⟨us, vs, rfl, hus, hvs⟩ := exists_of_lexemes_append h
  obtain ⟨c, cs, rfl, hc, hcs⟩ := exists_of_lexemes_cons hvs
  rw [List.map_eq_nil_iff.mp hcs]
  exact ⟨us, c, rfl, hus, hc⟩

theorem length_le_commaSeparated (ws : List (List Lexeme)) :
    ws.length ≤ (commaSeparated ws).length + 1 := by
  induction ws with
  | nil => exact Nat.zero_le _
  | cons w ws ih =>
    cases ws with
    | nil => exact Nat.succ_le_succ (Nat.zero_le _)
    | cons v ws =>
      simp only [commaSeparated, List.length_append, List.length_cons] at ih ⊢
      omega

/-! ## 2. The loop in the middle of its run -/

/-- Reading the tokens leads the loop over operators to this reading, and the loop goes on from
    there. The rounds that it took are covered by the tokens between. -/
def Passes (room least : Nat) (tokens : List Token) (out : Reading) : Prop :=
  ∃ first k, atom (expression room) tokens = .ok first ∧ k + out.rest.length ≤ first.rest.length ∧
    ∀ n, operators (expression room) room least (n + k) first =
      operators (expression room) room least n out

section

variable {room least : Nat} {tokens : List Token} {out : Reading}

theorem passes_of_atomStep (h : AtomStep (expression room) tokens out) :
    Passes room least tokens out :=
  ⟨out, 0, atom_of_step h, Nat.le_of_eq (Nat.zero_add _), fun _ => rfl⟩

/-- Where nothing goes on that binds tightly enough, the loop ends. -/
theorem expression_of_passes (h : Passes room least tokens out) (hrest : out.rest ≠ [])
    (hstops : Stops least out.rest) :
    expression (room + 1) least tokens = .ok out := by
  obtain ⟨first, k, hatom, hlength, hloop⟩ := h
  have hpos : 0 < out.rest.length := List.length_pos_of_ne_nil hrest
  obtain ⟨n, hn⟩ : ∃ n, first.rest.length + 1 = n + 1 + k := ⟨first.rest.length - k, by omega⟩
  obtain ⟨t, after, hcons⟩ := List.exists_cons_of_ne_nil hrest
  show (atom (expression room) tokens >>= fun left =>
    operators (expression room) room least (left.rest.length + 1) left) = .ok out
  rw [hatom, ok_bind, hn, hloop]
  exact operators_eq_ok_iff.mpr (.stop t after hcons hstops rfl)

/-- One more round, that of a member access. -/
theorem Passes.member {e : Expr} {height : Nat} {t f : Token} {rest : List Token} {field : String}
    (h : Passes room least tokens ⟨e, height, t :: f :: rest⟩) (dot : t.lexeme = .symbol .dot)
    (binds : least ≤ accessLevel) (name : f.lexeme = .name field) (fits : height < room) :
    Passes room least tokens ⟨.member e field, height + 1, rest⟩ := by
  obtain ⟨first, k, hatom, hlength, hloop⟩ := h
  -- the place behind the field is one round further, and one token more is gone
  refine ⟨first, k + 1, hatom, ?_, fun n => ?_⟩
  · simp only [List.length_cons] at hlength
    show k + 1 + rest.length ≤ first.rest.length
    omega
  · have hround : n + (k + 1) = n + 1 + k := by omega
    rw [hround, hloop, operators_dot dot, if_neg (Nat.not_lt_of_le binds)]
    dsimp only
    rw [name]
    dsimp only
    rw [if_neg (Nat.not_le_of_lt fits)]

/-- One more round, that of an operator and its right operand. -/
theorem Passes.binary {e : Expr} {height : Nat} {t : Token} {after : List Token} {op : Operator}
    {right : Reading} (h : Passes room least tokens ⟨e, height, t :: after⟩)
    (symbol : t.lexeme = .symbol op.symbol) (binds : least ≤ op.binding)
    (read : expression room (op.binding + 1) after = .ok right)
    (shorter : right.rest.length ≤ after.length) (fits : max height right.height < room) :
    Passes room least tokens
      ⟨.binary op e right.expr, max height right.height + 1, right.rest⟩ := by
  obtain ⟨first, k, hatom, hlength, hloop⟩ := h
  refine ⟨first, k + 1, hatom, ?_, fun n => ?_⟩
  · simp only [List.length_cons] at hlength
    show k + 1 + right.rest.length ≤ first.rest.length
    omega
  · have hround : n + (k + 1) = n + 1 + k := by omega
    rw [hround, hloop, operators_symbol symbol, if_neg (Nat.not_lt_of_le binds), read, ok_bind,
      if_neg (Nat.not_le_of_lt fits)]

end

/-! ## 3. Items and fields -/

/-- The operand reads this word as this tree where a bracket or a comma follows. -/
def ReadsInside (operand : Operand) (w : List Lexeme) (e : Expr) : Prop :=
  ∀ ts c rest, lexemes ts = w → bindingOf? c.lexeme = none →
    operand 0 (ts ++ c :: rest) = .ok ⟨e, e.height, c :: rest⟩

variable {operand : Operand}

/-- Words with commas between them and a bracket behind are read as items. -/
theorem items_complete {parts : List (List Lexeme × Expr)} (hne : parts ≠ [])
    (hreads : ∀ part ∈ parts, ReadsInside operand part.1 part.2) {rounds : Nat}
    (hrounds : parts.length ≤ rounds) {ts : List Token} (rest : List Token)
    (hts : lexemes ts = commaSeparated (parts.map Prod.fst) ++ [.symbol .closeSquare]) :
    items operand rounds (ts ++ rest) =
      .ok (parts.map Prod.snd, heightOfItems (parts.map Prod.snd), rest) := by
  induction parts generalizing rounds ts with
  | nil => exact absurd rfl hne
  | cons part parts ih =>
    obtain ⟨rounds, rfl⟩ : ∃ n, rounds = n + 1 :=
      Nat.exists_eq_add_one.mpr (Nat.zero_lt_of_lt hrounds)
    have hpart : ReadsInside operand part.1 part.2 := hreads part List.mem_cons_self
    cases parts with
    | nil =>
      obtain ⟨us, c, rfl, hus, hc⟩ := exists_of_lexemes_closed hts
      have hread := hpart us c rest hus (by rw [hc]; rfl)
      rw [List.append_assoc]
      refine items_eq_ok_iff.mpr (.last _ c hread rfl hc rfl ?_)
      exact Nat.max_zero _
    | cons next parts =>
      simp only [List.map_cons, commaSeparated, List.append_assoc, List.cons_append] at hts
      obtain ⟨us, vs, rfl, hus, hvs⟩ := exists_of_lexemes_append hts
      obtain ⟨c, vs, rfl, hc, hvs⟩ := exists_of_lexemes_cons hvs
      have hread := hpart us c (vs ++ rest) hus (by rw [hc]; rfl)
      have hothers := ih (List.cons_ne_nil _ _) (fun p hp => hreads p (List.mem_cons_of_mem _ hp))
        (Nat.le_of_succ_le_succ hrounds) hvs
      rw [List.append_assoc]
      exact items_eq_ok_iff.mpr (.more _ c _ _ _ hread rfl hc hothers rfl rfl)

/-- Keys and values with commas between them and a bracket behind are read as fields, where no key
    comes twice or was seen before. -/
theorem fields_complete {parts : List (String × List Lexeme × Expr)} (hne : parts ≠ [])
    (hreads : ∀ part ∈ parts, ReadsInside operand part.2.1 part.2.2) {rounds : Nat}
    (hrounds : parts.length ≤ rounds) {seen : List String} (hnodup : (parts.map Prod.fst).Nodup)
    (hnew : ∀ part ∈ parts, part.1 ∉ seen) {ts : List Token} (rest : List Token)
    (hts : lexemes ts = commaSeparated (parts.map fun part => fieldWord part.1 part.2.1) ++
      [.symbol .closeCurly]) :
    fields operand rounds seen (ts ++ rest) =
      .ok (parts.map fun part => (part.1, part.2.2),
        heightOfFields (parts.map fun part => (part.1, part.2.2)), rest) := by
  induction parts generalizing rounds seen ts with
  | nil => exact absurd rfl hne
  | cons part parts ih =>
    obtain ⟨rounds, rfl⟩ : ∃ n, rounds = n + 1 :=
      Nat.exists_eq_add_one.mpr (Nat.zero_lt_of_lt hrounds)
    have hpart : ReadsInside operand part.2.1 part.2.2 := hreads part List.mem_cons_self
    have hpartNew : part.1 ∉ seen := hnew part List.mem_cons_self
    obtain ⟨hfresh, hrestNodup⟩ := List.nodup_cons.mp hnodup
    cases parts with
    | nil =>
      obtain ⟨k, ts, rfl, hk, hts⟩ := exists_of_lexemes_cons hts
      obtain ⟨colon, ts, rfl, hcolon, hts⟩ := exists_of_lexemes_cons hts
      obtain ⟨us, c, rfl, hus, hc⟩ := exists_of_lexemes_closed hts
      have hread := hpart us c rest hus (by rw [hc]; rfl)
      have hshape : k :: colon :: (us ++ [c]) ++ rest = k :: colon :: (us ++ c :: rest) := by simp
      refine fields_eq_ok_iff.mpr
        (.last k colon part.1 _ _ c hshape hk hpartNew hcolon hread rfl hc rfl ?_)
      exact Nat.max_zero _
    | cons next parts =>
      simp only [List.map_cons, commaSeparated, fieldWord, List.append_assoc,
        List.cons_append] at hts
      obtain ⟨k, ts, rfl, hk, hts⟩ := exists_of_lexemes_cons hts
      obtain ⟨colon, ts, rfl, hcolon, hts⟩ := exists_of_lexemes_cons hts
      obtain ⟨us, vs, rfl, hus, hvs⟩ := exists_of_lexemes_append hts
      obtain ⟨c, vs, rfl, hc, hvs⟩ := exists_of_lexemes_cons hvs
      have hread := hpart us c (vs ++ rest) hus (by rw [hc]; rfl)
      have hotherNew : ∀ p ∈ next :: parts, p.1 ∉ part.1 :: seen := by
        intro p hp hseen
        rcases List.mem_cons.mp hseen with heq | hseen
        · exact hfresh (heq ▸ List.mem_map_of_mem hp)
        · exact hnew p (List.mem_cons_of_mem _ hp) hseen
      have hothers := ih (List.cons_ne_nil _ _) (fun p hp => hreads p (List.mem_cons_of_mem _ hp))
        (Nat.le_of_succ_le_succ hrounds) hrestNodup hotherNew hvs
      have hshape : k :: colon :: (us ++ c :: vs) ++ rest =
          k :: colon :: (us ++ c :: (vs ++ rest)) := by
        simp
      exact fields_eq_ok_iff.mpr
        (.more k colon part.1 _ _ c _ _ _ hshape hk hpartNew hcolon hread rfl hc hothers rfl rfl)

/-! ## 4. Atoms -/

/-- Wherever the depth fits and no operator of the level or a tighter one follows, reading this word
    passes this tree. -/
def ReadsAt (d q : Nat) (w : List Lexeme) (e : Expr) : Prop :=
  ∀ room least ts t rest, d ≤ room → least ≤ q → lexemes ts = w → Stops (q + 1) (t :: rest) →
    Passes room least (ts ++ t :: rest) ⟨e, e.height, t :: rest⟩

/-- Words in brackets are read whole. -/
theorem ReadsAt.inside {d : Nat} {w : List Lexeme} {e : Expr}
    (h : ReadsAt d loosest w e) {room : Nat}
    (hd : d ≤ room) : ReadsInside (expression (room + 1)) w e := by
  intro ts c rest hts hc
  have hpasses := h room 0 ts c rest hd (Nat.zero_le _) hts (stops_of_bindingOf?_eq_none hc)
  exact expression_of_passes hpasses (List.cons_ne_nil _ _)
    (stops_of_bindingOf?_eq_none hc)

theorem readsAt_leaf {d : Nat} {x : Lexeme} {e : Expr} (h : leaf? x = some e) :
    ReadsAt d atomLevel [x] e := by
  intro room least ts t rest _ _ hts _
  obtain ⟨a, ts, rfl, ha, hts⟩ := exists_of_lexemes_cons hts
  rw [List.map_eq_nil_iff.mp hts, ← (derives_of_leaf? h).2]
  exact passes_of_atomStep (.leaf a e (t :: rest) (by rw [ha, h]))

theorem readsAt_named {d : Nat} {x : Lexeme} {leaf : String → Expr} (h : sigil? x = some leaf)
    (name : String) : ReadsAt d atomLevel [x, .name name] (leaf name) := by
  intro room least ts t rest _ _ hts _
  obtain ⟨a, ts, rfl, ha, hts⟩ := exists_of_lexemes_cons hts
  obtain ⟨b, ts, rfl, hb, hts⟩ := exists_of_lexemes_cons hts
  rw [List.map_eq_nil_iff.mp hts, ← (derives_of_sigil? h name).2]
  exact passes_of_atomStep (.named a b leaf name (t :: rest) (by rw [ha, h]) hb)

theorem readsAt_group {d : Nat} {w : List Lexeme} {e : Expr} (h : ReadsAt d loosest w e) :
    ReadsAt (d + 1) atomLevel (.symbol .openRound :: (w ++ [.symbol .closeRound])) e := by
  intro room least ts t rest hroom _ hts _
  obtain ⟨room, rfl⟩ := Nat.exists_eq_add_one.mpr (Nat.zero_lt_of_lt hroom)
  obtain ⟨a, ts, rfl, ha, hts⟩ := exists_of_lexemes_cons hts
  obtain ⟨us, c, rfl, hus, hc⟩ := exists_of_lexemes_closed hts
  have hread := h.inside (Nat.le_of_succ_le_succ hroom) us c (t :: rest) hus (by rw [hc]; rfl)
  have hshape : a :: (us ++ [c]) ++ t :: rest = a :: (us ++ c :: t :: rest) := by simp
  rw [hshape]
  exact passes_of_atomStep (.group a c _ _ _ ha hread rfl hc)

/-- The tokens of an expression and what follows, its first token apart: no bracket closes there. -/
theorem exists_first {d q : Nat} {w : List Lexeme} {e : Expr} (h : Derives d q w e)
    {ts : List Token} (hts : lexemes ts = w) :
    ∃ u us, ts = u :: us ∧ ∀ s : Symbol, s.closes = true → u.lexeme ≠ .symbol s := by
  obtain ⟨first, w, rfl, hfirst⟩ := h.exists_cons
  obtain ⟨u, us, rfl, rfl, _⟩ := exists_of_lexemes_cons hts
  exact ⟨u, us, rfl, hfirst⟩

theorem readsAt_similarity {d : Nat} {w : List Lexeme} {e : Expr} (hd : Derives d loosest w e)
    (h : ReadsAt d loosest w e) :
    ReadsAt (d + 1) atomLevel (.symbol .openSquare :: (w ++ [.symbol .closeSquare]))
      (.similarity e) := by
  intro room least ts t rest hroom _ hts _
  obtain ⟨room, rfl⟩ := Nat.exists_eq_add_one.mpr (Nat.zero_lt_of_lt hroom)
  obtain ⟨a, ts, rfl, ha, hts⟩ := exists_of_lexemes_cons hts
  obtain ⟨us, c, rfl, hus, hc⟩ := exists_of_lexemes_closed hts
  obtain ⟨u, us, rfl, hu⟩ := exists_first hd hus
  have hread :=
    h.inside (Nat.le_of_succ_le_succ hroom) (u :: us) c (t :: rest) hus (by rw [hc]; rfl)
  -- a balanced word has no comma of its own, so the brackets hold a single item
  have hcomma : hasOwnComma 0 (u :: us ++ c :: t :: rest) = false := by
    rw [hasOwnComma_eq, lexemes_append, hus, hd.balanced, lexemes_cons, hc]
    rfl
  have hshape : a :: (u :: us ++ [c]) ++ t :: rest = a :: u :: (us ++ c :: t :: rest) := by simp
  rw [hshape]
  exact passes_of_atomStep (.similarity a u c _ _ _ ha (hu _ rfl) hcomma hread rfl hc)

theorem readsAt_difference {d : Nat} {w : List Lexeme} {e : Expr}
    (hfield : startsLikeField w = false) (hd : Derives d loosest w e) (h : ReadsAt d loosest w e) :
    ReadsAt (d + 1) atomLevel (.symbol .openCurly :: (w ++ [.symbol .closeCurly]))
      (.difference e) := by
  intro room least ts t rest hroom _ hts _
  obtain ⟨room, rfl⟩ := Nat.exists_eq_add_one.mpr (Nat.zero_lt_of_lt hroom)
  obtain ⟨a, ts, rfl, ha, hts⟩ := exists_of_lexemes_cons hts
  obtain ⟨us, c, rfl, hus, hc⟩ := exists_of_lexemes_closed hts
  obtain ⟨u, us, rfl, hu⟩ := exists_first hd hus
  have hread :=
    h.inside (Nat.le_of_succ_le_succ hroom) (u :: us) c (t :: rest) hus (by rw [hc]; rfl)
  -- what decides between field and difference is two tokens, and both lie inside the word
  have hnoField : startsField (u :: (us ++ c :: t :: rest)) = .ok false := by
    rw [startsField_eq_ok (List.append_ne_nil_of_right_ne_nil us (List.cons_ne_nil c (t :: rest))),
      ← List.cons_append, lexemes_append, hus, lexemes_cons, hc,
      startsLikeField_append_closed _ rfl, hfield]
  have hshape : a :: (u :: us ++ [c]) ++ t :: rest = a :: u :: (us ++ c :: t :: rest) := by simp
  rw [hshape]
  exact passes_of_atomStep (.difference a u c _ _ _ ha (hu _ rfl) hnoField hread rfl hc)

theorem readsAt_array {d : Nat} {items : List (List Lexeme × Expr)} (htwo : 2 ≤ items.length)
    (hd : ∀ item ∈ items, Derives d loosest item.1 item.2)
    (h : ∀ item ∈ items, ReadsAt d loosest item.1 item.2) :
    ReadsAt (d + 1) atomLevel
      (.symbol .openSquare :: (commaSeparated (items.map Prod.fst) ++ [.symbol .closeSquare]))
      (.array (items.map Prod.snd)) := by
  intro room least ts t rest hroom _ hts _
  obtain ⟨room, rfl⟩ := Nat.exists_eq_add_one.mpr (Nat.zero_lt_of_lt hroom)
  obtain ⟨a, ts, rfl, ha, hts⟩ := exists_of_lexemes_cons hts
  obtain ⟨first, second, items, rfl⟩ : ∃ i j is, items = i :: j :: is := by
    match items, htwo with
    | i :: j :: is, _ => exact ⟨i, j, is, rfl⟩
  have hfirst : Derives d loosest first.1 first.2 := hd first List.mem_cons_self
  -- the first token is that of the first item, and its own comma follows that item
  obtain ⟨u, us, rfl, hu⟩ : ∃ u us, ts = u :: us ∧
      ∀ s : Symbol, s.closes = true → u.lexeme ≠ .symbol s := by
    obtain ⟨x, w, hw, hx⟩ := hfirst.exists_cons
    simp only [List.map_cons, commaSeparated, hw, List.cons_append] at hts
    obtain ⟨u, us, rfl, rfl, _⟩ := exists_of_lexemes_cons hts
    exact ⟨u, us, rfl, hx⟩
  have hcomma : hasOwnComma 0 (u :: us ++ t :: rest) = true := by
    rw [hasOwnComma_eq, lexemes_append, hts, List.append_assoc]
    exact commaIn_zero_commaSeparated _ hfirst.balanced _
  have hrounds : (first :: second :: items).length ≤ (us ++ t :: rest).length + 1 := by
    have hwords := length_le_commaSeparated ((first :: second :: items).map Prod.fst)
    have hlength := congrArg List.length hts
    rw [List.length_map] at hwords
    rw [lexemes, List.length_map, List.length_append] at hlength
    rw [List.length_append]
    simp only [List.length_cons, List.length_nil] at hwords hlength ⊢
    omega
  have hread := items_complete (List.cons_ne_nil _ _)
    (fun item hi => (h item hi).inside (Nat.le_of_succ_le_succ hroom)) hrounds (t :: rest) hts
  exact passes_of_atomStep (.array a u _ _ _ _ ha (hu _ rfl) hcomma hread)

theorem readsAt_object {d : Nat} {parts : List (String × List Lexeme × Expr)} (hne : parts ≠ [])
    (hnodup : (parts.map Prod.fst).Nodup)
    (h : ∀ part ∈ parts, ReadsAt d loosest part.2.1 part.2.2) :
    ReadsAt (d + 1) atomLevel
      (.symbol .openCurly ::
        (commaSeparated (parts.map fun part => fieldWord part.1 part.2.1) ++ [.symbol .closeCurly]))
      (.object (parts.map fun part => (part.1, part.2.2))) := by
  intro room least ts t rest hroom _ hts _
  obtain ⟨room, rfl⟩ := Nat.exists_eq_add_one.mpr (Nat.zero_lt_of_lt hroom)
  obtain ⟨a, ts, rfl, ha, hts⟩ := exists_of_lexemes_cons hts
  obtain ⟨part, parts, rfl⟩ := List.exists_cons_of_ne_nil hne
  -- the first tokens are the key and the colon of the first field
  obtain ⟨w, hw⟩ : ∃ w, lexemes ts = .string part.1 :: .symbol .colon :: w := by
    rw [hts]
    cases parts with
    | nil => exact ⟨_, rfl⟩
    | cons next parts => exact ⟨_, rfl⟩
  obtain ⟨u, us, rfl, hu, hus⟩ := exists_of_lexemes_cons hw
  obtain ⟨v, us, rfl, hv, _⟩ := exists_of_lexemes_cons hus
  have hfield : startsField (u :: v :: us ++ t :: rest) = .ok true := by
    refine (startsField_eq_ok (List.cons_ne_nil v (us ++ t :: rest))).trans ?_
    rw [lexemes_cons, lexemes_cons, hu, hv]
    rfl
  have hrounds : (part :: parts).length ≤ (v :: us ++ t :: rest).length + 1 := by
    have hwords :=
      length_le_commaSeparated ((part :: parts).map fun part => fieldWord part.1 part.2.1)
    have hlength := congrArg List.length hts
    rw [List.length_map] at hwords
    rw [lexemes, List.length_map, List.length_append] at hlength
    rw [List.length_append]
    simp only [List.length_cons, List.length_nil] at hwords hlength ⊢
    omega
  have hread := fields_complete (List.cons_ne_nil _ _)
    (fun part hp => (h part hp).inside (Nat.le_of_succ_le_succ hroom)) hrounds hnodup
    (fun _ _ => List.not_mem_nil) (t :: rest) hts
  exact passes_of_atomStep (.object a u _ _ _ _ ha hfield hread)

/-! ## 5. Operators and expressions -/

theorem readsAt_member {d : Nat} {w : List Lexeme} {target : Expr} (field : String)
    (hd : Derives d accessLevel w target) (h : ReadsAt d accessLevel w target) :
    ReadsAt (d + 1) accessLevel (w ++ [.symbol .dot, .name field]) (.member target field) := by
  intro room least ts t rest hroom hleast hts _
  obtain ⟨us, vs, rfl, hus, hvs⟩ := exists_of_lexemes_append hts
  obtain ⟨dot, vs, rfl, hdot, hvs⟩ := exists_of_lexemes_cons hvs
  obtain ⟨f, vs, rfl, hf, hvs⟩ := exists_of_lexemes_cons hvs
  have hstops : Stops (accessLevel + 1) (dot :: f :: t :: rest) :=
    stops_of_accessLevel_lt (Nat.lt_succ_self _) _
  have hpasses := h room least us dot (f :: t :: rest) (Nat.le_of_succ_le hroom) hleast hus hstops
  have hshape : us ++ [dot, f] ++ t :: rest = us ++ dot :: f :: t :: rest := by simp
  rw [List.map_eq_nil_iff.mp hvs, hshape]
  exact hpasses.member hdot hleast hf (Nat.lt_of_lt_of_le (Nat.lt_succ_of_le hd.height_le) hroom)

theorem readsAt_binary {d : Nat} (op : Operator) {w v : List Lexeme} {l r : Expr}
    (hdl : Derives d op.binding w l) (hdr : Derives d (op.binding + 1) v r)
    (hl : ReadsAt d op.binding w l) (hr : ReadsAt d (op.binding + 1) v r) :
    ReadsAt (d + 1) op.binding (w ++ .symbol op.symbol :: v) (.binary op l r) := by
  intro room least ts t rest hroom hleast hts hstops
  obtain ⟨room, rfl⟩ := Nat.exists_eq_add_one.mpr (Nat.zero_lt_of_lt hroom)
  obtain ⟨us, vs, rfl, hus, hvs⟩ := exists_of_lexemes_append hts
  obtain ⟨o, vs, rfl, ho, hvs⟩ := exists_of_lexemes_cons hvs
  -- on the left, this very operator is what ends the operand
  have hleftStops : Stops (op.binding + 1) (o :: (vs ++ t :: rest)) := by
    rw [stops_cons_iff, ho, bindingOf?_symbol]
    intro b hb
    cases hb
    exact Nat.lt_succ_self _
  have hleft :=
    hl (room + 1) least us o (vs ++ t :: rest) (Nat.le_of_succ_le hroom) hleast hus hleftStops
  have hright :=
    hr room (op.binding + 1) vs t rest (Nat.le_of_succ_le_succ hroom) (Nat.le_refl _) hvs
    (hstops.mono (Nat.le_succ _))
  have hread := expression_of_passes hright (List.cons_ne_nil _ _) hstops
  have hheight : max l.height r.height < room + 1 :=
    Nat.lt_of_lt_of_le (Nat.lt_succ_of_le (Nat.max_le.mpr ⟨hdl.height_le, hdr.height_le⟩)) hroom
  have hshorter : (t :: rest).length ≤ (vs ++ t :: rest).length := by
    rw [List.length_append]
    exact Nat.le_add_left _ _
  have hshape : us ++ o :: vs ++ t :: rest = us ++ o :: (vs ++ t :: rest) := by simp
  rw [hshape]
  exact hleft.binary ho hleast hread hshorter hheight

/-- What is derived is read, wherever its depth fits. -/
theorem readsAt_of_derives {d q : Nat} {w : List Lexeme} {e : Expr} (h : Derives d q w e) :
    ReadsAt d q w e := by
  -- on the derivation: each rule of the grammar is one way for the reader to go
  induction h with
  | null => exact readsAt_leaf rfl
  | bool value => exact readsAt_leaf rfl
  | number value => exact readsAt_leaf rfl
  | string value => exact readsAt_leaf rfl
  | existence => exact readsAt_leaf rfl
  | reference name => exact readsAt_named rfl name
  | action name => exact readsAt_named rfl name
  | group _ ih => exact readsAt_group ih
  | emptyArray =>
    intro room least ts t rest _ _ hts _
    obtain ⟨a, ts, rfl, ha, hts⟩ := exists_of_lexemes_cons hts
    obtain ⟨c, ts, rfl, hc, hts⟩ := exists_of_lexemes_cons hts
    rw [List.map_eq_nil_iff.mp hts]
    exact passes_of_atomStep (.emptyArray a c _ ha hc)
  | similarity hd ih => exact readsAt_similarity hd ih
  | array items two_le each ih => exact readsAt_array two_le each ih
  | emptyObject =>
    intro room least ts t rest _ _ hts _
    obtain ⟨a, ts, rfl, ha, hts⟩ := exists_of_lexemes_cons hts
    obtain ⟨c, ts, rfl, hc, hts⟩ := exists_of_lexemes_cons hts
    rw [List.map_eq_nil_iff.mp hts]
    exact passes_of_atomStep (.emptyObject a c _ ha hc)
  | object fields nonempty distinct _ ih => exact readsAt_object nonempty distinct ih
  | difference noField hd ih => exact readsAt_difference noField hd ih
  | member field hd ih => exact readsAt_member field hd ih
  | binary op hdl hdr ihl ihr => exact readsAt_binary op hdl hdr ihl ihr
  -- what stops the looser level stops the tighter one too
  | lower _ ih =>
    intro room least ts t rest hroom hleast hts hstops
    exact ih room least ts t rest hroom (Nat.le_succ_of_le hleast) hts (hstops.mono (Nat.le_succ _))

/-- Tokens of a derived word before the end of the input are read as its tree. -/
theorem expression_of_derives {d : Nat} {ts : List Token} {e : Expr}
    (h : Derives d loosest (lexemes ts) e) {f : Token} (hf : f.lexeme = .finish)
    (rest : List Token) :
    expression (d + 1) 0 (ts ++ f :: rest) = .ok ⟨e, e.height, f :: rest⟩ :=
  (readsAt_of_derives h).inside (Nat.le_refl d) ts f rest rfl (by rw [hf]; rfl)

/-! ## 6. The language of the reader -/

/-- No word spells two different trees. -/
theorem Spells.unique {w : List Lexeme} {e f : Expr} (he : Spells w e)
    (hf : Spells w f) : e = f := by
  obtain ⟨d, hd⟩ := he
  obtain ⟨d', hd'⟩ := hf
  -- both derivations fit in one room, and the reader returns a single tree there
  let ts : List Token := w.map fun x => ⟨x, 0⟩
  have hts : lexemes ts = w := by simp [ts, lexemes, Function.comp_def]
  have hde : Derives (max d d') loosest (lexemes ts) e := hts ▸ hd.mono (Nat.le_max_left d d')
  have hdf : Derives (max d d') loosest (lexemes ts) f := hts ▸ hd'.mono (Nat.le_max_right d d')
  have hreadE := expression_of_derives hde (f := ⟨.finish, 0⟩) rfl []
  have hreadF := expression_of_derives hdf (f := ⟨.finish, 0⟩) rfl []
  rw [hreadE] at hreadF
  exact congrArg Reading.expr (Except.ok.inj hreadF)

/-- Tokens with an end of the input among them: what stands before the first one, that
    one, the rest. -/
theorem exists_spelling {tokens : List Token} (h : ∃ t ∈ tokens, t.lexeme = .finish) :
    ∃ ts f rest, tokens = ts ++ f :: rest ∧ f.lexeme = .finish ∧ spelling tokens = lexemes ts := by
  induction tokens with
  | nil =>
    obtain ⟨t, ht, _⟩ := h
    cases ht
  | cons t tokens ih =>
    by_cases ht : t.lexeme = .finish
    · exact ⟨[], t, tokens, rfl, ht, by simp [spelling, ht]⟩
    · obtain ⟨u, hu, hfinish⟩ := h
      rcases List.mem_cons.mp hu with rfl | hu
      · exact absurd hfinish ht
      · obtain ⟨ts, f, rest, rfl, hf, hspelling⟩ := ih ⟨u, hu, hfinish⟩
        refine ⟨t :: ts, f, rest, rfl, hf, ?_⟩
        have hkeep : decide (t.lexeme ≠ .finish) = true := decide_eq_true ht
        unfold spelling at hspelling ⊢
        rw [lexemes_cons, List.takeWhile_cons, if_pos hkeep, hspelling, lexemes_cons]

/-- A word whose derivation stays within the nesting limit is read as its tree, where it stands
    before the first end of the input and the tokens end in one. -/
theorem ofTokens_of_derives {tokens : List Token} {e : Expr}
    (hlast : tokens.getLast?.map Token.lexeme = some .finish)
    (h : Derives maxNesting loosest (spelling tokens) e) : ofTokens tokens = .ok e := by
  obtain ⟨last, hgetLast, hfinish⟩ := Option.map_eq_some_iff.mp hlast
  obtain ⟨ts, f, rest, htokens, hf, hspelling⟩ :=
    exists_spelling ⟨last, List.mem_of_getLast? hgetLast, hfinish⟩
  rw [hspelling] at h
  have hread : expression (maxNesting + 1) 0 tokens = .ok ⟨e, e.height, f :: rest⟩ := by
    rw [htokens]
    exact expression_of_derives h hf rest
  unfold ofTokens
  rw [hgetLast]
  dsimp only
  rw [if_pos hfinish, hread, ok_bind]
  dsimp only
  rw [if_pos hf]
  rfl

end Sigil.Expr
