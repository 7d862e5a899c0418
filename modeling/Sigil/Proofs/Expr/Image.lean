import Sigil.Proofs.Expr.Completeness
import Sigil.Proofs.Token.Written

/-!
# Which trees have a text

A text spells well-formed trees only: names are names and none of the three words for literals,
numbers are finite, the keys of an object differ, and no array has a single item. Conversely every
well-formed tree of up to half as many levels as may be nested has a text, as each level takes two:
the operation and the parentheses around it.

The text is written in two stages, as texts are read in two. `word` gives the lexemes of a
tree, with parentheses around every operation and every access, and their texts stand one
behind the other. What a derivation says of its word and its tree
(`Derives.wellFormed_iff`) serves both directions.
-/

namespace Sigil.Expr

/-! ## 1. Well-formed trees -/

/-- What a text can spell at this node. -/
def isSpellable : Expr → Bool
  | .number value => value.isFinite
  | .reference name => Lexeme.isFreeName name
  | .action name => Lexeme.isFreeName name
  | .member _ field => Lexeme.isFreeName field
  | .array items => items.length != 1
  | .object fields => decide (fields.map Prod.fst).Nodup
  | .foreign _ => false
  | _ => true

/-- Every node can be spelt. -/
abbrev WellFormed (e : Expr) : Prop := e.Every fun part => part.isSpellable = true

theorem wellFormed_node_iff {e : Expr} :
    e.WellFormed ↔ e.isSpellable = true ∧ ∀ c ∈ e.children, c.WellFormed := every_iff

/-! ## 2. Derived trees -/

/-- The lexemes of a word can be spelt. -/
def SpellableWord (w : List Lexeme) : Prop := ∀ x ∈ w, x.isSpellable = true

theorem spellableWord_commaSeparated {ws : List (List Lexeme)} :
    SpellableWord (commaSeparated ws) ↔ ∀ w ∈ ws, SpellableWord w := by
  induction ws with
  | nil => simp [commaSeparated, SpellableWord]
  | cons w ws ih =>
    cases ws with
    | nil => simp [commaSeparated]
    | cons v ws =>
      rw [List.forall_mem_cons, ← ih]
      unfold SpellableWord
      rw [commaSeparated, List.forall_mem_append, List.forall_mem_cons]
      exact and_congr_right fun _ => ⟨fun h => h.2, fun h => ⟨rfl, h⟩⟩

/-- Brackets around a word change nothing. -/
theorem spellableWord_bracketed {s t : Symbol} {w : List Lexeme} :
    SpellableWord (.symbol s :: (w ++ [.symbol t])) ↔ SpellableWord w := by
  unfold SpellableWord
  rw [List.forall_mem_cons, List.forall_mem_append, List.forall_mem_singleton]
  exact ⟨fun h => h.2.1, fun h => ⟨rfl, h, rfl⟩⟩

theorem spellableWord_fieldWord {key : String} {w : List Lexeme} :
    SpellableWord (fieldWord key w) ↔ SpellableWord w := by
  unfold SpellableWord fieldWord
  rw [List.forall_mem_cons, List.forall_mem_cons]
  exact ⟨fun h => h.2.2, fun h => ⟨rfl, rfl, h⟩⟩

/-- A tree is well-formed if and only if the word that derives it holds nothing but what a text can
    spell: the grammar itself takes care of arrays and of keys. -/
theorem Derives.wellFormed_iff {d q : Nat} {w : List Lexeme} {e : Expr} (h : Derives d q w e) :
    e.WellFormed ↔ SpellableWord w := by
  -- on the derivation: a bracket adds no name, and the other rules add just the one they check
  induction h with
  | lower _ ih => exact ih
  | group _ ih => exact ih.trans spellableWord_bracketed.symm
  | similarity _ ih =>
    rw [spellableWord_bracketed, ← ih, wellFormed_node_iff]
    simp only [isSpellable, children, List.forall_mem_singleton, true_and]
  | difference _ _ ih =>
    rw [spellableWord_bracketed, ← ih, wellFormed_node_iff]
    simp only [isSpellable, children, List.forall_mem_singleton, true_and]
  | array items two_le _ ih =>
    have hlength : (items.length != 1) = true := bne_iff_ne.mpr (by omega)
    rw [spellableWord_bracketed, spellableWord_commaSeparated, wellFormed_node_iff]
    simp only [isSpellable, List.length_map, hlength, true_and, children, List.forall_mem_map]
    exact forall₂_congr ih
  | object fields _ distinct _ ih =>
    have hkeys :
        decide ((fields.map fun field => (field.1, field.2.2)).map Prod.fst).Nodup = true := by
      rw [List.map_map]
      exact decide_eq_true distinct
    rw [spellableWord_bracketed, spellableWord_commaSeparated, wellFormed_node_iff]
    simp only [isSpellable, hkeys, true_and, children, List.forall_mem_map]
    exact forall₂_congr fun field hf => (ih field hf).trans spellableWord_fieldWord.symm
  | member field _ ih =>
    unfold SpellableWord at ih ⊢
    rw [List.forall_mem_append, ← ih, wellFormed_node_iff]
    simp only [isSpellable, Lexeme.isSpellable, children, List.forall_mem_cons, List.not_mem_nil,
      false_implies, implies_true, and_true, true_and]
    exact and_comm
  | binary op _ _ ihl ihr =>
    unfold SpellableWord at ihl ihr ⊢
    rw [List.forall_mem_append, List.forall_mem_cons, ← ihl, ← ihr, wellFormed_node_iff]
    simp only [isSpellable, Lexeme.isSpellable, children, List.forall_mem_cons, List.not_mem_nil,
      false_implies, implies_true, and_true, true_and]
  | _ =>
    rw [wellFormed_node_iff]
    simp [SpellableWord, isSpellable, Lexeme.isSpellable, children]

/-- **What a text spells is well-formed.** -/
theorem wellFormed_of_ofText {s : String} {e : Expr} (h : ofText s = .ok e) : e.WellFormed := by
  obtain ⟨tokens, hscan, hread⟩ := ofText_eq_ok_iff.mp h
  obtain ⟨d, hd⟩ := spells_of_ofTokens hread
  refine hd.wellFormed_iff.mpr fun x hx => ?_
  have hmem : x ∈ lexemes tokens := (List.takeWhile_sublist _).subset hx
  obtain ⟨t, ht, rfl⟩ := List.mem_map.mp hmem
  exact Token.isSpellable_of_scan hscan t ht

/-! ## 3. The word of a tree -/

mutual

/-- The lexemes of a tree, with parentheses around each operation and each access. A
    foreign value has none. -/
def word : Expr → List Lexeme
  | .null => [.null]
  | .bool value => [.bool value]
  | .number value => [.number value]
  | .string value => [.string value]
  | .reference name => [.symbol .dollar, .name name]
  | .action name => [.symbol .bang, .name name]
  | .existence => [.symbol .question]
  | .member target field =>
    .symbol .openRound :: ((target.word ++ [.symbol .dot, .name field]) ++ [.symbol .closeRound])
  | .binary op left right =>
    .symbol .openRound :: ((left.word ++ .symbol op.symbol :: right.word) ++ [.symbol .closeRound])
  | .array items =>
    .symbol .openSquare :: (commaSeparated (itemWords items) ++ [.symbol .closeSquare])
  | .object fields =>
    .symbol .openCurly :: (commaSeparated (fieldWords fields) ++ [.symbol .closeCurly])
  | .similarity inner => .symbol .openSquare :: (inner.word ++ [.symbol .closeSquare])
  | .difference inner => .symbol .openCurly :: (inner.word ++ [.symbol .closeCurly])
  | .foreign _ => []

/-- The words of the items. -/
def itemWords : List Expr → List (List Lexeme)
  | [] => []
  | item :: items => item.word :: itemWords items

/-- The words of the fields. -/
def fieldWords : List (String × Expr) → List (List Lexeme)
  | [] => []
  | (key, value) :: fields => fieldWord key value.word :: fieldWords fields

end

/-- The text of a tree. -/
def spelt (e : Expr) : String := String.ofList (Lexeme.written e.word)

theorem itemWords_eq (items : List Expr) : itemWords items = items.map word := by
  induction items with
  | nil => rfl
  | cons item items ih => rw [itemWords, ih, List.map_cons]

theorem fieldWords_eq (fields : List (String × Expr)) :
    fieldWords fields = fields.map fun field => fieldWord field.1 field.2.word := by
  induction fields with
  | nil => rfl
  | cons field fields ih =>
    obtain ⟨key, value⟩ := field
    rw [fieldWords, ih, List.map_cons]

/-- No word starts like a field: a string is followed by nothing. -/
theorem startsLikeField_word (e : Expr) : startsLikeField e.word = false := by
  cases e <;> rfl

/-- A tree of some height has room for two levels above each child. -/
theorem exists_depth {e : Expr} (hne : e.children ≠ []) :
    ∃ d, 2 * e.height = d + 2 ∧ ∀ c ∈ e.children, 2 * c.height ≤ d := by
  obtain ⟨c, cs, hcs⟩ := List.exists_cons_of_ne_nil hne
  have hpos : c.height < e.height := height_lt_of_child (hcs ▸ List.mem_cons_self)
  refine ⟨2 * e.height - 2, by omega, fun c' hc' => ?_⟩
  have hlt := height_lt_of_child hc'
  omega

/-- **The word of a well-formed tree derives it as an atom**, crossing two levels for
    each level of the tree. -/
theorem derives_word {e : Expr} (he : e.WellFormed) :
    Derives (2 * e.height) atomLevel e.word e := by
  induction e using child_induction with
  | node e ih =>
    -- every child is derived with twice its own height, and monotonicity lifts that to the node's
    have below : ∀ {c d}, c ∈ e.children → 2 * c.height ≤ d → Derives d atomLevel c.word c :=
      fun hc hd => (ih _ hc (he.child hc)).mono hd
    cases e with
    | null => exact .null
    | bool value => exact .bool value
    | number value => exact .number value
    | string value => exact .string value
    | reference name => exact .reference name
    | action name => exact .action name
    | existence => exact .existence
    | foreign shown => cases he.self
    | member target field =>
      have hmem : target ∈ (member target field).children := List.mem_singleton_self _
      obtain ⟨d, hheight, hd⟩ := exists_depth (List.ne_nil_of_mem hmem)
      rw [hheight]
      -- an access binds tightest, so its target stands without parentheses
      have htarget : Derives d accessLevel target.word target := (below hmem (hd _ hmem)).lower
      exact .group ((htarget.member field).lower_le (by decide))
    | binary op left right =>
      have hleft : left ∈ (binary op left right).children := List.mem_cons_self
      have hright : right ∈ (binary op left right).children :=
        List.mem_cons_of_mem _ List.mem_cons_self
      obtain ⟨d, hheight, hd⟩ := exists_depth (List.ne_nil_of_mem hleft)
      rw [hheight]
      have hop : op.binding < atomLevel := Nat.lt_succ_of_lt (binding_lt_accessLevel op)
      -- the right operand must bind more tightly, and in parentheses it does
      have hl : Derives d op.binding left.word left :=
        (below hleft (hd _ hleft)).lower_le (Nat.le_of_lt hop)
      have hr : Derives d (op.binding + 1) right.word right :=
        (below hright (hd _ hright)).lower_le hop
      exact .group ((Derives.binary op hl hr).lower_le (loosest_le_binding op))
    | similarity inner =>
      have hmem : inner ∈ (similarity inner).children := List.mem_singleton_self _
      obtain ⟨d, hheight, hd⟩ := exists_depth (List.ne_nil_of_mem hmem)
      rw [hheight]
      exact (Derives.similarity ((below hmem (hd _ hmem)).lower_le (by decide))).mono
        (Nat.le_succ _)
    | difference inner =>
      have hmem : inner ∈ (difference inner).children := List.mem_singleton_self _
      obtain ⟨d, hheight, hd⟩ := exists_depth (List.ne_nil_of_mem hmem)
      rw [hheight]
      have hinner : Derives d loosest inner.word inner :=
        (below hmem (hd _ hmem)).lower_le (by decide)
      exact (Derives.difference (startsLikeField_word inner) hinner).mono (Nat.le_succ _)
    | array items =>
      cases items with
      | nil => exact .emptyArray
      | cons item items =>
        have hmem : item ∈ (array (item :: items)).children := List.mem_cons_self
        obtain ⟨d, hheight, hd⟩ := exists_depth (List.ne_nil_of_mem hmem)
        have htwo : 2 ≤ (item :: items).length := by
          have hone : (item :: items).length ≠ 1 := bne_iff_ne.mp he.self
          have hpos : 0 < (item :: items).length := List.length_pos_iff.mpr (List.cons_ne_nil _ _)
          omega
        let row : List (List Lexeme × Expr) := (item :: items).map fun i => (i.word, i)
        have heach : ∀ part ∈ row, Derives d loosest part.1 part.2 := by
          intro part hpart
          obtain ⟨i, hi, rfl⟩ := List.mem_map.mp hpart
          exact (below hi (hd i hi)).lower_le (by decide)
        have hderives := Derives.array row (by simpa [row] using htwo) heach
        have hwords : row.map Prod.fst = itemWords (item :: items) := by
          simp [row, itemWords_eq]
        have hitems : row.map Prod.snd = item :: items := by
          simp [row, Function.comp_def]
        rw [hwords, hitems] at hderives
        rw [hheight]
        exact hderives.mono (Nat.le_succ _)
    | object fields =>
      cases fields with
      | nil => exact .emptyObject
      | cons field fields =>
        have hmem : field.2 ∈ (object (field :: fields)).children := List.mem_cons_self
        obtain ⟨d, hheight, hd⟩ := exists_depth (List.ne_nil_of_mem hmem)
        let row : List (String × List Lexeme × Expr) :=
          (field :: fields).map fun f => (f.1, f.2.word, f.2)
        have hkeys : (row.map Prod.fst).Nodup := by
          have hnodup : ((field :: fields).map Prod.fst).Nodup := of_decide_eq_true he.self
          simpa [row, Function.comp_def] using hnodup
        have heach : ∀ part ∈ row, Derives d loosest part.2.1 part.2.2 := by
          intro part hpart
          obtain ⟨f, hf, rfl⟩ := List.mem_map.mp hpart
          have hc : f.2 ∈ (object (field :: fields)).children := List.mem_map_of_mem hf
          exact (below hc (hd _ hc)).lower_le (by decide)
        have hderives := Derives.object row (by simp [row]) hkeys heach
        have hwords : (row.map fun part => fieldWord part.1 part.2.1) =
            fieldWords (field :: fields) := by
          simp [row, fieldWords_eq]
        have hfields : (row.map fun part => (part.1, part.2.2)) = field :: fields := by
          simp [row, Function.comp_def]
        rw [hwords, hfields] at hderives
        rw [hheight]
        exact hderives.mono (Nat.le_succ _)

/-! ## 4. The image of reading -/

/-- The text of a word is read as the tree that the word derives. -/
theorem ofText_written {w : List Lexeme} {e : Expr} (h : Derives maxNesting loosest w e)
    (hw : SpellableWord w) : ofText (String.ofList (Lexeme.written w)) = .ok e := by
  have hfinish : .finish ∉ w := h.finish_not_mem
  obtain ⟨tokens, hscan, hlexemes⟩ := Token.exists_scan_written hw hfinish
  have hword : spelling tokens = w := spelling_of_lexemes hfinish hlexemes
  have hlast : tokens.getLast?.map Token.lexeme = some .finish := by
    rw [← List.getLast?_map, hlexemes, List.getLast?_concat]
  have hread : ofTokens tokens = .ok e := ofTokens_of_derives hlast (hword.symm ▸ h)
  exact ofText_eq_ok_iff.mpr ⟨tokens, hscan, hread⟩

/-- A well-formed tree of up to half the nesting limit is what its text spells. -/
theorem ofText_spelt {e : Expr} (he : e.WellFormed) (hheight : 2 * e.height ≤ maxNesting) :
    ofText e.spelt = .ok e := by
  have hderives : Derives maxNesting loosest e.word e :=
    ((derives_word he).mono hheight).lower_le (by decide)
  exact ofText_written hderives (hderives.wellFormed_iff.mp he)

/-- **The image of reading a text**: what is read is well-formed, and every well-formed tree of
    up to 32 levels, half the nesting limit, is read from the text that puts parentheses around
    each of its operations. -/
theorem ofText_image :
    (∀ s e, ofText s = .ok e → e.WellFormed) ∧
      ∀ e : Expr, e.WellFormed → e.height ≤ 32 → ofText e.spelt = .ok e := by
  refine ⟨fun s e h => wellFormed_of_ofText h, fun e he hheight => ofText_spelt he ?_⟩
  unfold maxNesting
  omega

/-- A difference that holds a string before an object, words that begin like literals, the negative
    zero, and characters that must be escaped. -/
theorem difference_of_string_is_spelt :
    let e : Expr := .difference (.binary .ascription (.string "k\"\\")
      (.object [("k", .array [.number Binary64.zero.neg, .member (.reference "nullable") "x_1"]),
        ("", .array [])]))
    e.WellFormed ∧ e.height ≤ 32 ∧ ofText e.spelt = .ok e := by
  intro e
  have he : e.WellFormed := by
    show ∀ part ∈ e.parts, part.isSpellable = true
    decide
  have hheight : e.height ≤ 32 := by decide
  exact ⟨he, hheight, ofText_image.2 e he hheight⟩

end Sigil.Expr
