import Sigil.Expr.Reader
import Sigil.Proofs.Expr.Shape

/-!
# The grammar of the notation

The grammar is stratified. The loosest level is that of equality and inequality; above it
stand choice, morphism, product, bind and ascription, one level each, then member access and
the atoms. At each level operators are left associative: the left operand is of the same
level, the right one of the next.

`Derives d q w e` says that the lexemes `w` derive the tree `e` at the level `q`, by a derivation no
path of which crosses more than `d` levels of operators, accesses, brackets and parentheses. Square
brackets hold an array of at least two items or a similarity, curly ones an object or a difference
that does not start like an object.
-/

namespace Sigil.Expr

/-! ## 1. Levels -/

/-- The level of equality and inequality. -/
abbrev loosest : Nat := 2

/-- The level of atoms. -/
abbrev atomLevel : Nat := 9

theorem loosest_le_binding (op : Operator) : loosest ≤ op.binding := by
  cases op <;> decide

theorem binding_lt_accessLevel (op : Operator) : op.binding < accessLevel := by
  cases op <;> decide

/-! ## 2. Words -/

/-- The lexemes of some tokens. -/
def lexemes (tokens : List Token) : List Lexeme := tokens.map Token.lexeme

@[simp] theorem lexemes_nil : lexemes [] = [] := rfl

@[simp] theorem lexemes_cons (t : Token) (ts : List Token) :
    lexemes (t :: ts) = t.lexeme :: lexemes ts := rfl

@[simp] theorem lexemes_append (ts us : List Token) :
    lexemes (ts ++ us) = lexemes ts ++ lexemes us :=
  List.map_append

theorem lexemes_ne_nil {tokens : List Token} {x : Lexeme} (h : x ∈ lexemes tokens) : tokens ≠ [] :=
  fun hnil => List.not_mem_nil (hnil ▸ h)

/-- The lexemes before the first end of the input. -/
def spelling (tokens : List Token) : List Lexeme := (lexemes tokens).takeWhile (· ≠ .finish)

/-- Words with a comma between each two. -/
def commaSeparated : List (List Lexeme) → List Lexeme
  | [] => []
  | [w] => w
  | w :: v :: ws => w ++ .symbol .comma :: commaSeparated (v :: ws)

/-- A key, a colon and a value. -/
def fieldWord (key : String) (w : List Lexeme) : List Lexeme := .string key :: .symbol .colon :: w

/-- Whether a word starts like a field: a string, then a colon. -/
def startsLikeField : List Lexeme → Bool
  | .string _ :: .symbol .colon :: _ => true
  | _ => false

/-- What follows a word behind a closing bracket does not make it start like a field. -/
theorem startsLikeField_append_closed (w : List Lexeme) {s : Symbol} (hs : s.closes = true)
    (rest : List Lexeme) : startsLikeField (w ++ .symbol s :: rest) = startsLikeField w := by
  cases w with
  | nil => rfl
  | cons x w =>
    cases w with
    -- a closing symbol at the second place is no colon, so it changes nothing
    | nil => cases x <;> cases s <;> first | rfl | cases hs
    | cons y w =>
      cases x with
      | string key =>
        cases y with
        | symbol t => cases t <;> rfl
        | _ => rfl
      | _ => rfl

/-! ## 3. Derivations -/

/-- The word derives the tree at the level, crossing at most `d` levels on each path. -/
inductive Derives : Nat → Nat → List Lexeme → Expr → Prop where
  | null {d : Nat} : Derives d atomLevel [.null] .null
  | bool {d : Nat} (value : Bool) : Derives d atomLevel [.bool value] (.bool value)
  | number {d : Nat} (value : Binary64) : Derives d atomLevel [.number value] (.number value)
  | string {d : Nat} (value : String) : Derives d atomLevel [.string value] (.string value)
  | reference {d : Nat} (name : String) :
    Derives d atomLevel [.symbol .dollar, .name name] (.reference name)
  | action {d : Nat} (name : String) :
    Derives d atomLevel [.symbol .bang, .name name] (.action name)
  | existence {d : Nat} : Derives d atomLevel [.symbol .question] .existence
  | group {d : Nat} {w : List Lexeme} {e : Expr} (inner : Derives d loosest w e) :
    Derives (d + 1) atomLevel (.symbol .openRound :: (w ++ [.symbol .closeRound])) e
  | emptyArray {d : Nat} :
    Derives d atomLevel [.symbol .openSquare, .symbol .closeSquare] (.array [])
  | similarity {d : Nat} {w : List Lexeme} {e : Expr} (inner : Derives d loosest w e) :
    Derives (d + 1) atomLevel (.symbol .openSquare :: (w ++ [.symbol .closeSquare])) (.similarity e)
  | array {d : Nat} (items : List (List Lexeme × Expr)) (two_le : 2 ≤ items.length)
    (each : ∀ item ∈ items, Derives d loosest item.1 item.2) :
    Derives (d + 1) atomLevel
      (.symbol .openSquare :: (commaSeparated (items.map Prod.fst) ++ [.symbol .closeSquare]))
      (.array (items.map Prod.snd))
  | emptyObject {d : Nat} :
    Derives d atomLevel [.symbol .openCurly, .symbol .closeCurly] (.object [])
  | object {d : Nat} (fields : List (String × List Lexeme × Expr)) (nonempty : fields ≠ [])
    (distinct : (fields.map Prod.fst).Nodup)
    (each : ∀ field ∈ fields, Derives d loosest field.2.1 field.2.2) :
    Derives (d + 1) atomLevel
      (.symbol .openCurly ::
        (commaSeparated (fields.map fun field => fieldWord field.1 field.2.1) ++
          [.symbol .closeCurly]))
      (.object (fields.map fun field => (field.1, field.2.2)))
  | difference {d : Nat} {w : List Lexeme} {e : Expr} (noField : startsLikeField w = false)
    (inner : Derives d loosest w e) :
    Derives (d + 1) atomLevel (.symbol .openCurly :: (w ++ [.symbol .closeCurly])) (.difference e)
  | member {d : Nat} {w : List Lexeme} {target : Expr} (field : String)
    (left : Derives d accessLevel w target) :
    Derives (d + 1) accessLevel (w ++ [.symbol .dot, .name field]) (.member target field)
  | binary {d : Nat} (op : Operator) {w v : List Lexeme} {l r : Expr}
    (left : Derives d op.binding w l) (right : Derives d (op.binding + 1) v r) :
    Derives (d + 1) op.binding (w ++ .symbol op.symbol :: v) (.binary op l r)
  /-- What stands at one level may stand at the level below. -/
  | lower {d q : Nat} {w : List Lexeme} {e : Expr} (upper : Derives d (q + 1) w e) : Derives d q w e

/-- The word derives the tree, whatever the levels. -/
def Spells (w : List Lexeme) (e : Expr) : Prop := ∃ d, Derives d loosest w e

/-- More levels may be crossed. -/
theorem Derives.mono {d d' q : Nat} {w : List Lexeme} {e : Expr} (h : Derives d q w e)
    (hd : d ≤ d') :
    Derives d' q w e := by
  -- on the derivation; where a bracket is opened both depths are positive
  induction h generalizing d' with
  | null => exact .null
  | bool value => exact .bool value
  | number value => exact .number value
  | string value => exact .string value
  | reference name => exact .reference name
  | action name => exact .action name
  | existence => exact .existence
  | emptyArray => exact .emptyArray
  | emptyObject => exact .emptyObject
  | lower _ ih => exact .lower (ih hd)
  | group _ ih =>
    obtain ⟨k, rfl⟩ := Nat.exists_eq_add_of_le' hd
    exact .group (ih (Nat.le_add_left _ k))
  | similarity _ ih =>
    obtain ⟨k, rfl⟩ := Nat.exists_eq_add_of_le' hd
    exact .similarity (ih (Nat.le_add_left _ k))
  | array items two_le _ ih =>
    obtain ⟨k, rfl⟩ := Nat.exists_eq_add_of_le' hd
    exact .array items two_le fun item hi => ih item hi (Nat.le_add_left _ k)
  | object fields nonempty distinct _ ih =>
    obtain ⟨k, rfl⟩ := Nat.exists_eq_add_of_le' hd
    exact .object fields nonempty distinct fun field hf => ih field hf (Nat.le_add_left _ k)
  | difference noField _ ih =>
    obtain ⟨k, rfl⟩ := Nat.exists_eq_add_of_le' hd
    exact .difference noField (ih (Nat.le_add_left _ k))
  | member field _ ih =>
    obtain ⟨k, rfl⟩ := Nat.exists_eq_add_of_le' hd
    exact .member field (ih (Nat.le_add_left _ k))
  | binary op _ _ ihl ihr =>
    obtain ⟨k, rfl⟩ := Nat.exists_eq_add_of_le' hd
    exact .binary op (ihl (Nat.le_add_left _ k)) (ihr (Nat.le_add_left _ k))

/-- What stands at a level may stand at any level below. -/
theorem Derives.lower_le {d q p : Nat} {w : List Lexeme} {e : Expr} (h : Derives d q w e)
    (hp : p ≤ q) : Derives d p w e := by
  induction hp with
  | refl => exact h
  | step _ ih => exact ih h.lower

/-- A tree is no higher than its derivation is deep. -/
theorem Derives.height_le {d q : Nat} {w : List Lexeme} {e : Expr} (h : Derives d q w e) :
    e.height ≤ d := by
  induction h with
  | null | bool | number | string | reference | action | existence => exact Nat.zero_le _
  | emptyArray | emptyObject => exact Nat.zero_le _
  | group _ ih => exact Nat.le_succ_of_le ih
  | lower _ ih => exact ih
  | similarity _ ih => exact Nat.succ_le_succ ih
  | difference _ _ ih => exact Nat.succ_le_succ ih
  | member _ _ ih => exact Nat.succ_le_succ ih
  | binary op _ _ ihl ihr => exact Nat.succ_le_succ (Nat.max_le.mpr ⟨ihl, ihr⟩)
  | array items _ _ ih =>
    refine height_le_iff.mpr fun c hc => ?_
    obtain ⟨item, hi, rfl⟩ := List.mem_map.mp hc
    exact Nat.succ_le_succ (ih item hi)
  | object fields _ _ _ ih =>
    refine height_le_iff.mpr fun c hc => ?_
    obtain ⟨_, hv, rfl⟩ := List.mem_map.mp hc
    obtain ⟨field, hf, rfl⟩ := List.mem_map.mp hv
    exact Nat.succ_le_succ (ih field hf)

/-- A derived tree holds no foreign value. -/
theorem Derives.foreign?_eq_none {d q : Nat} {w : List Lexeme} {e : Expr} (h : Derives d q w e) :
    e.foreign? = none := by
  induction h with
  | group _ ih => exact ih
  | lower _ ih => exact ih
  | similarity _ ih => exact ih
  | difference _ _ ih => exact ih
  | member _ _ ih => exact ih
  | binary op _ _ ihl ihr => exact Option.or_eq_none_iff.mpr ⟨ihl, ihr⟩
  | array items _ _ ih =>
    refine foreign?_of_children rfl fun c hc => ?_
    obtain ⟨item, hi, rfl⟩ := List.mem_map.mp hc
    exact ih item hi
  | object fields _ _ _ ih =>
    refine foreign?_of_children rfl fun c hc => ?_
    obtain ⟨_, hv, rfl⟩ := List.mem_map.mp hc
    obtain ⟨field, hf, rfl⟩ := List.mem_map.mp hv
    exact ih field hf
  | _ => rfl

/-! ## 4. The look of derived words -/

/-- The first lexeme of an expression: not a closing bracket. -/
theorem Derives.exists_cons {d q : Nat} {w : List Lexeme} {e : Expr} (h : Derives d q w e) :
    ∃ first rest, w = first :: rest ∧ ∀ s : Symbol, s.closes = true → first ≠ .symbol s := by
  induction h with
  | lower _ ih => exact ih
  | member field _ ih =>
    obtain ⟨first, rest, rfl, hf⟩ := ih
    exact ⟨first, _, rfl, hf⟩
  | binary op _ _ ih _ =>
    obtain ⟨first, rest, rfl, hf⟩ := ih
    exact ⟨first, _, rfl, hf⟩
  | _ =>
    refine ⟨_, _, rfl, fun s hs => ?_⟩
    rintro ⟨⟩
    try cases hs

theorem mem_commaSeparated {x : Lexeme} {ws : List (List Lexeme)} (h : x ∈ commaSeparated ws) :
    x = .symbol .comma ∨ ∃ w ∈ ws, x ∈ w := by
  induction ws with
  | nil => cases h
  | cons w ws ih =>
    cases ws with
    | nil => exact .inr ⟨w, List.mem_cons_self, h⟩
    | cons v ws =>
      rcases List.mem_append.mp h with hw | hrest
      · exact .inr ⟨w, List.mem_cons_self, hw⟩
      · rcases List.mem_cons.mp hrest with rfl | hrest
        · exact .inl rfl
        · exact (ih hrest).imp_right fun ⟨u, hu, hx⟩ => ⟨u, List.mem_cons_of_mem _ hu, hx⟩

/-- No expression holds the end of the input. -/
theorem Derives.finish_not_mem {d q : Nat} {w : List Lexeme} {e : Expr} (h : Derives d q w e) :
    .finish ∉ w := by
  induction h with
  | array items _ _ ih =>
    have hitems : .finish ∉ commaSeparated (items.map Prod.fst) := by
      intro hf
      obtain hc | ⟨w, hw, hx⟩ := mem_commaSeparated hf
      · cases hc
      · obtain ⟨item, hi, rfl⟩ := List.mem_map.mp hw
        exact ih item hi hx
    simp [hitems]
  | object fields _ _ _ ih =>
    have hfields :
        .finish ∉ commaSeparated (fields.map fun field => fieldWord field.1 field.2.1) := by
      intro hf
      obtain hc | ⟨w, hw, hx⟩ := mem_commaSeparated hf
      · cases hc
      · obtain ⟨field, hi, rfl⟩ := List.mem_map.mp hw
        simp only [fieldWord, List.mem_cons, reduceCtorEq, false_or] at hx
        exact ih field hi hx
    simp [hfields]
  | _ => simp_all

/-! ## 5. Commas -/

/-- `hasOwnComma`, on lexemes. -/
def commaIn (depth : Nat) : List Lexeme → Bool
  | [] => false
  | .finish :: _ => false
  | .symbol s :: rest =>
    if s.opens then commaIn (depth + 1) rest
    else if s.closes then match depth with
      | 0 => false
      | outer + 1 => commaIn outer rest
    else (s == .comma && depth == 0) || commaIn depth rest
  | _ :: rest => commaIn depth rest

theorem hasOwnComma_eq (depth : Nat) (tokens : List Token) :
    hasOwnComma depth tokens = commaIn depth (lexemes tokens) := by
  induction tokens generalizing depth with
  | nil => rfl
  | cons t tokens ih =>
    obtain ⟨x, pos⟩ := t
    cases x with
    | symbol s =>
      cases depth <;> simp only [hasOwnComma, lexemes_cons, commaIn, ih]
    | finish => rfl
    | _ => exact ih depth

/-- A word with no comma of its own, whose brackets match. -/
def Balanced (w : List Lexeme) : Prop :=
  ∀ depth rest, commaIn depth (w ++ rest) = commaIn depth rest

theorem Balanced.append {w v : List Lexeme} (hw : Balanced w) (hv : Balanced v) :
    Balanced (w ++ v) := by
  intro depth rest
  rw [List.append_assoc, hw, hv]

/-- Between brackets, commas are not one's own. -/
theorem commaIn_commaSeparated {ws : List (List Lexeme)} (h : ∀ w ∈ ws, Balanced w) (depth : Nat)
    (rest : List Lexeme) :
    commaIn (depth + 1) (commaSeparated ws ++ rest) = commaIn (depth + 1) rest := by
  induction ws with
  | nil => rfl
  | cons w ws ih =>
    have hw : Balanced w := h w List.mem_cons_self
    cases ws with
    | nil => exact hw _ rest
    | cons v ws =>
      rw [commaSeparated, List.append_assoc, hw, List.cons_append]
      simp only [commaIn, Symbol.opens, Symbol.closes]
      exact ih fun u hu => h u (List.mem_cons_of_mem _ hu)

/-- Two words with a comma between them have one of their own. -/
theorem commaIn_zero_commaSeparated {w v : List Lexeme} (ws : List (List Lexeme)) (hw : Balanced w)
    (rest : List Lexeme) : commaIn 0 (commaSeparated (w :: v :: ws) ++ rest) = true := by
  rw [commaSeparated, List.append_assoc, hw, List.cons_append]
  rfl

/-- What stands between two brackets is balanced if it is so inside of brackets. -/
theorem balanced_bracketed {w : List Lexeme} {s t : Symbol} (hs : s.opens = true)
    (ht : t.closes = true)
    (h : ∀ depth rest, commaIn (depth + 1) (w ++ rest) = commaIn (depth + 1) rest) :
    Balanced (.symbol s :: (w ++ [.symbol t])) := by
  intro depth rest
  have hto : t.opens = false := by cases t <;> first | rfl | cases ht
  rw [List.cons_append, List.append_assoc]
  simp only [commaIn, hs, if_true]
  rw [h]
  simp [commaIn, ht, hto]

/-- An expression is balanced. -/
theorem Derives.balanced {d q : Nat} {w : List Lexeme} {e : Expr} (h : Derives d q w e) :
    Balanced w := by
  induction h with
  | lower _ ih => exact ih
  | group _ ih => exact balanced_bracketed rfl rfl fun depth => ih (depth + 1)
  | similarity _ ih => exact balanced_bracketed rfl rfl fun depth => ih (depth + 1)
  | difference _ _ ih => exact balanced_bracketed rfl rfl fun depth => ih (depth + 1)
  | array items _ _ ih =>
    refine balanced_bracketed rfl rfl (commaIn_commaSeparated fun w hw => ?_)
    obtain ⟨item, hi, rfl⟩ := List.mem_map.mp hw
    exact ih item hi
  | object fields _ _ _ ih =>
    refine balanced_bracketed rfl rfl (commaIn_commaSeparated fun w hw => ?_)
    obtain ⟨field, hf, rfl⟩ := List.mem_map.mp hw
    exact fun depth rest => ih field hf depth rest
  | member field _ ih => exact ih.append fun depth rest => rfl
  | binary op _ _ ihl ihr =>
    have hop : Balanced [.symbol op.symbol] := fun depth rest => by cases op <;> rfl
    exact ihl.append (hop.append ihr)
  | _ => exact fun depth rest => rfl

end Sigil.Expr
