import Sigil.Expr.Tagged
import Sigil.Proofs.Expr.Shape
import Sigil.Proofs.Number.Text
import Sigil.Proofs.Rows
import Sigil.Proofs.Text.Quoted
import Sigil.Proofs.Text.Row

/-!
# The tagged text identifies the tree

Two trees with the same tagged text are equal in structure, and trees of equal structure have
the same tagged text. The tagged text is no expression that could be read back by the reader, so
it is compared with itself: a text begins with the tagged text of one tree at most, whatever
follows (`tagged_unique`).

The first character tells most nodes apart. Where two kinds of nodes open alike, their first child
is the same by induction, and what stands behind it tells which of the two it was.
-/

namespace Sigil.Expr

/-! ## 1. Trees that have a tagged text of their own -/

/-- What the notation can write at this node: names are names, numbers are finite, and the
    node is no foreign value. -/
def isRegular : Expr → Bool
  | .reference name => Text.isName name.toList
  | .action name => Text.isName name.toList
  | .member _ field => Text.isName field.toList
  | .number value => value.isFinite
  | .foreign _ => false
  | _ => true

/-- All nodes are of this kind. -/
abbrev Regular (e : Expr) : Prop := e.Every fun part => part.isRegular = true

/-! ## 2. The text as characters -/

theorem taggedItems_eq (items : List Expr) : taggedItems items = items.map tagged := by
  induction items with
  | nil => rfl
  | cons item items ih => rw [taggedItems, ih, List.map_cons]

/-- A field as it is written. -/
def taggedField (field : String × Expr) : String := Text.quoted field.1 ++ ": " ++ field.2.tagged

theorem taggedFields_eq (fields : List (String × Expr)) :
    taggedFields fields = fields.map taggedField := by
  induction fields with
  | nil => rfl
  | cons field fields ih =>
    obtain ⟨key, value⟩ := field
    rw [taggedFields, ih, List.map_cons, taggedField]

variable (rest : List Char)

theorem toList_taggedField (field : String × Expr) :
    (taggedField field).toList ++ rest =
      (Text.quoted field.1).toList ++ ':' :: ' ' :: (field.2.tagged.toList ++ rest) := by
  unfold taggedField
  simp only [String.toList_append, List.append_assoc]
  rfl

theorem tagged_reference (name : String) :
    (reference name).tagged.toList ++ rest =
      '$' :: (name.toList ++ ':' :: 'r' :: 'e' :: 'f' :: rest) := by
  show ("$" ++ name ++ ":ref").toList ++ rest = _
  simp only [String.toList_append, List.append_assoc]
  rfl

theorem tagged_action (name : String) :
    (action name).tagged.toList ++ rest =
      '!' :: (name.toList ++ ':' :: ("action".toList ++ rest)) := by
  show ("!" ++ name ++ ":action").toList ++ rest = _
  simp only [String.toList_append, List.append_assoc]
  rfl

theorem tagged_number (value : Binary64) :
    (number value).tagged.toList ++ rest =
      value.text.toList ++ ':' :: ("number".toList ++ rest) := by
  show (value.text ++ ":number").toList ++ rest = _
  simp only [String.toList_append, List.append_assoc]
  rfl

theorem tagged_string (value : String) :
    (string value).tagged.toList ++ rest =
      (Text.quoted value).toList ++ ':' :: 's' :: ("tring".toList ++ rest) := by
  show (Text.quoted value ++ ":string").toList ++ rest = _
  simp only [String.toList_append, List.append_assoc]
  rfl

theorem tagged_member (target : Expr) (field : String) :
    (member target field).tagged.toList ++ rest =
      '(' :: (target.tagged.toList ++
        ')' :: '.' :: (field.toList ++ ':' :: ("member".toList ++ rest))) := by
  show ("(" ++ target.tagged ++ ")." ++ field ++ ":member").toList ++ rest = _
  simp only [String.toList_append, List.append_assoc]
  rfl

theorem tagged_binary (op : Operator) (left right : Expr) :
    (binary op left right).tagged.toList ++ rest =
      '(' :: (left.tagged.toList ++ ' ' :: (op.symbol.spelling.toList ++
        ' ' :: (right.tagged.toList ++ (')' :: ':' :: op.tag.toList ++ rest)))) := by
  show ("(" ++ left.tagged ++ " " ++ op.symbol.spelling ++ " " ++ right.tagged ++ "):" ++
    op.tag).toList ++
    rest = _
  simp only [String.toList_append, List.append_assoc]
  rfl

theorem tagged_array (items : List Expr) :
    (array items).tagged.toList ++ rest =
      '[' :: (Text.row (items.map fun item => item.tagged.toList) ++
        ']' :: ':' :: 'a' :: ("rray".toList ++ rest)) := by
  show ("[" ++ ", ".intercalate (taggedItems items) ++ "]:array").toList ++ rest = _
  rw [taggedItems_eq]
  simp only [String.toList_append, String.toList_intercalate, List.append_assoc, List.map_map]
  rfl

theorem tagged_object (fields : List (String × Expr)) :
    (object fields).tagged.toList ++ rest =
      '\x7b' :: (Text.row (fields.map fun field => (taggedField field).toList) ++
        '\x7d' :: ':' :: 'o' :: ("bject".toList ++ rest)) := by
  show ("\x7b" ++ ", ".intercalate (taggedFields fields) ++ "\x7d:object").toList ++ rest = _
  rw [taggedFields_eq]
  simp only [String.toList_append, String.toList_intercalate, List.append_assoc, List.map_map]
  rfl

theorem tagged_similarity (inner : Expr) :
    (similarity inner).tagged.toList ++ rest =
      '[' :: (inner.tagged.toList ++ ']' :: ':' :: 's' :: ("imilarity".toList ++ rest)) := by
  show ("[" ++ inner.tagged ++ "]:similarity").toList ++ rest = _
  simp only [String.toList_append, List.append_assoc]
  rfl

theorem tagged_difference (inner : Expr) :
    (difference inner).tagged.toList ++ rest =
      '\x7b' :: (inner.tagged.toList ++ '\x7d' :: ':' :: 'd' :: ("ifference".toList ++ rest)) := by
  show ("\x7b" ++ inner.tagged ++ "\x7d:difference").toList ++ rest = _
  simp only [String.toList_append, List.append_assoc]
  rfl

/-! ## 3. The first character -/

/-- What the first character of a tagged text tells. -/
inductive Opening where
  | null | truth | number | quote | dollar | bang | question | round | square | curly | other
  deriving DecidableEq

/-- What a first character tells. -/
def Opening.ofChar (c : Char) : Opening :=
  if c == '-' || Text.isDigit c then .number
  else if c = 'n' then .null
  else if c = 't' ∨ c = 'f' then .truth
  else if c = '"' then .quote
  else if c = '$' then .dollar
  else if c = '!' then .bang
  else if c = '?' then .question
  else if c = '(' then .round
  else if c = '[' then .square
  else if c = '\x7b' then .curly
  else .other

/-- What the text of a node opens with. -/
def opening : Expr → Opening
  | .null => .null
  | .bool _ => .truth
  | .number _ => .number
  | .string _ => .quote
  | .reference _ => .dollar
  | .action _ => .bang
  | .existence => .question
  | .member _ _ | .binary _ _ _ => .round
  | .array _ | .similarity _ => .square
  | .object _ | .difference _ => .curly
  | .foreign _ => .other

theorem exists_first_char {e : Expr} (he : e.isRegular = true) :
    ∃ c cs, e.tagged.toList ++ rest = c :: cs ∧ Opening.ofChar c = e.opening := by
  -- the first character of each text is fixed, but for the sign and the digits of a number
  cases e with
  | null => exact ⟨_, _, rfl, rfl⟩
  | bool value => cases value <;> exact ⟨_, _, rfl, rfl⟩
  | number value =>
    obtain ⟨c, hc, hkind⟩ := Binary64.head?_text he
    obtain ⟨cs, hcs⟩ := List.head?_eq_some_iff.mp hc
    refine ⟨c, _, by rw [tagged_number, hcs]; rfl, if_pos ?_⟩
    rcases hkind with rfl | hdigit
    · rfl
    · rw [hdigit, Bool.or_true]
  | string value => exact ⟨_, _, by rw [tagged_string, Text.toList_quoted]; rfl, rfl⟩
  | reference name => exact ⟨_, _, tagged_reference _ _, rfl⟩
  | action name => exact ⟨_, _, tagged_action _ _, rfl⟩
  | existence => exact ⟨_, _, rfl, rfl⟩
  | member target field => exact ⟨_, _, tagged_member _ _ _, rfl⟩
  | binary op left right => exact ⟨_, _, tagged_binary _ _ _ _, rfl⟩
  | array items => exact ⟨_, _, tagged_array _ _, rfl⟩
  | object fields => exact ⟨_, _, tagged_object _ _, rfl⟩
  | similarity inner => exact ⟨_, _, tagged_similarity _ _, rfl⟩
  | difference inner => exact ⟨_, _, tagged_difference _ _, rfl⟩
  | foreign shown => cases he

/-- No tagged text begins with a closing bracket. -/
theorem tagged_ne_other {e : Expr} (he : e.isRegular = true) {c : Char}
    (hc : Opening.ofChar c = .other)
    (rest rest' : List Char) : e.tagged.toList ++ rest ≠ c :: rest' := by
  intro h
  obtain ⟨c', cs, hcs, hkind⟩ := exists_first_char rest he
  rw [h] at hcs
  rw [← (List.cons.inj hcs).1, hc] at hkind
  cases e <;> first | (cases hkind; done) | cases he

/-- Nodes whose texts open alike. -/
inductive OpenAlike : Expr → Expr → Prop where
  | null : OpenAlike .null .null
  | bool (a b : Bool) : OpenAlike (.bool a) (.bool b)
  | number (a b : Binary64) : OpenAlike (.number a) (.number b)
  | string (a b : String) : OpenAlike (.string a) (.string b)
  | reference (a b : String) : OpenAlike (.reference a) (.reference b)
  | action (a b : String) : OpenAlike (.action a) (.action b)
  | existence : OpenAlike .existence .existence
  | member_member (a b : Expr) (f g : String) : OpenAlike (.member a f) (.member b g)
  | member_binary (a : Expr) (f : String) (op : Operator) (l r : Expr) :
    OpenAlike (.member a f) (.binary op l r)
  | binary_member (op : Operator) (l r a : Expr) (f : String) :
    OpenAlike (.binary op l r) (.member a f)
  | binary_binary (op op' : Operator) (l r l' r' : Expr) :
    OpenAlike (.binary op l r) (.binary op' l' r')
  | array_array (as bs : List Expr) : OpenAlike (.array as) (.array bs)
  | array_similarity (as : List Expr) (b : Expr) : OpenAlike (.array as) (.similarity b)
  | similarity_array (a : Expr) (bs : List Expr) : OpenAlike (.similarity a) (.array bs)
  | similarity_similarity (a b : Expr) : OpenAlike (.similarity a) (.similarity b)
  | object_object (as bs : List (String × Expr)) : OpenAlike (.object as) (.object bs)
  | object_difference (as : List (String × Expr)) (b : Expr) :
    OpenAlike (.object as) (.difference b)
  | difference_object (a : Expr) (bs : List (String × Expr)) :
    OpenAlike (.difference a) (.object bs)
  | difference_difference (a b : Expr) : OpenAlike (.difference a) (.difference b)

theorem openAlike_of_eq {e e' : Expr} (he : e.isRegular = true) (h : e.opening = e'.opening) :
    OpenAlike e e' := by
  cases e <;> first | cases he | skip
  all_goals cases e' <;> first | constructor | cases h

/-- Equal texts open alike. -/
theorem openAlike_of_tagged {e e' : Expr} (he : e.isRegular = true) (he' : e'.isRegular = true)
    {rest rest' : List Char} (h : e.tagged.toList ++ rest = e'.tagged.toList ++ rest') :
    OpenAlike e e' := by
  obtain ⟨c, cs, hcs, hkind⟩ := exists_first_char rest he
  obtain ⟨c', cs', hcs', hkind'⟩ := exists_first_char rest' he'
  rw [hcs, hcs'] at h
  rw [← (List.cons.inj h).1] at hkind'
  exact openAlike_of_eq he (hkind.symm.trans hkind')

/-! ## 4. Unique reading -/

/-- A name ends at a colon. -/
theorem name_unique {name name' : String} (hname : Text.isName name.toList = true)
    (hname' : Text.isName name'.toList = true) {rest rest' : List Char}
    (h : name.toList ++ ':' :: rest = name'.toList ++ ':' :: rest') :
    name = name' ∧ rest = rest' := by
  -- a colon is no character of a name, so it marks where the name ends
  have hchars : ∀ cs : List Char, Text.isName cs = true → ∀ c ∈ cs, Text.isNameChar c = true := by
    intro cs hcs c hc
    cases cs with
    | nil => cases hc
    | cons d cs =>
      obtain ⟨hletter, hall⟩ := Bool.and_eq_true_iff.mp hcs
      rcases List.mem_cons.mp hc with rfl | hc
      · unfold Text.isNameChar
        rw [hletter]
        rfl
      · exact List.all_eq_true.mp hall c hc
  have hcolon : ∀ cs, Text.EndsAt Text.isNameChar (':' :: cs) := fun cs => Text.endsAt_cons.mpr rfl
  obtain ⟨hnames, hrest⟩ :=
    Text.segment_unique (hchars _ hname) (hcolon _) (hchars _ hname') (hcolon _) h
  exact ⟨String.toList_inj.mp hnames, (List.cons.inj hrest).2⟩

theorem spelling_injective {op op' : Operator} (h : op.symbol.spelling = op'.symbol.spelling) :
    op = op' := by
  have hchars := congrArg String.toList h
  cases op <;> cases op' <;> first | rfl | exact absurd hchars (by decide)

/-- An operator ends at a space. -/
theorem spelling_unique {op op' : Operator} {rest rest' : List Char}
    (h : op.symbol.spelling.toList ++ ' ' :: rest = op'.symbol.spelling.toList ++ ' ' :: rest') :
    op = op' ∧ rest = rest' := by
  have hall : ∀ o : Operator, o.symbol.spelling.toList.all (· != ' ') = true := by
    intro o
    cases o <;> decide
  have hchars := fun o : Operator => List.all_eq_true.mp (hall o)
  have hspace : ∀ cs, Text.EndsAt (· != ' ') (' ' :: cs) := fun cs => Text.endsAt_cons.mpr rfl
  obtain ⟨hspellings, hrest⟩ :=
    Text.segment_unique (hchars op) (hspace rest) (hchars op') (hspace rest') h
  exact ⟨spelling_injective (String.toList_inj.mp hspellings), (List.cons.inj hrest).2⟩

/-- Whatever follows, no other tree has a text that begins so. -/
def Tells (e : Expr) : Prop :=
  ∀ {e' rest rest'}, e'.Regular → e.tagged.toList ++ rest = e'.tagged.toList ++ rest' →
    e.same e' = true ∧ rest = rest'

/-- Where the texts of both trees stand before something, they stand before the same. -/
def EndAlike (e e' : Expr) : Prop :=
  ∀ {rest rest'}, e.tagged.toList ++ rest = e'.tagged.toList ++ rest' → rest = rest'

theorem EndAlike.symm {e e' : Expr} (h : e.EndAlike e') : e'.EndAlike e :=
  fun htexts => (h htexts.symm).symm

theorem Tells.endAlike {e e' : Expr} (h : e.Tells) (he' : e'.Regular) : e.EndAlike e' :=
  fun htexts => (h he' htexts).2

theorem sameItems_iff {as bs : List Expr} :
    sameItems as bs = true ↔ List.Forall₂ (fun a b => a.same b = true) as bs := by
  induction as generalizing bs with
  | nil => cases bs <;> simp [sameItems]
  | cons a as ih =>
    cases bs with
    | nil => simp [sameItems]
    | cons b bs => rw [sameItems, Bool.and_eq_true, ih, List.forall₂_cons]

theorem sameFields_iff {as bs : List (String × Expr)} :
    sameFields as bs = true ↔ List.Forall₂ (fun a b => a.1 = b.1 ∧ a.2.same b.2 = true) as bs := by
  induction as generalizing bs with
  | nil => cases bs <;> simp [sameFields]
  | cons a as ih =>
    cases bs with
    | nil => simp [sameFields]
    | cons b bs =>
      rw [sameFields, Bool.and_eq_true, Bool.and_eq_true, ih, List.forall₂_cons, beq_iff_eq]

/-- Rows of items that are told are equal item by item. -/
theorem row_items_unique {as bs : List Expr} (htells : ∀ a ∈ as, a.Tells)
    (has : ∀ a ∈ as, a.Regular) (hbs : ∀ b ∈ bs, b.Regular) {rest rest' : List Char}
    (h : Text.row (as.map fun a => a.tagged.toList) ++ ']' :: rest =
      Text.row (bs.map fun b => b.tagged.toList) ++ ']' :: rest') :
    sameItems as bs = true ∧ rest = rest' := by
  obtain ⟨hrows, hrest⟩ := Text.row_unique (R := fun a b => Expr.same a b = true) (by decide)
    (fun a ha b hb _ _ hab => htells a ha (hbs b hb) hab)
    (fun a ha => tagged_ne_other (has a ha).self rfl)
      (fun b hb => tagged_ne_other (hbs b hb).self rfl) h
  exact ⟨sameItems_iff.mpr hrows, hrest⟩

/-- Rows of fields whose values are told are equal field by field. -/
theorem row_fields_unique {as bs : List (String × Expr)} (htells : ∀ a ∈ as, a.2.Tells)
    (hbs : ∀ b ∈ bs, b.2.Regular) {rest rest' : List Char}
    (h : Text.row (as.map fun a => (taggedField a).toList) ++ '\x7d' :: rest =
      Text.row (bs.map fun b => (taggedField b).toList) ++ '\x7d' :: rest') :
    sameFields as bs = true ∧ rest = rest' := by
  have hstart : ∀ field : String × Expr, ∀ r r' : List Char,
      (taggedField field).toList ++ r ≠ '\x7d' :: r' := by
    intro field r r' hfield
    rw [toList_taggedField, Text.toList_quoted] at hfield
    exact absurd (List.cons.inj hfield).1 (by decide)
  -- key and value are told apart by the quotes around the key
  have hunique : ∀ a ∈ as, ∀ b ∈ bs, ∀ r r',
      (taggedField a).toList ++ r = (taggedField b).toList ++ r' →
      (a.1 = b.1 ∧ a.2.same b.2 = true) ∧ r = r' := by
    intro a ha b hb r r' hab
    rw [toList_taggedField, toList_taggedField] at hab
    obtain ⟨hkey, hvalues⟩ := Text.quoted_unique hab
    obtain ⟨hsame, hr⟩ := htells a ha (hbs b hb) (List.cons.inj (List.cons.inj hvalues).2).2
    exact ⟨⟨hkey, hsame⟩, hr⟩
  obtain ⟨hrows, hrest⟩ :=
    Text.row_unique (by decide) hunique (fun a _ => hstart a) (fun b _ => hstart b) h
  exact ⟨sameFields_iff.mpr hrows, hrest⟩

/-- An array and a similarity do not have the same text: behind what they hold stands their name. -/
theorem array_ne_similarity {as : List Expr} {b : Expr} (halike : ∀ a ∈ as, a.EndAlike b)
    (hb : b.Regular) {rest rest' : List Char} :
    (array as).tagged.toList ++ rest ≠ (similarity b).tagged.toList ++ rest' := by
  intro h
  rw [tagged_array, tagged_similarity] at h
  have hrow := (List.cons.inj h).2
  -- an empty array closes where the other has its first item, and a longer one goes on with a comma
  cases as with
  | nil => exact tagged_ne_other hb.self rfl _ _ hrow.symm
  | cons a as =>
    rw [List.map_cons, Text.row_cons, List.append_assoc] at hrow
    have hbehind := halike a List.mem_cons_self hrow
    cases as with
    | nil =>
      have hname := (List.cons.inj (List.cons.inj hbehind).2).2
      exact absurd (List.cons.inj hname).1 (by decide)
    | cons a' as => exact absurd (List.cons.inj hbehind).1 (by decide)

/-- An object and a difference do not have the same text: behind a key stands a space,
    behind a string its name. -/
theorem object_ne_difference {as : List (String × Expr)} {b : Expr} (hb : b.Regular)
    {rest rest' : List Char} :
    (object as).tagged.toList ++ rest ≠ (difference b).tagged.toList ++ rest' := by
  intro h
  rw [tagged_object, tagged_difference] at h
  have hrow := (List.cons.inj h).2
  cases as with
  | nil => exact tagged_ne_other hb.self rfl _ _ hrow.symm
  | cons a as =>
    rw [List.map_cons, Text.row_cons, List.append_assoc, toList_taggedField] at hrow
    -- the tree in the difference opens with a quote, so it is a string
    obtain ⟨c, cs, hcs, hkind⟩ :=
      exists_first_char ('\x7d' :: ':' :: 'd' :: ("ifference".toList ++ rest'))
      hb.self
    rw [← hrow, Text.toList_quoted] at hcs
    rw [← (List.cons.inj hcs).1] at hkind
    cases b with
    | string s =>
      rw [tagged_string] at hrow
      obtain ⟨_, hbehind⟩ := Text.quoted_unique hrow
      exact absurd (List.cons.inj (List.cons.inj hbehind).2).1 (by decide)
    | _ => cases hkind

/-- A member access and an operation do not have the same text: behind the target stands a bracket,
    behind the left operand a space. -/
theorem member_ne_binary {a l r : Expr} {field : String} {op : Operator} (halike : a.EndAlike l)
    {rest rest' : List Char} :
    (member a field).tagged.toList ++ rest ≠ (binary op l r).tagged.toList ++ rest' := by
  intro h
  rw [tagged_member, tagged_binary] at h
  have hbehind := halike (List.cons.inj h).2
  exact absurd (List.cons.inj hbehind).1 (by decide)

/-- **A text begins with the tagged text of one tree at most.** -/
theorem tells_of_regular {e : Expr} (he : e.Regular) : e.Tells := by
  -- on the tree: the parts below are told apart together with what follows them
  induction e using child_induction with
  | node e ih =>
    intro e' rest rest' he' h
    have told : ∀ c ∈ e.children, c.Tells := fun c hc => ih c hc (he.child hc)
    -- texts that begin alike leave the kinds in pairs, three of which are mixed
    cases openAlike_of_tagged he.self he'.self h with
    | null => exact ⟨rfl, List.append_cancel_left h⟩
    | bool a b =>
      cases a <;> cases b <;>
        first
        | exact ⟨rfl, List.append_cancel_left h⟩
        | exact absurd (List.cons.inj h).1 (by decide)
    | number a b =>
      rw [tagged_number, tagged_number] at h
      obtain ⟨hsame, hrest⟩ := Binary64.text_unique he.self he'.self h
      exact ⟨hsame, List.append_cancel_left hrest⟩
    | string a b =>
      rw [tagged_string, tagged_string] at h
      obtain ⟨rfl, hrest⟩ := Text.quoted_unique h
      exact ⟨beq_self_eq_true a, List.append_cancel_left (List.cons.inj (List.cons.inj hrest).2).2⟩
    | reference a b =>
      rw [tagged_reference, tagged_reference] at h
      obtain ⟨rfl, hrest⟩ := name_unique he.self he'.self (List.cons.inj h).2
      exact ⟨beq_self_eq_true a, (List.cons.inj (List.cons.inj (List.cons.inj hrest).2).2).2⟩
    | action a b =>
      rw [tagged_action, tagged_action] at h
      obtain ⟨rfl, hrest⟩ := name_unique he.self he'.self (List.cons.inj h).2
      exact ⟨beq_self_eq_true a, List.append_cancel_left hrest⟩
    | existence => exact ⟨rfl, List.append_cancel_left h⟩
    | member_member a b f g =>
      rw [tagged_member, tagged_member] at h
      obtain ⟨hsame, hbehind⟩ :=
        told a (List.mem_singleton_self _) (he'.child (List.mem_singleton_self _))
          (List.cons.inj h).2
      obtain ⟨rfl, hrest⟩ :=
        name_unique he.self he'.self (List.cons.inj (List.cons.inj hbehind).2).2
      refine ⟨?_, List.append_cancel_left hrest⟩
      rw [same, hsame, beq_self_eq_true, Bool.and_self]
    -- an access and an operator both start with the left part, and differ behind it
    | member_binary a f op l r =>
      have halike : a.EndAlike l :=
        Tells.endAlike (told a (List.mem_singleton_self _)) (he'.child List.mem_cons_self)
      exact absurd h (member_ne_binary halike)
    | binary_member op l r a f =>
      have halike : l.EndAlike a :=
        Tells.endAlike (told l List.mem_cons_self) (he'.child (List.mem_singleton_self _))
      exact absurd h.symm (member_ne_binary (EndAlike.symm halike))
    | binary_binary op op' l r l' r' =>
      rw [tagged_binary, tagged_binary] at h
      have hr : r ∈ (binary op l r).children := List.mem_cons_of_mem _ List.mem_cons_self
      have hr' : r' ∈ (binary op' l' r').children := List.mem_cons_of_mem _ List.mem_cons_self
      obtain ⟨hleft, hbehind⟩ :=
        told l List.mem_cons_self (he'.child List.mem_cons_self) (List.cons.inj h).2
      obtain ⟨rfl, hoperand⟩ := spelling_unique (List.cons.inj hbehind).2
      obtain ⟨hright, htag⟩ := told r hr (he'.child hr') hoperand
      refine ⟨?_, List.append_cancel_left htag⟩
      rw [same, hleft, hright, beq_self_eq_true, Bool.and_self, Bool.and_self]
    | array_array as bs =>
      rw [tagged_array, tagged_array] at h
      obtain ⟨hsame, hrest⟩ :=
        row_items_unique told (fun a ha => he.child ha) (fun b hb => he'.child hb)
          (List.cons.inj h).2
      exact ⟨hsame, List.append_cancel_left (List.cons.inj (List.cons.inj hrest).2).2⟩
    -- a single item could be a list of one, so what follows the item has to tell
    | array_similarity as b =>
      have hb : b.Regular := he'.child (List.mem_singleton_self _)
      exact absurd h (array_ne_similarity (fun a ha => Tells.endAlike (told a ha) hb) hb)
    | similarity_array a bs =>
      have htells : a.Tells := told a (List.mem_singleton_self _)
      have halike : ∀ b ∈ bs, b.EndAlike a := fun b hb =>
        EndAlike.symm (Tells.endAlike htells (he'.child hb))
      exact absurd h.symm (array_ne_similarity halike (he.child (List.mem_singleton_self _)))
    | similarity_similarity a b =>
      rw [tagged_similarity, tagged_similarity] at h
      obtain ⟨hsame, hbehind⟩ :=
        told a (List.mem_singleton_self _) (he'.child (List.mem_singleton_self _))
          (List.cons.inj h).2
      exact ⟨hsame, List.append_cancel_left
        (List.cons.inj (List.cons.inj (List.cons.inj hbehind).2).2).2⟩
    | object_object as bs =>
      rw [tagged_object, tagged_object] at h
      obtain ⟨hsame, hrest⟩ :=
        row_fields_unique (fun a ha => told a.2 (List.mem_map_of_mem ha))
          (fun b hb => he'.child (List.mem_map_of_mem hb)) (List.cons.inj h).2
      exact ⟨hsame, List.append_cancel_left (List.cons.inj (List.cons.inj hrest).2).2⟩
    | object_difference as b =>
      exact absurd h (object_ne_difference (he'.child (List.mem_singleton_self _)))
    | difference_object a bs =>
      exact absurd h.symm (object_ne_difference (he.child (List.mem_singleton_self _)))
    | difference_difference a b =>
      rw [tagged_difference, tagged_difference] at h
      obtain ⟨hsame, hbehind⟩ :=
        told a (List.mem_singleton_self _) (he'.child (List.mem_singleton_self _))
          (List.cons.inj h).2
      exact ⟨hsame, List.append_cancel_left
        (List.cons.inj (List.cons.inj (List.cons.inj hbehind).2).2).2⟩

/-! ## 5. Equal trees -/

/-- Trees of equal structure have the same text. -/
theorem tagged_eq_of_same {e e' : Expr} (h : e.same e' = true) : e.tagged = e'.tagged := by
  induction e using child_induction generalizing e' with
  | node e ih =>
    cases e with
    | null => cases e' <;> first | rfl | cases h
    | existence => cases e' <;> first | rfl | cases h
    | bool a =>
      cases e' with
      | bool b => rw [beq_iff_eq.mp h]
      | _ => cases h
    | string a =>
      cases e' with
      | string b => rw [beq_iff_eq.mp h]
      | _ => cases h
    | reference a =>
      cases e' with
      | reference b => rw [beq_iff_eq.mp h]
      | _ => cases h
    | action a =>
      cases e' with
      | action b => rw [beq_iff_eq.mp h]
      | _ => cases h
    | foreign a =>
      cases e' with
      | foreign b => rw [beq_iff_eq.mp h]
      | _ => cases h
    | number a =>
      cases e' with
      | number b => rw [tagged, tagged, Binary64.text_eq_of_same h]
      | _ => cases h
    | member a f =>
      cases e' with
      | member b g =>
        obtain ⟨hsame, hfield⟩ := Bool.and_eq_true_iff.mp h
        rw [tagged, tagged, ih a (List.mem_singleton_self _) hsame, beq_iff_eq.mp hfield]
      | _ => cases h
    | binary op l r =>
      cases e' with
      | binary op' l' r' =>
        obtain ⟨hpair, hright⟩ := Bool.and_eq_true_iff.mp h
        obtain ⟨hop, hleft⟩ := Bool.and_eq_true_iff.mp hpair
        rw [tagged, tagged, ih l List.mem_cons_self hleft,
          ih r (List.mem_cons_of_mem _ List.mem_cons_self) hright, beq_iff_eq.mp hop]
      | _ => cases h
    | array as =>
      cases e' with
      | array bs =>
        have hrows := (List.forall₂_and_left as bs).mpr ⟨fun _ ha => ha, sameItems_iff.mp h⟩
        have htexts : as.map tagged = bs.map tagged :=
          map_eq_map_of_forall₂ (hrows.imp fun _ _ hab => ih _ hab.1 hab.2)
        rw [tagged, tagged, taggedItems_eq, taggedItems_eq, htexts]
      | _ => cases h
    | object as =>
      cases e' with
      | object bs =>
        have hrows := (List.forall₂_and_left as bs).mpr ⟨fun _ ha => ha, sameFields_iff.mp h⟩
        have htexts : as.map taggedField = bs.map taggedField := by
          refine map_eq_map_of_forall₂ (hrows.imp fun a b hab => ?_)
          unfold taggedField
          rw [hab.2.1, ih a.2 (List.mem_map_of_mem hab.1) hab.2.2]
        rw [tagged, tagged, taggedFields_eq, taggedFields_eq, htexts]
      | _ => cases h
    | similarity a =>
      cases e' with
      | similarity b => rw [tagged, tagged, ih a (List.mem_singleton_self _) h]
      | _ => cases h
    | difference a =>
      cases e' with
      | difference b => rw [tagged, tagged, ih a (List.mem_singleton_self _) h]
      | _ => cases h

/-- **The tagged text identifies the tree**: two trees whose names are names and whose numbers
    are finite have the same tagged text if and only if they are equal in structure, the two
    zeros counting as equal. -/
theorem tagged_eq_iff_same {e e' : Expr} (he : e.Regular) (he' : e'.Regular) :
    e.tagged = e'.tagged ↔ e.same e' = true := by
  constructor
  · intro h
    have hchars : e.tagged.toList ++ [] = e'.tagged.toList ++ [] := by rw [h]
    exact (tells_of_regular he he' hchars).1
  · exact tagged_eq_of_same

/-- The two zeros have one text, and a string that imitates the text of a number has another. -/
theorem tagged_zeros :
    let zero : Expr := .array [.number .zero, .reference "a"]
    let negativeZero : Expr := .array [.number Binary64.zero.neg, .reference "a"]
    let imitation : Expr := .array [.string "0:number", .reference "a"]
    zero.Regular ∧ negativeZero.Regular ∧ imitation.Regular ∧ zero.tagged = negativeZero.tagged ∧
      zero.tagged ≠ imitation.tagged := by
  intro zero negativeZero imitation
  have hzero : zero.Regular := by
    show ∀ part ∈ zero.parts, part.isRegular = true
    decide
  have hnegative : negativeZero.Regular := by
    show ∀ part ∈ negativeZero.parts, part.isRegular = true
    decide
  have himitation : imitation.Regular := by
    show ∀ part ∈ imitation.parts, part.isRegular = true
    decide
  refine ⟨hzero, hnegative, himitation, (tagged_eq_iff_same hzero hnegative).mpr rfl, fun h => ?_⟩
  exact absurd ((tagged_eq_iff_same hzero himitation).mp h) Bool.false_ne_true

end Sigil.Expr
