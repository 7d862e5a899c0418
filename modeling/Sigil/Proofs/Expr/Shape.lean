import Mathlib.Data.List.Forall2
import Sigil.Expr.Basic

/-!
# The shape of an expression

What is done to an expression is nearly always done at four kinds of nodes: a symbol, a member
access, a foreign value, and any other node, which is plain and passes everything on to its
children. The proofs follow these four kinds instead of the fourteen constructors.

* `children` and `rebuild` take a node apart and put it together again over other children;
* `shape_induction` is induction over the four kinds;
* `parts` lists a tree and everything in it, and `Every` says that a property holds of each part;
* `names` are the names that a tree mentions.
-/

namespace Sigil.Expr

/-! ## 1. Nodes and their children -/

/-- The immediate subexpressions, in reading order. -/
def children : Expr → List Expr
  | .member target _ => [target]
  | .binary _ left right => [left, right]
  | .array items => items
  | .object fields => fields.map Prod.snd
  | .similarity inner => [inner]
  | .difference inner => [inner]
  | _ => []

/-- The same node over other children, as many as it has. -/
def rebuild : Expr → List Expr → Expr
  | .member _ field, [target] => .member target field
  | .binary op _ _, [left, right] => .binary op left right
  | .array _, items => .array items
  | .object fields, values => .object ((fields.map Prod.fst).zip values)
  | .similarity _, [inner] => .similarity inner
  | .difference _, [inner] => .difference inner
  | e, _ => e

/-- The name that a symbol refers to. -/
def name? : Expr → Option String
  | .reference name => some name
  | .action name => some name
  | _ => none

/-- Neither a symbol nor a member access nor a foreign value. -/
def isPlain : Expr → Bool
  | .reference _ | .action _ | .member _ _ | .foreign _ => false
  | _ => true

/-- What a member access cannot pick from yet. -/
def isSymbolic : Expr → Bool
  | .reference _ | .action _ | .member _ _ => true
  | _ => false

theorem name?_of_isPlain {e : Expr} (h : e.isPlain = true) : e.name? = none := by
  cases e <;> first | rfl | cases h

theorem isSymbolic_of_isPlain {e : Expr} (h : e.isPlain = true) : e.isSymbolic = false := by
  cases e <;> first | rfl | cases h

theorem isSymbolic_of_name? {e : Expr} {name : String} (h : e.name? = some name) :
    e.isSymbolic = true := by
  cases e <;> first | rfl | cases h

theorem eq_symbol_of_name? {e : Expr} {name : String} (h : e.name? = some name) :
    e = .reference name ∨ e = .action name := by
  cases e <;> simp only [name?, Option.some.injEq, reduceCtorEq] at h
  · exact .inl (h ▸ rfl)
  · exact .inr (h ▸ rfl)

@[simp] theorem children_of_name? {e : Expr} {name : String} (h : e.name? = some name) :
    e.children = [] := by
  rcases eq_symbol_of_name? h with rfl | rfl <;> rfl

theorem sizeOf_lt_of_mem_children {e c : Expr} (h : c ∈ e.children) : sizeOf c < sizeOf e := by
  cases e <;> simp only [children, List.mem_cons, List.not_mem_nil, or_false] at h
  case member => subst h; simp; omega
  case binary =>
    rw [binary.sizeOf_spec]
    rcases h with rfl | rfl
    · omega
    · omega
  case array items =>
    have := List.sizeOf_lt_of_mem h
    simp
    omega
  case object fields =>
    obtain ⟨⟨key, value⟩, hf, rfl⟩ := List.mem_map.mp h
    have := List.sizeOf_lt_of_mem hf
    simp at this ⊢
    omega
  case similarity => subst h; simp
  case difference => subst h; simp

/-- Over as many children as it had, a plain node stays plain and has those children. -/
theorem children_rebuild {e : Expr} {cs : List Expr} (h : cs.length = e.children.length) :
    (e.rebuild cs).children = cs := by
  cases e <;> simp only [children, List.length_cons, List.length_nil, List.length_map,
    Nat.reduceAdd] at h
  case member => obtain ⟨c, rfl⟩ := List.length_eq_one_iff.mp h; rfl
  case binary => obtain ⟨c, d, rfl⟩ := List.length_eq_two.mp h; rfl
  case array => rfl
  case object fields =>
    simp only [rebuild, children]
    rw [List.map_snd_zip]
    simp [h]
  case similarity => obtain ⟨c, rfl⟩ := List.length_eq_one_iff.mp h; rfl
  case difference => obtain ⟨c, rfl⟩ := List.length_eq_one_iff.mp h; rfl
  all_goals rw [List.length_eq_zero_iff.mp h]; rfl

theorem isPlain_rebuild {e : Expr} (hp : e.isPlain = true) {cs : List Expr}
    (h : cs.length = e.children.length) : (e.rebuild cs).isPlain = true := by
  cases e <;> simp only [isPlain, Bool.false_eq_true] at hp
  case binary => obtain ⟨c, d, rfl⟩ := List.length_eq_two.mp h; rfl
  case similarity => obtain ⟨c, rfl⟩ := List.length_eq_one_iff.mp h; rfl
  case difference => obtain ⟨c, rfl⟩ := List.length_eq_one_iff.mp h; rfl
  all_goals rfl

/-- Only the last children count. -/
theorem rebuild_rebuild {e : Expr} {cs ds : List Expr} (hc : cs.length = e.children.length)
    (hd : ds.length = e.children.length) : (e.rebuild cs).rebuild ds = e.rebuild ds := by
  cases e
  case member =>
    obtain ⟨c, rfl⟩ := List.length_eq_one_iff.mp hc
    obtain ⟨d, rfl⟩ := List.length_eq_one_iff.mp hd
    rfl
  case binary =>
    obtain ⟨c, c', rfl⟩ := List.length_eq_two.mp hc
    obtain ⟨d, d', rfl⟩ := List.length_eq_two.mp hd
    rfl
  case object fields =>
    have hkeys : (fields.map Prod.fst).length ≤ cs.length := by
      rw [hc]
      simp [children]
    simp only [rebuild]
    rw [List.map_fst_zip hkeys]
  case similarity =>
    obtain ⟨c, rfl⟩ := List.length_eq_one_iff.mp hc
    obtain ⟨d, rfl⟩ := List.length_eq_one_iff.mp hd
    rfl
  case difference =>
    obtain ⟨c, rfl⟩ := List.length_eq_one_iff.mp hc
    obtain ⟨d, rfl⟩ := List.length_eq_one_iff.mp hd
    rfl
  all_goals rfl

/-- Only an object is rebuilt as an object. -/
theorem object_of_rebuild {e : Expr} {cs : List Expr} {fields : List (String × Expr)}
    (h : e.rebuild cs = .object fields) : ∃ before, e = .object before := by
  cases e with
  | object before => exact ⟨before, rfl⟩
  | _ => rcases cs with _ | ⟨c, _ | ⟨d, _ | ⟨_, _⟩⟩⟩ <;> cases h

/-- Over its own children a node is itself. -/
theorem rebuild_children (e : Expr) : e.rebuild e.children = e := by
  cases e <;> try rfl
  case object fields =>
    simp only [rebuild, children]
    rw [List.zip_map', List.map_id']

/-! ## 2. Induction -/

/-- Induction over the children. -/
theorem child_induction {motive : Expr → Prop}
    (node : ∀ e, (∀ c ∈ e.children, motive c) → motive e) (e : Expr) : motive e := by
  induction hn : sizeOf e using Nat.strongRecOn generalizing e with
  | ind n ih => exact node e fun c hc => ih _ (hn ▸ sizeOf_lt_of_mem_children hc) c rfl

/-- Induction over the four kinds of nodes. -/
theorem shape_induction {motive : Expr → Prop}
    (symbol : ∀ e name, e.name? = some name → motive e)
    (member : ∀ target field, motive target → motive (.member target field))
    (foreign : ∀ shown, motive (.foreign shown))
    (plain : ∀ e, e.isPlain = true → (∀ c ∈ e.children, motive c) → motive e) (e : Expr) :
    motive e := by
  induction e using child_induction with
  | node e ih =>
    cases e with
    | reference name => exact symbol _ name rfl
    | action name => exact symbol _ name rfl
    | member target field => exact member target field (ih target (List.mem_singleton_self _))
    | foreign shown => exact foreign shown
    | _ => exact plain _ rfl ih

/-! ## 3. Parts -/

mutual

/-- The expression and everything in it, in reading order. -/
def parts : Expr → List Expr
  | .member target field => .member target field :: target.parts
  | .binary op left right => .binary op left right :: (left.parts ++ right.parts)
  | .array items => .array items :: partsOfItems items
  | .object fields => .object fields :: partsOfFields fields
  | .similarity inner => .similarity inner :: inner.parts
  | .difference inner => .difference inner :: inner.parts
  | e => [e]

/-- The parts of the items. -/
def partsOfItems : List Expr → List Expr
  | [] => []
  | item :: items => item.parts ++ partsOfItems items

/-- The parts of the values. -/
def partsOfFields : List (String × Expr) → List Expr
  | [] => []
  | (_, value) :: fields => value.parts ++ partsOfFields fields

end

theorem partsOfItems_eq (items : List Expr) : partsOfItems items = items.flatMap parts := by
  induction items with
  | nil => rfl
  | cons item items ih => rw [partsOfItems, ih, List.flatMap_cons]

theorem partsOfFields_eq (fields : List (String × Expr)) :
    partsOfFields fields = (fields.map Prod.snd).flatMap parts := by
  induction fields with
  | nil => rfl
  | cons field fields ih => rw [partsOfFields, ih, List.map_cons, List.flatMap_cons]

/-- The parts are the expression itself and the parts of its children. -/
theorem parts_eq (e : Expr) : e.parts = e :: e.children.flatMap parts := by
  cases e <;> simp [parts, children, partsOfItems_eq, partsOfFields_eq]

theorem mem_parts_of_child {e c part : Expr} (hc : c ∈ e.children) (h : part ∈ c.parts) :
    part ∈ e.parts := by
  rw [parts_eq]
  exact List.mem_cons_of_mem _ (List.mem_flatMap.mpr ⟨c, hc, h⟩)

theorem mem_parts_trans {e part inner : Expr} (hp : part ∈ e.parts) (h : inner ∈ part.parts) :
    inner ∈ e.parts := by
  induction e using child_induction with
  | node e ih =>
    rw [parts_eq] at hp
    rcases List.mem_cons.mp hp with rfl | hp
    · exact h
    · obtain ⟨c, hc, hp⟩ := List.mem_flatMap.mp hp
      exact mem_parts_of_child hc (ih c hc hp)

/-- A property of every part. -/
def Every (P : Expr → Prop) (e : Expr) : Prop := ∀ part ∈ e.parts, P part

theorem every_iff {P : Expr → Prop} {e : Expr} :
    e.Every P ↔ P e ∧ ∀ c ∈ e.children, c.Every P := by
  unfold Every
  rw [parts_eq]
  simp only [List.mem_cons, forall_eq_or_imp, List.mem_flatMap]
  exact and_congr_right fun _ =>
    ⟨fun h c hc part hp => h part ⟨c, hc, hp⟩, fun h part ⟨c, hc, hp⟩ => h c hc part hp⟩

theorem Every.self {P : Expr → Prop} {e : Expr} (h : e.Every P) : P e := (every_iff.mp h).1

theorem Every.child {P : Expr → Prop} {e c : Expr} (h : e.Every P) (hc : c ∈ e.children) :
    c.Every P := (every_iff.mp h).2 c hc

theorem Every.of_mem_parts {P : Expr → Prop} {e part : Expr} (h : e.Every P)
    (hpart : part ∈ e.parts) :
    part.Every P := fun inner hinner => h inner (mem_parts_trans hpart hinner)

/-! ## 4. Names -/

/-- The names that the symbols of an expression refer to. -/
def names (e : Expr) : List String := e.parts.filterMap name?

theorem mem_names_iff {e : Expr} {name : String} :
    name ∈ e.names ↔ ∃ part ∈ e.parts, part.name? = some name := List.mem_filterMap

theorem names_of_name? {e : Expr} {name : String} (h : e.name? = some name) : e.names = [name] := by
  rcases eq_symbol_of_name? h with rfl | rfl <;> rfl

/-- A node that is no symbol mentions what its children mention. -/
theorem names_eq_flatMap {e : Expr} (h : e.name? = none) :
    e.names = e.children.flatMap names := by
  unfold names
  rw [parts_eq, List.filterMap_cons_none h, List.filterMap_flatMap]

theorem mem_names_of_mem_parts {e part : Expr} {name : String} (hp : part ∈ e.parts)
    (h : name ∈ part.names) : name ∈ e.names := by
  obtain ⟨symbol, hs, hn⟩ := mem_names_iff.mp h
  exact mem_names_iff.mpr ⟨symbol, mem_parts_trans hp hs, hn⟩

/-! ## 5. Heights -/

theorem heightOfItems_le_iff {items : List Expr} {n : Nat} :
    heightOfItems items ≤ n ↔ ∀ item ∈ items, item.height ≤ n := by
  induction items with
  | nil => simp [heightOfItems]
  | cons item items ih =>
    rw [heightOfItems, Nat.max_le, ih, List.forall_mem_cons]

theorem heightOfFields_le_iff {fields : List (String × Expr)} {n : Nat} :
    heightOfFields fields ≤ n ↔ ∀ value ∈ fields.map Prod.snd, value.height ≤ n := by
  induction fields with
  | nil => simp [heightOfFields]
  | cons field fields ih =>
    rw [heightOfFields, Nat.max_le, ih, List.map_cons, List.forall_mem_cons]

/-- A node is one level higher than each of its children, and no higher than that asks for. -/
theorem height_le_iff {e : Expr} {n : Nat} :
    e.height ≤ n ↔ ∀ c ∈ e.children, c.height + 1 ≤ n := by
  cases n with
  | zero =>
    have leaf : (∀ c ∈ e.children, c.height + 1 ≤ 0) ↔ e.children = [] := by
      simp [List.eq_nil_iff_forall_not_mem]
    -- of height zero are the leaves, and an array or object only if it is empty
    rw [leaf]
    cases e with
    | array items => cases items <;> simp [height, children]
    | object fields => cases fields <;> simp [height, children]
    | _ => simp [height, children]
  | succ n =>
    simp only [Nat.add_le_add_iff_right]
    cases e with
    | array items =>
      rw [children, ← heightOfItems_le_iff]
      cases items <;> simp [height, heightOfItems]
    | object fields =>
      rw [children, ← heightOfFields_le_iff]
      cases fields <;> simp [height, heightOfFields]
    | binary op left right =>
      simp only [height, Nat.add_le_add_iff_right, Nat.max_le, children, List.mem_cons,
        List.not_mem_nil, or_false, forall_eq_or_imp, forall_eq]
    | _ => simp [height, children]

theorem height_lt_of_child {e c : Expr} (h : c ∈ e.children) : c.height < e.height :=
  height_le_iff.mp (Nat.le_refl _) c h

/-! ## 6. Foreign values -/

theorem foreignItem?_eq_none_iff {items : List Expr} :
    foreignItem? items = none ↔ ∀ item ∈ items, item.foreign? = none := by
  induction items with
  | nil => simp [foreignItem?]
  | cons item items ih =>
    rw [foreignItem?, Option.or_eq_none_iff, ih, List.forall_mem_cons]

theorem foreignValue?_eq_none_iff {fields : List (String × Expr)} :
    foreignValue? fields = none ↔ ∀ value ∈ fields.map Prod.snd, value.foreign? = none := by
  induction fields with
  | nil => simp [foreignValue?]
  | cons field fields ih =>
    rw [foreignValue?, Option.or_eq_none_iff, ih, List.map_cons, List.forall_mem_cons]

/-- A tree holds no foreign value if it is none and its children hold none. -/
theorem foreign?_eq_none_iff {e : Expr} :
    e.foreign? = none ↔ (∀ shown, e ≠ .foreign shown) ∧ ∀ c ∈ e.children, c.foreign? = none := by
  cases e with
  | array items => simp [foreign?, children, foreignItem?_eq_none_iff]
  | object fields => simp [foreign?, children, foreignValue?_eq_none_iff]
  | _ => simp [foreign?, children]

theorem foreign?_of_child {e c : Expr} (h : e.foreign? = none) (hc : c ∈ e.children) :
    c.foreign? = none := (foreign?_eq_none_iff.mp h).2 c hc

theorem foreign?_of_children {e : Expr} (he : e.isPlain = true)
    (h : ∀ c ∈ e.children, c.foreign? = none) : e.foreign? = none := by
  refine foreign?_eq_none_iff.mpr ⟨fun shown heq => ?_, h⟩
  rw [heq] at he
  cases he

/-! ## 7. What is still symbolic -/

theorem itemsSettled_iff {items : List Expr} :
    itemsSettled items = true ↔ ∀ item ∈ items, item.isSettled = true := by
  induction items with
  | nil => simp [itemsSettled]
  | cons item items ih => rw [itemsSettled, Bool.and_eq_true, ih, List.forall_mem_cons]

theorem fieldsSettled_iff {fields : List (String × Expr)} :
    fieldsSettled fields = true ↔ ∀ value ∈ fields.map Prod.snd, value.isSettled = true := by
  induction fields with
  | nil => simp [fieldsSettled]
  | cons field fields ih =>
    rw [fieldsSettled, Bool.and_eq_true, ih, List.map_cons, List.forall_mem_cons]

theorem isSettled_node_iff {e : Expr} :
    e.isSettled = true ↔ e.isSymbolic = false ∧ ∀ c ∈ e.children, c.isSettled = true := by
  cases e with
  | array items => simp [isSettled, isSymbolic, children, itemsSettled_iff]
  | object fields => simp [isSettled, isSymbolic, children, fieldsSettled_iff]
  | _ => simp [isSettled, isSymbolic, children]

/-- A tree is settled if no part of it is symbolic. -/
theorem isSettled_iff {e : Expr} : e.isSettled = true ↔
    e.Every fun part => part.isSymbolic = false := by
  induction e using child_induction with
  | node e ih =>
    rw [isSettled_node_iff, every_iff]
    exact and_congr_right fun _ => forall₂_congr ih

end Sigil.Expr
