import Sigil.Data
import Sigil.Proofs.Expr.Tagged

/-!
# The plain data of a tree determine the tree

Symbols and objects share one kind of data, the maps, and are told apart by the keys alone: the
key of a category has one exclamation mark in front, and the key of a field none or at least
two. So the outermost level of data tells the kind of the node (`Data.kind`), and below it the
same holds for the children.

Trees are compared here that say what they mean: numbers are numbers, and no two fields of an object
have the same key. All else is free, names and keys included.
-/

namespace Sigil

/-! ## 1. Keys -/

namespace Data

theorem toList_fieldKey (key : String) :
    (fieldKey key).toList =
      if key.toList.head? = some '!' then '!' :: key.toList else key.toList := by
  have hstart : key.startsWith "!" = true ↔ key.toList.head? = some '!' := by
    rw [String.startsWith_string_iff]
    cases key.toList with
    | nil => simp
    | cons c cs => simp [List.cons_prefix_cons, eq_comm]
  unfold fieldKey
  by_cases h : key.toList.head? = some '!'
  · rw [if_pos (hstart.mpr h), if_pos h, String.toList_append]
    rfl
  · rw [if_neg (mt hstart.mp h), if_neg h]

theorem fieldKey_injective {key key' : String} (h : fieldKey key = fieldKey key') : key = key' := by
  have hchars := congrArg String.toList h
  rw [toList_fieldKey, toList_fieldKey] at hchars
  apply String.toList_inj.mp
  -- with one mark more on one side only, what is left begins with a mark, against the test on it
  split at hchars <;> split at hchars
  · exact (List.cons.inj hchars).2
  · next hmark =>
    rw [← hchars] at hmark
    exact absurd rfl hmark
  · next hmark _ =>
    rw [hchars] at hmark
    exact absurd rfl hmark
  · exact hchars

/-- The category that a key names: what follows a single exclamation mark. -/
def keyCategory? (key : String) : Option String :=
  match key.toList with
  | '!' :: cs => if cs.head? = some '!' then none else some (String.ofList cs)
  | _ => none

/-- The key of a field names no category. -/
theorem keyCategory?_fieldKey (key : String) : keyCategory? (fieldKey key) = none := by
  unfold keyCategory?
  rw [toList_fieldKey]
  split
  · next hkey =>
    split at hkey
    · next hmark =>
      cases hkey
      rw [if_pos hmark]
    · next hmark =>
      rw [hkey] at hmark
      exact absurd rfl hmark
  · rfl

theorem keyCategory?_categoryKey {category : String} (h : category.toList.head? ≠ some '!') :
    keyCategory? (categoryKey category) = some category := by
  unfold keyCategory? categoryKey
  rw [String.toList_append]
  show (if category.toList.head? = some '!' then none else some (String.ofList category.toList)) = _
  rw [if_neg h, String.ofList_toList]

/-! ## 2. Kinds of nodes -/

/-- What the outermost level of data tells of a node. -/
inductive Kind where
  | null | truth | number | text | reference | action | existence | member | binary (op : Operator)
  | row | record | similarity | difference | other
  deriving DecidableEq

/-- The kind of symbol that a category names. -/
def Kind.ofCategory (category : String) : Kind :=
  match category with
  | "ref" => .reference
  | "action" => .action
  | "existence" => .existence
  | "member" => .member
  | "annotation" => .binary .ascription
  | "bind" => .binary .bind
  | "product" => .binary .product
  | "morphism" => .binary .morphism
  | "choice" => .binary .choice
  | "equality" => .binary .equality
  | "inequality" => .binary .inequality
  | "similarity" => .similarity
  | "difference" => .difference
  | _ => .other

/-- The kind of node that some data tell. -/
def kind : Data → Kind
  | .null => .null
  | .bool _ => .truth
  | .int _ => .number
  | .float _ => .number
  | .string _ => .text
  | .list _ => .row
  | .map [(key, _)] => match keyCategory? key with
    | some category => .ofCategory category
    | none => .record
  | .map _ => .record

theorem kind_tagged {category : String} (h : category.toList.head? ≠ some '!') (body : Data) :
    (tagged category body).kind = .ofCategory category := by
  unfold tagged kind
  simp only [keyCategory?_categoryKey h]

/-- Entries under the keys of fields are no symbol, not even a single one. -/
theorem kind_map_of_fieldKey {entries : List (String × Data)}
    (h : ∀ entry ∈ entries, ∃ key, entry.1 = fieldKey key) : (map entries).kind = .record := by
  rcases entries with _ | ⟨⟨key, body⟩, _ | ⟨_, _⟩⟩
  · rfl
  · obtain ⟨field, rfl⟩ := h _ List.mem_cons_self
    unfold kind
    simp only [keyCategory?_fieldKey]
  · rfl

theorem tagged_injective {category : String} {body body' : Data}
    (h : tagged category body = tagged category body') : body = body' := by
  unfold tagged at h
  cases h
  rfl

end Data

namespace Binary64

/-! ## 3. Numbers -/

theorem units_injective {r r' : Nat} (h : units r = units r') : r = r' := by
  have hr := nearestRank_units r Nat.one_pos
  rwa [h, nearestRank_units r' Nat.one_pos, eq_comm] at hr

/-- Two numbers that are the same whole number have the same value. -/
theorem same_of_toInt? {x y : Binary64} {n : Int} (hx : x.toInt? = some n)
    (hy : y.toInt? = some n) :
    x.same y = true := by
  obtain ⟨_, hxu, hxs⟩ := of_toInt?_eq_some hx
  obtain ⟨hyf, hyu, hys⟩ := of_toInt?_eq_some hy
  have hrank : x.rank.val = y.rank.val := units_injective (hxu.trans hyu.symm)
  refine same_of_rank hyf (Fin.ext hrank) fun hne => ?_
  have hn : n ≠ 0 := by
    rintro rfl
    have hzero : units y.rank.val = units 0 := by
      rw [hyu]
      rfl
    exact hne (units_injective hzero)
  rw [hxs hn, hys hn]

end Binary64

namespace Expr

/-! ## 4. Trees that say what they mean -/

/-- A number is a number, the keys of an object are pairwise different, and the node is no foreign
    value. -/
def isDefinite : Expr → Bool
  | .number value => !value.isNaN
  | .object fields => decide (fields.map Prod.fst).Nodup
  | .foreign _ => false
  | _ => true

/-- All nodes are of this kind. -/
abbrev Definite (e : Expr) : Prop := e.Every fun part => part.isDefinite = true

/-- The kind of a node. -/
def kind : Expr → Data.Kind
  | .null => .null
  | .bool _ => .truth
  | .number _ => .number
  | .string _ => .text
  | .reference _ => .reference
  | .action _ => .action
  | .existence => .existence
  | .member _ _ => .member
  | .binary op _ _ => .binary op
  | .array _ => .row
  | .object _ => .record
  | .similarity _ => .similarity
  | .difference _ => .difference
  | .foreign _ => .other

theorem itemsData_eq (items : List Expr) : itemsData items = items.map toData := by
  induction items with
  | nil => rfl
  | cons item items ih => rw [itemsData, ih, List.map_cons]

/-- A field as an entry. -/
def fieldData (field : String × Expr) : String × Data := (Data.fieldKey field.1, field.2.toData)

theorem fieldsData_eq (fields : List (String × Expr)) :
    fieldsData fields = fields.map fieldData := by
  induction fields with
  | nil => rfl
  | cons field fields ih =>
    obtain ⟨key, value⟩ := field
    rw [fieldsData, ih, List.map_cons, fieldData]

/-- An object with different keys is a map of its fields in order. -/
theorem toData_object {fields : List (String × Expr)} (h : (object fields).isDefinite = true) :
    (object fields).toData = .map (fields.map fieldData) := by
  have hkeys : (fields.map fieldData).map Prod.fst = (fields.map Prod.fst).map Data.fieldKey := by
    rw [List.map_map, List.map_map]
    rfl
  have hdistinct : ((fields.map fieldData).map Prod.fst).Nodup := by
    rw [hkeys]
    exact List.Pairwise.map _ (fun _ _ hne heq => hne (Data.fieldKey_injective heq))
      (of_decide_eq_true h)
  rw [toData, fieldsData_eq]
  exact congrArg Data.map (Entries.putAll_of_nodup hdistinct)

/-- The data of a node tell its kind. -/
theorem kind_toData {e : Expr} (h : e.isDefinite = true) : e.toData.kind = e.kind := by
  -- a number has two forms of data and an object one per key; elsewhere the tag is the kind
  cases e with
  | number value =>
    rw [toData]
    cases value.toInt? <;> rfl
  | object fields =>
    rw [toData_object h]
    refine Data.kind_map_of_fieldKey fun entry hentry => ?_
    obtain ⟨field, _, rfl⟩ := List.mem_map.mp hentry
    exact ⟨field.1, rfl⟩
  | binary op left right => cases op <;> exact Data.kind_tagged (by decide) _
  | reference name => exact Data.kind_tagged (by decide) _
  | action name => exact Data.kind_tagged (by decide) _
  | existence => exact Data.kind_tagged (by decide) _
  | member target field => exact Data.kind_tagged (by decide) _
  | similarity inner => exact Data.kind_tagged (by decide) _
  | difference inner => exact Data.kind_tagged (by decide) _
  | foreign shown => cases h
  | _ => rfl

/-! ## 5. The data determine the tree -/

/-- Nodes of the same kind. -/
inductive Alike : Expr → Expr → Prop where
  | null : Alike .null .null
  | bool (a b : Bool) : Alike (.bool a) (.bool b)
  | number (a b : Binary64) : Alike (.number a) (.number b)
  | string (a b : String) : Alike (.string a) (.string b)
  | reference (a b : String) : Alike (.reference a) (.reference b)
  | action (a b : String) : Alike (.action a) (.action b)
  | existence : Alike .existence .existence
  | member (a b : Expr) (f g : String) : Alike (.member a f) (.member b g)
  | binary (op : Operator) (l r l' r' : Expr) : Alike (.binary op l r) (.binary op l' r')
  | array (as bs : List Expr) : Alike (.array as) (.array bs)
  | object (as bs : List (String × Expr)) : Alike (.object as) (.object bs)
  | similarity (a b : Expr) : Alike (.similarity a) (.similarity b)
  | difference (a b : Expr) : Alike (.difference a) (.difference b)
  | foreign (a b : String) : Alike (.foreign a) (.foreign b)

theorem alike_of_kind {e e' : Expr} (h : e.kind = e'.kind) : Alike e e' := by
  cases e <;> cases e' <;> cases h <;> constructor

theorem kind_of_same {e e' : Expr} (h : e.same e' = true) : e.kind = e'.kind := by
  cases e <;> cases e' <;> first | rfl | cases h | skip
  case binary.binary op l r op' l' r' =>
    obtain ⟨hpair, _⟩ := Bool.and_eq_true_iff.mp h
    rw [kind, kind, beq_iff_eq.mp (Bool.and_eq_true_iff.mp hpair).1]

/-- Numbers with the same data have the same value. -/
theorem same_of_toData_number {x y : Binary64} (hx : x.isNaN = false)
    (h : (number x).toData = (number y).toData) : x.same y = true := by
  rw [toData, toData] at h
  -- an integer is written as such, any other number as it is, and the two never meet
  cases hxn : x.toInt? with
  | some n =>
    cases hyn : y.toInt? with
    | some m =>
      rw [hxn, hyn] at h
      cases h
      exact Binary64.same_of_toInt? hxn hyn
    | none =>
      rw [hxn, hyn] at h
      cases h
  | none =>
    cases hyn : y.toInt? with
    | some m =>
      rw [hxn, hyn] at h
      cases h
    | none =>
      rw [hxn, hyn] at h
      cases h
      exact Binary64.same_iff.mpr ⟨hx, hx, .inl rfl⟩

/-- Trees with the same data are equal in structure. -/
theorem same_of_toData {e e' : Expr} (he : e.Definite) (he' : e'.Definite)
    (h : e.toData = e'.toData) : e.same e' = true := by
  induction e using child_induction generalizing e' with
  | node e ih =>
    -- the data gives the kind away, so the two trees start with the same constructor
    have hkind : e.kind = e'.kind := by rw [← kind_toData he.self, h, kind_toData he'.self]
    have told : ∀ c ∈ e.children, ∀ c' ∈ e'.children, c.toData = c'.toData → c.same c' = true :=
      fun c hc c' hc' hdata => ih c hc (he.child hc) (he'.child hc') hdata
    cases alike_of_kind hkind with
    | null => rfl
    | existence => rfl
    | bool a b =>
      cases h
      exact beq_self_eq_true a
    | string a b =>
      cases h
      exact beq_self_eq_true a
    | reference a b =>
      cases Data.tagged_injective h
      exact beq_self_eq_true a
    | action a b =>
      cases Data.tagged_injective h
      exact beq_self_eq_true a
    | number a b => exact same_of_toData_number (Bool.not_eq_true' _ ▸ he.self) h
    | member a b f g =>
      have hbody := Data.tagged_injective h
      simp only [Data.map.injEq, List.cons.injEq, Prod.mk.injEq, Data.string.injEq, true_and,
        and_true] at hbody
      obtain ⟨htarget, rfl⟩ := hbody
      have hsame := told a (List.mem_singleton_self _) b (List.mem_singleton_self _) htarget
      rw [same, hsame, beq_self_eq_true, Bool.and_self]
    | binary op l r l' r' =>
      have hbody := Data.tagged_injective h
      simp only [Data.list.injEq, List.cons.injEq, and_true] at hbody
      have hleft := told l List.mem_cons_self l' List.mem_cons_self hbody.1
      have hright := told r (List.mem_cons_of_mem _ List.mem_cons_self) r'
        (List.mem_cons_of_mem _ List.mem_cons_self) hbody.2
      rw [same, hleft, hright, beq_self_eq_true, Bool.and_self, Bool.and_self]
    | array as bs =>
      rw [toData, toData, itemsData_eq, itemsData_eq, Data.list.injEq] at h
      rw [same, sameItems_iff]
      exact forall₂_imp_of_mem (forall₂_of_map_eq_map h) fun a ha b hb => told a ha b hb
    | object as bs =>
      rw [toData_object he.self, toData_object he'.self, Data.map.injEq] at h
      rw [same, sameFields_iff]
      refine forall₂_imp_of_mem (forall₂_of_map_eq_map h) fun a ha b hb hdata => ?_
      -- the keys of an object are told apart after they have been marked
      obtain ⟨hkey, hvalue⟩ := Prod.ext_iff.mp hdata
      exact ⟨Data.fieldKey_injective hkey,
        told a.2 (List.mem_map_of_mem ha) b.2 (List.mem_map_of_mem hb) hvalue⟩
    | similarity a b =>
      exact told a (List.mem_singleton_self _) b (List.mem_singleton_self _)
        (Data.tagged_injective h)
    | difference a b =>
      exact told a (List.mem_singleton_self _) b (List.mem_singleton_self _)
        (Data.tagged_injective h)
    | foreign a b => cases he.self

/-- Trees of equal structure have the same data. -/
theorem toData_eq_of_same {e e' : Expr} (h : e.same e' = true) : e.toData = e'.toData := by
  induction e using child_induction generalizing e' with
  | node e ih =>
    cases alike_of_kind (kind_of_same h) with
    | null => rfl
    | existence => rfl
    | bool a b => rw [beq_iff_eq.mp h]
    | string a b => rw [beq_iff_eq.mp h]
    | reference a b => rw [beq_iff_eq.mp h]
    | action a b => rw [beq_iff_eq.mp h]
    | foreign a b => rw [beq_iff_eq.mp h]
    | number a b =>
      -- zero and its negative are the same tree, and both are the integer nought
      obtain ⟨_, _, rfl | ⟨ha, hb⟩⟩ := Binary64.same_iff.mp h
      · rfl
      · rw [toData, toData, Binary64.toInt?_of_isZero ha, Binary64.toInt?_of_isZero hb]
    | member a b f g =>
      obtain ⟨htarget, hfield⟩ := Bool.and_eq_true_iff.mp h
      rw [toData, toData, ih a (List.mem_singleton_self _) htarget, beq_iff_eq.mp hfield]
    | binary op l r l' r' =>
      obtain ⟨hpair, hright⟩ := Bool.and_eq_true_iff.mp h
      rw [toData, toData, ih l List.mem_cons_self (Bool.and_eq_true_iff.mp hpair).2,
        ih r (List.mem_cons_of_mem _ List.mem_cons_self) hright]
    | array as bs =>
      have hrow : as.map toData = bs.map toData :=
        map_eq_map_of_forall₂ (forall₂_imp_of_mem (sameItems_iff.mp h) fun a ha _ _ => ih a ha)
      rw [toData, toData, itemsData_eq, itemsData_eq, hrow]
    | object as bs =>
      have hrow : as.map fieldData = bs.map fieldData := by
        refine map_eq_map_of_forall₂
          (forall₂_imp_of_mem (sameFields_iff.mp h) fun a ha b _ hab => ?_)
        rw [fieldData, fieldData, hab.1, ih a.2 (List.mem_map_of_mem ha) hab.2]
      rw [toData, toData, fieldsData_eq, fieldsData_eq, hrow]
    | similarity a b => rw [toData, toData, ih a (List.mem_singleton_self _) h]
    | difference a b => rw [toData, toData, ih a (List.mem_singleton_self _) h]

/-- **The plain data determine the tree**: two trees whose numbers are numbers and whose objects
    have different keys have the same data if and only if they are equal in structure, the two
    zeros counting as equal. -/
theorem toData_eq_iff_same {e e' : Expr} (he : e.Definite) (he' : e'.Definite) :
    e.toData = e'.toData ↔ e.same e' = true :=
  ⟨same_of_toData he he', toData_eq_of_same⟩

/-- The two zeros have the same data, and an object that imitates the data of a symbol
    has its own. -/
theorem toData_of_imitation :
    let zero : Expr := .array [.number .zero, .reference "a"]
    let negativeZero : Expr := .array [.number Binary64.zero.neg, .reference "a"]
    let imitation : Expr := .array [.number .zero, .object [("!ref", .string "a")]]
    zero.Definite ∧ negativeZero.Definite ∧ imitation.Definite ∧ zero.toData = negativeZero.toData ∧
      zero.toData ≠ imitation.toData := by
  intro zero negativeZero imitation
  have hzero : zero.Definite := by
    show ∀ part ∈ zero.parts, part.isDefinite = true
    decide
  have hnegative : negativeZero.Definite := by
    show ∀ part ∈ negativeZero.parts, part.isDefinite = true
    decide
  have himitation : imitation.Definite := by
    show ∀ part ∈ imitation.parts, part.isDefinite = true
    decide
  refine ⟨hzero, hnegative, himitation, (toData_eq_iff_same hzero hnegative).mpr rfl, fun h => ?_⟩
  exact absurd ((toData_eq_iff_same hzero himitation).mp h) Bool.false_ne_true

end Expr

end Sigil
