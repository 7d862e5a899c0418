import Sigil.Proofs.Expr.Image
import Sigil.Proofs.Resolve.Flat
import Sigil.Proofs.Resolve.Report
import Sigil.Proofs.Resolve.Trace

/-!
# The form of a result

Resolution puts a result together from nodes of the expression and of the definitions, each over
other children than it had, but as many. So what a node keeps over other children (`OfNode`) holds
of all parts of a result if it holds of all parts of the expression and of the definitions
(`every_flat`, `every_walk`). That a tree is well shaped is of this kind.

Besides, the result of a walk is normal, whatever was walked: an access is left on a walked target
only, and that is a symbol or an access that is left itself (`normal_of_walk`). So where there is
something left to expand in it, there is a symbol (`Normal.isSettled_iff`).
-/

namespace Sigil

/-- The property holds of all parts of all definitions. -/
def Definitions.Every (P : Expr → Prop) (definitions : Definitions) : Prop :=
  ∀ {name d}, definitions.expansion name = .ok (some d) → d.Every P

namespace Expr

variable {definitions : Definitions} {budget : Budget} {exhaustion : Exhaustion} {P : Expr → Prop}

/-! ## 1. What a node keeps -/

/-- A node keeps the property over other children, as many as it has. -/
def OfNode (P : Expr → Prop) : Prop :=
  ∀ {e : Expr} {cs : List Expr}, cs.length = e.children.length → P e → P (e.rebuild cs)

theorem OfNode.every_rebuild (hP : OfNode P) {e : Expr} {cs : List Expr}
    (hlength : cs.length = e.children.length) (he : P e) (hcs : ∀ c ∈ cs, c.Every P) :
    (e.rebuild cs).Every P := by
  refine every_iff.mpr ⟨hP hlength he, ?_⟩
  rw [children_rebuild hlength]
  exact hcs

theorem OfNode.every_member (hP : OfNode P) {target t : Expr} {field : String}
    (he : P (.member target field)) (ht : t.Every P) : (member t field).Every P := by
  have hlength : [t].length = (member target field).children.length := rfl
  exact hP.every_rebuild hlength he (List.forall_mem_singleton.mpr ht)

/-- **Flat resolution keeps what a node keeps.** -/
theorem every_flat (hP : OfNode P) (hdefinitions : definitions.Every P) {e r : Expr}
    (he : e.Every P) (h : e.flat definitions = .ok r) : r.Every P := by
  induction e using shape_induction generalizing r with
  | symbol e name hname =>
    rw [flat_symbol hname] at h
    -- what replaces a symbol is a definition, and that has the form by assumption
    obtain ⟨expanded, hexpanded, hr⟩ := bind_eq_ok_iff.mp h
    cases hr
    cases expanded with
    | none => exact he
    | some d => exact hdefinitions hexpanded
  | member target field ih =>
    rw [flat_member] at h
    obtain ⟨t, ht, hselect⟩ := bind_eq_ok_iff.mp h
    obtain ⟨picked, hpick, hr⟩ := bind_eq_ok_iff.mp hselect
    cases hr
    have htarget : t.Every P := ih (he.child (List.mem_singleton_self target)) ht
    cases picked with
    | none => exact hP.every_member he.self htarget
    | some picked => exact htarget.child (mem_children_of_select hpick)
  | foreign shown => cases h
  | plain e hplain ih =>
    obtain ⟨cs, hcs, rfl⟩ := (flat_plain_eq_ok_iff hplain).mp h
    refine hP.every_rebuild hcs.length_eq.symm he.self fun d hd => ?_
    obtain ⟨c, hc, hflat⟩ := forall_mem_of_forall₂ hcs d hd
    exact ih c hc (he.child hc) hflat

/-- **A walk keeps what a node keeps.** -/
theorem every_walk (hP : OfNode P) (hdefinitions : definitions.Every P) {n : Nat} {p : Place}
    {e r : Expr} (he : e.Every P)
    (h : (walk definitions budget exhaustion n p e).outcome = .value r) :
    r.Every P := by
  -- on the walk: the form is kept by each of its five steps
  refine walk_induction (motive := fun _ e r => e.Every P → r.Every P)
    ?stays ?expanded ?left ?picked ?plain
    h he
  case stays => exact fun _ he => he
  case expanded => exact fun _ expansion _ ih _ => ih (hdefinitions expansion)
  case left =>
    intro p target field t _ ih he
    exact hP.every_member he.self (ih (he.child (List.mem_singleton_self target)))
  case picked =>
    intro p target field t picked r hpick htarget ih he
    have ht : t.Every P := htarget (he.child (List.mem_singleton_self target))
    exact ih (ht.child (mem_children_of_select hpick))
  case plain =>
    intro p e cs _ hcs he
    refine hP.every_rebuild hcs.length_eq.symm he.self fun d hd => ?_
    obtain ⟨c, hc, ih⟩ := forall_mem_of_forall₂ hcs d hd
    exact ih (he.child hc)

/-- Resolution keeps what a node keeps, in either mode. -/
theorem every_resolve (hP : OfNode P) {n : Nat} {registry : Registry}
    {settings : Settings} {e r : Expr}
    (hdefinitions : registry.definitions.Every P) (he : e.Every P)
    (value : (e.resolve n registry settings).outcome = .value r) : r.Every P := by
  cases hmode : settings.mode with
  | flat =>
    rw [resolve, hmode] at value
    dsimp only [resolveFlat] at value
    cases hflat : e.flat registry.definitions with
    | error fault =>
      rw [hflat] at value
      cases value
    | ok found =>
      rw [hflat] at value
      cases value
      exact every_flat hP hdefinitions he hflat
  | deep => exact every_walk hP hdefinitions he ((resolve_outcome_eq_value_iff hmode).mp value).1

/-! ## 2. Well-shaped trees -/

/-- What a tree is like at this node, also where no text spells it: names are names,
    numbers are finite, no array has a single item, the keys of an object differ, and
    there is no foreign value. -/
def isWellShaped : Expr → Bool
  | .number value => value.isFinite
  | .reference name => Text.isName name.toList
  | .action name => Text.isName name.toList
  | .member _ field => Text.isName field.toList
  | .array items => items.length != 1
  | .object fields => decide (fields.map Prod.fst).Nodup
  | .foreign _ => false
  | _ => true

/-- Every node is like that. -/
abbrev WellShaped (e : Expr) : Prop := e.Every fun part => part.isWellShaped = true

theorem isWellShaped_ofNode : OfNode fun e => e.isWellShaped = true := by
  intro e cs hlength he
  cases e with
  | array items =>
    show (cs.length != 1) = true
    rw [hlength]
    exact he
  | object fields =>
    have hkeys : (fields.map Prod.fst).length ≤ cs.length := by
      rw [hlength]
      simp [children]
    show decide (((fields.map Prod.fst).zip cs).map Prod.fst).Nodup = true
    rw [List.map_fst_zip hkeys]
    exact he
  | _ => rcases cs with _ | ⟨c, _ | ⟨d, _ | ⟨_, _⟩⟩⟩ <;> exact he

theorem isWellShaped_of_isSpellable {e : Expr} (h : e.isSpellable = true) :
    e.isWellShaped = true := by
  cases e with
  | reference name => exact (Bool.and_eq_true_iff.mp h).1
  | action name => exact (Bool.and_eq_true_iff.mp h).1
  | member target field => exact (Bool.and_eq_true_iff.mp h).1
  | _ => exact h

/-- What a text spells is well shaped. -/
theorem wellShaped_of_ofText {text : String} {e : Expr} (h : ofText text = .ok e) : e.WellShaped :=
  fun part hpart => isWellShaped_of_isSpellable (wellFormed_of_ofText h part hpart)

theorem definitions_wellShaped (registry : Registry) :
    registry.definitions.Every fun part => part.isWellShaped = true := by
  intro name d h
  obtain ⟨text, _, hread⟩ := Registry.expansion_eq_some_iff.mp h
  exact wellShaped_of_ofText hread

/-! ## 3. Normal trees -/

/-- An access at this node is to a symbol, or to an access. -/
def isNormal : Expr → Bool
  | .member target _ => target.isSymbolic
  | _ => true

/-- Every node is like that. -/
abbrev Normal (e : Expr) : Prop := e.Every fun part => part.isNormal = true

/-- A symbol, or an access to the field of such: what nothing is picked from. -/
inductive Stuck : Expr → Prop where
  | reference (name : String) : Stuck (.reference name)
  | action (name : String) : Stuck (.action name)
  | member {target : Expr} (field : String) (stuck : Stuck target) : Stuck (.member target field)

theorem isNormal_of_isPlain {e : Expr} (h : e.isPlain = true) : e.isNormal = true := by
  cases e <;> first | rfl | cases h

theorem normal_of_name? {e : Expr} {name : String} (h : e.name? = some name) : e.Normal := by
  refine every_iff.mpr ⟨?_, ?_⟩
  · rcases eq_symbol_of_name? h with rfl | rfl <;> rfl
  · rw [children_of_name? h]
    exact fun _ hc => absurd hc List.not_mem_nil

/-- **The result of a walk is normal.** -/
theorem normal_of_walk {n : Nat} {p : Place} {e r : Expr}
    (h : (walk definitions budget exhaustion n p e).outcome = .value r) : r.Normal := by
  refine walk_induction (motive := fun _ _ r => r.Normal) ?stays ?expanded ?left ?picked ?plain h
  case stays => exact normal_of_name?
  case expanded => exact fun _ _ _ ih => ih
  -- an access is left on a symbolic target only
  case left =>
    intro p target field t hsymbolic ih
    exact every_iff.mpr ⟨hsymbolic, List.forall_mem_singleton.mpr ih⟩
  case picked => exact fun _ _ ih => ih
  case plain =>
    intro p e cs hplain hcs
    have hlength : cs.length = e.children.length := hcs.length_eq.symm
    refine every_iff.mpr ⟨isNormal_of_isPlain (isPlain_rebuild hplain hlength), ?_⟩
    rw [children_rebuild hlength]
    intro d hd
    obtain ⟨_, _, ih⟩ := forall_mem_of_forall₂ hcs d hd
    exact ih

/-- In a normal tree what is symbolic is stuck. -/
theorem Normal.stuck {e : Expr} (h : e.Normal) (hsymbolic : e.isSymbolic = true) : e.Stuck := by
  induction e using child_induction with
  | node e ih =>
    cases e with
    | reference name => exact .reference name
    | action name => exact .action name
    | member target field =>
      have htarget := List.mem_singleton_self target
      exact .member field (ih target htarget (h.child htarget) h.self)
    | _ => cases hsymbolic

/-- At the bottom of what is stuck is a symbol. -/
theorem Stuck.exists_symbol {e : Expr} (h : e.Stuck) :
    ∃ name, .reference name ∈ e.parts ∨ .action name ∈ e.parts := by
  induction h with
  | reference name => exact ⟨name, .inl (List.mem_singleton_self _)⟩
  | action name => exact ⟨name, .inr (List.mem_singleton_self _)⟩
  | member field _ ih =>
    obtain ⟨name, hname⟩ := ih
    exact ⟨name, hname.imp (List.mem_cons_of_mem _) (List.mem_cons_of_mem _)⟩

/-- **In a normal tree nothing is left to expand where there is no symbol.** -/
theorem Normal.isSettled_iff {e : Expr} (h : e.Normal) :
    e.isSettled = true ↔ ∀ name, .reference name ∉ e.parts ∧ .action name ∉ e.parts := by
  rw [Expr.isSettled_iff]
  constructor
  · intro hsettled name
    exact ⟨fun hmem => Bool.noConfusion (hsettled _ hmem),
      fun hmem => Bool.noConfusion (hsettled _ hmem)⟩
  · intro hnone part hpart
    by_contra hsymbolic
    -- a symbolic part that is no symbol is an access stuck on one
    have hstuck : part.Stuck :=
      Normal.stuck (h.of_mem_parts hpart) ((Bool.not_eq_false _).mp hsymbolic)
    obtain ⟨name, hname⟩ := hstuck.exists_symbol
    rcases hname with hname | hname
    · exact (hnone name).1 (mem_parts_trans hpart hname)
    · exact (hnone name).2 (mem_parts_trans hpart hname)

/-! ## 4. Results -/

/-- **What is resolved from a well-shaped tree is well shaped**, against every registry and in
    either mode. After a deep resolution every access that is left is to a symbol, or again to such
    an access; so the result is settled just where it has no reference and no action. -/
theorem resolve_is_well_shaped_and_normal {n : Nat} {registry : Registry}
    {settings : Settings} {e r : Expr}
    (he : e.WellShaped) (value : (e.resolve n registry settings).outcome = .value r) :
    r.WellShaped ∧ (settings.mode = .deep →
      (∀ target field, .member target field ∈ r.parts → target.Stuck) ∧
        (r.isSettled = true ↔ ∀ name, .reference name ∉ r.parts ∧ .action name ∉ r.parts)) := by
  refine ⟨every_resolve isWellShaped_ofNode (definitions_wellShaped registry) he value,
    fun deep => ?_⟩
  have hnormal : r.Normal := normal_of_walk ((resolve_outcome_eq_value_iff deep).mp value).1
  refine ⟨fun target field hmem => ?_, hnormal.isSettled_iff⟩
  have htarget : target.Normal := (hnormal.of_mem_parts hmem).child (List.mem_singleton_self target)
  exact htarget.stuck (hnormal _ hmem)

/-- A definition that picks from a free name: the access to that is left. -/
theorem access_to_free_name_is_left :
    let registry : Registry := ⟨[("a", "\x7b\"x\": $b.y\x7d")], by decide⟩
    let e : Expr := .similarity (.member (.reference "a") "x")
    let r : Expr := .similarity (.member (.reference "b") "y")
    e.WellShaped ∧ (e.resolve 10 registry {}).outcome = .value r ∧ r.WellShaped ∧
      (∀ target field, .member target field ∈ r.parts → target.Stuck) ∧
      (r.isSettled = true ↔ ∀ name, .reference name ∉ r.parts ∧ .action name ∉ r.parts) := by
  intro registry e r
  have he : e.WellShaped := by
    show ∀ part ∈ e.parts, part.isWellShaped = true
    decide
  have hvalue : (e.resolve 10 registry {}).outcome = .value r := by rfl
  obtain ⟨hshaped, hdeep⟩ := resolve_is_well_shaped_and_normal he hvalue
  exact ⟨he, hvalue, hshaped, hdeep rfl⟩

end Expr

end Sigil
