import Sigil.Proofs.Registry.Merge
import Sigil.Proofs.Resolve.Compare
import Sigil.Proofs.Resolve.FixedPoint
import Sigil.Proofs.Resolve.Report

/-!
# Resolving in stages

What is resolved against some definitions first, and then against these and further ones, comes to
the same as what is resolved against all of them at once, as long as no expansion is stopped.

The first walk leaves symbols and accesses behind wherever it lacks a definition. The second walk
takes these up again, but at other places than the walk at once would: inside of fewer names, and
for what is picked from an object, further up. It goes through there too, since a walk that is not
stopped goes through at every place further out (`walk_further_out`). So the two stages are followed
together, node by node (`walk_in_stages`).
-/

namespace Sigil

/-! ## 1. Further definitions -/

/-- The further definitions are for names that had none. -/
def Definitions.ExtendedBy (definitions further : Definitions) : Prop :=
  ∀ name, definitions.expansion name = .ok none ∨
    further.expansion name = definitions.expansion name

/-- A registry that is put on top extends the one below, if it defines none of the same names. -/
theorem Registry.extendedBy_putAll {base top : Registry}
    (fresh : ∀ name ∈ top.names, base.find? name = none) :
    base.definitions.ExtendedBy (base.putAll top.entries).definitions := by
  intro name
  by_cases hname : name ∈ top.names
  · exact .inl (expansion_eq_none_iff.mpr (fresh name hname))
  · exact .inr (expansion_congr (find?_putAll_of_not_mem hname))

namespace Expr

open Trace

variable {definitions further : Definitions} {budget : Budget} {exhaustion : Exhaustion}

theorem Place.Grounded.extended {p : Place} (h : p.Grounded definitions)
    (hextended : definitions.ExtendedBy further) : p.Grounded further := by
  intro name hname
  rcases hextended name with hnone | hsame
  · exact absurd hnone (h name hname)
  · rw [hsame]
    exact h name hname

/-! ## 2. Places further out -/

/-- The second place stands inside of no other names than the first, and no deeper. -/
structure Place.FurtherOut (p q : Place) : Prop where
  visited : q.visited ⊆ p.visited
  depth : q.depth ≤ p.depth
  level : q.level ≤ p.level

theorem Place.furtherOut_of_inside (p : Place) (name : String) : (p.inside name).FurtherOut p where
  visited := List.subset_cons_self _ _
  depth := Nat.le_succ _
  level := Nat.le_refl _

theorem Place.furtherOut_of_below_below (p : Place) : p.below.below.FurtherOut p where
  visited := List.Subset.refl _
  depth := Nat.le_refl _
  level := Nat.le_add_right _ 2

/-- Walks of which the second stands further out go abreast, as long as the first is not stopped. -/
theorem abreast_further_out (definitions : Definitions) (budget : Budget)
    (exhaustion : Exhaustion) :
    Abreast Keeps (fun _ => True) Place.FurtherOut definitions definitions budget budget exhaustion
      exhaustion where
  carries := carries_keeps
  closed := definitions.closed_everything
  agree _ := rfl
  below hpq := ⟨hpq.visited, hpq.depth, Nat.succ_le_succ hpq.level⟩
  inside name hpq := ⟨List.cons_subset_cons name hpq.visited, Nat.succ_le_succ hpq.depth, hpq.level⟩
  new hpq hnew hseen := hnew (hpq.visited hseen)
  seen _ _ _ hstopped := by cases hstopped
  found := by
    intro f g p q name e d hpq hwalk
    unfold walkFound
    split
    -- a walk that stops or fails is no silent walk, so nothing is to be kept of it
    · cases exhaustion with
      | fail => exact fun _ herror => by cases herror
      | keep => exact fun _ hstopped => by cases hstopped
    · next hdepth =>
      have hq : ¬ budget.passes ≤ q.depth := fun h => hdepth (Nat.le_trans h hpq.depth)
      rw [if_neg hq]
      split
      · exact fun _ herror => by cases herror
      · next hlevel =>
        have hq : ¬ maxResultNesting ≤ q.level := fun h => hlevel (Nat.le_trans h hpq.level)
        rw [if_neg hq]
        exact hwalk

/-- A walk that is a value without a stop is the same at every place further out. -/
theorem walk_further_out {n : Nat} {p q : Place} (hpq : p.FurtherOut q) {e r : Expr}
    (h : walk definitions budget exhaustion n p e = value r) :
    walk definitions budget exhaustion n q e = value r :=
  (abreast_further_out definitions budget exhaustion).walk n hpq (confined_everything e) r h

/-- A walk that is a value without a stop is the same at one more level of nesting. -/
theorem walk_nested {n : Nat} {p : Place} {e r : Expr}
    (h : walk definitions budget exhaustion n p e = value r) :
    walk definitions budget exhaustion (n + 1) p e = value r :=
  (walk_eq_of_value (Nat.le_succ n) (eq_value_iff.mp h).2).trans h

/-! ## 3. Two stages -/

/-- The expression is resolved to the value in two stages, the second one at the same place with all
    definitions. -/
def Staged (definitions further : Definitions) (budget : Budget) (exhaustion : Exhaustion) (n : Nat)
    (p : Place) (e r : Expr) : Prop :=
  ∃ e₁, walk definitions budget exhaustion n p e = value e₁ ∧
    walk further budget exhaustion n p e₁ = value r

/-- A symbol without a definition so far is left to the second stage; the definition of any other is
    resolved in two stages, and the second one goes through outside of the name too. -/
theorem staged_symbol (hextended : definitions.ExtendedBy further) {n : Nat}
    {p : Place} {e r : Expr} {name : String} (hname : e.name? = some name)
    (hd : ∀ d, definitions.expansion name = .ok (some d) →
      walk further budget exhaustion n (p.inside name) d = value r →
      Staged definitions further budget exhaustion n (p.inside name) d r)
    (h : walk further budget exhaustion (n + 1) p e = value r) :
    Staged definitions further budget exhaustion (n + 1) p e r := by
  have left_alone (new : name ∉ p.visited) (hnone : definitions.expansion name = .ok none) :
      Staged definitions further budget exhaustion (n + 1) p e r := by
    refine ⟨e, ?_, h⟩
    rw [walk_symbol hname]
    exact SymbolStep.eq (.undefined new hnone rfl)
  have hstep := h
  rw [walk_symbol hname] at hstep
  cases walkSymbol_step hstep with
  | undefined new hnone _ =>
    rcases hextended name with hfirst | hsame
    · exact left_alone new hfirst
    · exact left_alone new (hsame ▸ hnone)
  | expanded d new hfound hdepth hlevel hr =>
    rcases hextended name with hfirst | hsame
    · exact left_alone new hfirst
    · rw [hsame] at hfound
      obtain ⟨e₁, hfirst, hsecond⟩ := hd d hfound hr.symm
      refine ⟨e₁, ?_, walk_nested (walk_further_out (p.furtherOut_of_inside name) hsecond)⟩
      rw [walk_symbol hname, SymbolStep.eq (.expanded d new hfound hdepth hlevel rfl), hfirst]
  | cycle _ hr => cases hr
  | broken _ _ _ hr => cases hr
  | spent _ _ _ _ _ hr => cases hr
  | kept _ _ _ _ _ hr => cases hr
  | tooDeep _ _ _ _ _ hr => cases hr

/-- A plain node stays one. What is picked from it when it is walked was there before. -/
theorem picked_before {n : Nat} {p : Place} {t₁ t : Expr} (hplain : t₁.isPlain = true)
    (h : walk further budget exhaustion n p t₁ = value t) :
    t.isPlain = true ∧ ∀ field picked, t.select field = .ok (some picked) →
      ∃ before, t₁.select field = .ok (some before) ∧
        walk further budget exhaustion n p.below before = value picked := by
  -- the rebuilt object has the fields of the first stage, each walked on
  obtain ⟨n, rfl⟩ : ∃ k, n = k + 1 := by
    cases n with
    | zero => cases h
    | succ k => exact ⟨k, rfl⟩
  obtain ⟨cs, hcs, ht⟩ := (walk_plain_eq_value_iff hplain).mp h
  refine ⟨ht ▸ isPlain_rebuild hplain hcs.length_eq.symm, fun field picked hpick => ?_⟩
  obtain ⟨fields, rfl, hfield⟩ := select_eq_some_iff.mp hpick
  obtain ⟨fields₁, rfl⟩ := object_of_rebuild ht.symm
  cases ht
  obtain ⟨before, hbefore, hwalk⟩ := field?_zip hcs hfield
  exact ⟨before, select_eq_some_iff.mpr ⟨fields₁, rfl, hbefore⟩, walk_nested hwalk⟩

/-- What is picked from a target is walked to itself, at any place outside of names
    without definition. -/
theorem walk_of_picked {n : Nat} {p q : Place} {target t picked : Expr} {field : String}
    (hp : p.Grounded definitions) (hq : q.Grounded definitions)
    (h : walk definitions budget exhaustion n p target = value t)
    (hpick : t.select field = .ok (some picked)) :
    walk definitions budget exhaustion n q picked = value picked := by
  have settled : Settled definitions n target t := settled_of_walk hp h
  have hchild : picked ∈ t.children := mem_children_of_select hpick
  exact walk_of_inert hq (settled.inert.child hchild)
    (Nat.lt_trans (height_lt_of_child hchild) settled.height_lt)

/-- An access is left to the second stage if its target is still symbolic after the first. If not,
    the first stage picks from it, and the second one finishes what was picked. -/
theorem staged_member (hextended : definitions.ExtendedBy further) {n : Nat} {p : Place}
    (hp : p.Grounded definitions) {target r : Expr} {field : String}
    (htarget : ∀ t, walk further budget exhaustion n p.below target = value t →
      Staged definitions further budget exhaustion n p.below target t)
    (h : walk further budget exhaustion (n + 1) p (.member target field) = value r) :
    Staged definitions further budget exhaustion (n + 1) p (.member target field) r := by
  obtain ⟨t, ht, hend⟩ := walk_member_eq_value_iff.mp h
  obtain ⟨t₁, hfirst, hsecond⟩ := htarget t ht
  by_cases hsymbolic : t₁.isSymbolic = true
  · exact ⟨.member t₁ field, walk_member_eq_value_iff.mpr ⟨t₁, hfirst, .inl ⟨hsymbolic, rfl⟩⟩,
      walk_member_eq_value_iff.mpr ⟨t, hsecond, hend⟩⟩
  · have hplain : t₁.isPlain = true := by
      cases t₁ using shape_induction with
      | symbol e name hname => exact absurd (isSymbolic_of_name? hname) hsymbolic
      | member target field => exact absurd rfl hsymbolic
      | foreign shown =>
        exact absurd (settled_of_walk hp.below hfirst).inert (not_inert_foreign shown)
      | plain e he => exact he
    obtain ⟨hplain_t, hbefore⟩ := picked_before hplain hsecond
    rcases hend with ⟨hs, -⟩ | ⟨picked, hpick, hr⟩
    · rw [isSymbolic_of_isPlain hplain_t] at hs
      cases hs
    · obtain ⟨before, hpick₁, hwalk⟩ := hbefore field picked hpick
      -- at once, what is picked is finished already, so the second stage need only come to it
      have hpicked : walk further budget exhaustion n p picked = value picked :=
        walk_of_picked (hp.extended hextended).below (hp.extended hextended) ht hpick
      cases value_injective (hpicked.symm.trans hr)
      refine ⟨before, walk_member_eq_value_iff.mpr ⟨t₁, hfirst, .inr ⟨before, hpick₁, ?_⟩⟩, ?_⟩
      · exact walk_of_picked hp.below hp hfirst hpick₁
      · exact walk_nested (walk_further_out p.furtherOut_of_below_below hwalk)

/-- A plain node is resolved in stages child by child. -/
theorem staged_plain {n : Nat} {p : Place} {e r : Expr} (he : e.isPlain = true)
    (hchild : ∀ c d, walk further budget exhaustion n p.below c = value d →
      Staged definitions further budget exhaustion n p.below c d)
    (h : walk further budget exhaustion (n + 1) p e = value r) :
    Staged definitions further budget exhaustion (n + 1) p e r := by
  obtain ⟨ds, hds, rfl⟩ := (walk_plain_eq_value_iff he).mp h
  obtain ⟨cs, hfirst, hsecond⟩ := forall₂_comp_iff.mp (hds.imp hchild)
  have hcs : cs.length = e.children.length := hfirst.length_eq.symm
  have hlength : ds.length = e.children.length := hds.length_eq.symm
  refine ⟨e.rebuild cs, (walk_plain_eq_value_iff he).mpr ⟨cs, hfirst, rfl⟩, ?_⟩
  refine (walk_plain_eq_value_iff (isPlain_rebuild he hcs)).mpr ⟨ds, ?_, ?_⟩
  · rw [children_rebuild hcs]
    exact hsecond
  · rw [rebuild_rebuild hcs hlength]

/-- **A walk without a stop goes through in two stages.** -/
theorem walk_in_stages (hextended : definitions.ExtendedBy further) {n : Nat} {p : Place}
    (hp : p.Grounded definitions) {e r : Expr}
    (h : walk further budget exhaustion n p e = value r) :
    Staged definitions further budget exhaustion n p e r := by
  induction n generalizing p e r with
  | zero => cases h
  | succ n ih =>
    cases e using shape_induction with
    | symbol e name hname =>
      exact staged_symbol hextended hname (fun d hfound hd => ih (hp.inside hfound) hd) h
    | member target field => exact staged_member hextended hp (fun t ht => ih hp.below ht) h
    | foreign shown => cases h
    | plain e he => exact staged_plain he (fun c d hd => ih hp.below hd) h

/-! ## 4. Resolution -/

/-- **Resolving in stages gives the same answer.** Where a tree is resolved against two registries,
    one on top of the other and without names in common, and no expansion is stopped at a cycle or
    for want of budget, it is resolved to a tree against the lower registry alone, and from there
    against both to the same answer; nothing is reported in either stage. -/
theorem resolve_in_stages {n : Nat} {base top both : Registry} {settings : Settings} {e r : Expr}
    (deep : settings.mode = .deep) (merged : Registry.ofTwo base.toSource top.toSource = .ok both)
    (fresh : ∀ name ∈ top.names, base.find? name = none)
    (value : (e.resolve n both settings).outcome = .value r)
    (unstopped : (walk both.definitions settings.budget settings.exhaustion n .root e).stops = []) :
    ∃ e₁, e.resolve n base settings = ⟨[], .value e₁⟩ ∧
      e₁.resolve n both settings = ⟨[], .value r⟩ := by
  -- merging is putting one on top of the other, so the first stage's definitions are kept
  have hboth : base.putAll top.entries = both :=
    Except.ok.inj ((Registry.ofTwo_toSource base top).symm.trans merged)
  have hextended : base.definitions.ExtendedBy both.definitions :=
    hboth ▸ Registry.extendedBy_putAll fresh
  have hwalk : walk both.definitions settings.budget settings.exhaustion n .root e = .value r :=
    eq_value_iff.mpr ⟨unstopped, ((resolve_outcome_eq_value_iff deep).mp value).1⟩
  obtain ⟨e₁, hfirst, hsecond⟩ := walk_in_stages hextended grounded_root hwalk
  exact ⟨e₁, resolve_of_walk_eq_value deep hfirst, resolve_of_walk_eq_value deep hsecond⟩

/-- An access that is left behind by the first stage, since its target is defined in the upper
    registry, by way of a name of the lower one. -/
theorem access_in_stages :
    let base : Registry := ⟨[("a", "\x7b\"x\": $b.z\x7d"), ("c", "[true, $free]")], by decide⟩
    let top : Registry := ⟨[("b", "\x7b\"z\": $c\x7d")], by decide⟩
    let both : Registry := base.putAll top.entries
    let settings : Settings := {}
    let e : Expr := .binary .product (.member (.reference "a") "x") (.action "c")
    let picked : Expr := .array [.bool true, .reference "free"]
    let r : Expr := .binary .product picked picked
    settings.mode = .deep ∧ Registry.ofTwo base.toSource top.toSource = .ok both ∧
      (∀ name ∈ top.names, base.find? name = none) ∧
      (e.resolve 12 both settings).outcome = .value r ∧
      (walk both.definitions settings.budget settings.exhaustion 12 .root e).stops = [] ∧
      ∃ e₁, e.resolve 12 base settings = ⟨[], .value e₁⟩ ∧
        e₁.resolve 12 both settings = ⟨[], .value r⟩ := by
  intro base top both settings e picked r
  have hdefinitions : both.definitions =
      [("a", .ok (.object [("x", .member (.reference "b") "z")])),
        ("c", .ok (.array [.bool true, .reference "free"])),
        ("b", .ok (.object [("z", .reference "c")]))] := rfl
  have hmerged : Registry.ofTwo base.toSource top.toSource = .ok both :=
    Registry.ofTwo_toSource base top
  have hfresh : ∀ name ∈ top.names, base.find? name = none := by decide
  have hwalk : walk both.definitions settings.budget settings.exhaustion 12 .root e = value r := by
    rw [hdefinitions]
    rfl
  obtain ⟨hstops, hend⟩ := eq_value_iff.mp hwalk
  have hvalue : (e.resolve 12 both settings).outcome = .value r := by
    rw [resolve_of_walk_eq_value rfl hwalk]
  exact ⟨rfl, hmerged, hfresh, hvalue, hstops, resolve_in_stages rfl hmerged hfresh hvalue hstops⟩

end Expr

end Sigil
