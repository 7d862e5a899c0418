import Mathlib.Data.List.Perm.Subperm
import Sigil.Proofs.Resolve.FixedPoint
import Sigil.Proofs.Resolve.Invariant
import Sigil.Proofs.Resolve.Siblings

/-!
# When the budget runs out

The depth of a place counts the expansions that it stands inside of, and no name is expanded inside
of itself. So the depth is the number of different defined names around (`Place.Counted`), and with
no more names entered than the budget has passes it never runs out (`walk_within_budget`).

Where the budget does run out, a defined name is left at that place. It is still there in the
result, unless the place is in the target of an access: what the access does not pick is thrown
away, and what it picks is walked once more, now with more of the budget left
(`PicksFromPartial`). So the warning of the budget, which calls the result a partial one, is right
where no access picks from such a target (`holdsDefined_of_budget_stop`), and may otherwise come
with a result that is finished.
-/

namespace Sigil

/-- What is not without a definition is entered. -/
theorem Definitions.mem_of_expansion_ne {definitions : Definitions} {name : String}
    (h : definitions.expansion name ≠ .ok none) : name ∈ definitions.map Prod.fst := by
  unfold expansion at h
  cases hfound : Entries.find? name definitions with
  | none =>
    rw [hfound] at h
    exact absurd rfl h
  | some found => exact List.mem_map_of_mem (Entries.mem_of_find? hfound)

namespace Expr

open Trace

variable {definitions : Definitions} {budget : Budget} {exhaustion : Exhaustion}

/-! ## 1. What the depth counts -/

/-- The place stands inside of different names, all of which are entered, and the
    depth counts them. -/
structure Place.Counted (definitions : Definitions) (p : Place) : Prop where
  distinct : p.visited.Nodup
  grounded : p.Grounded definitions
  depth : p.depth = p.visited.length

theorem counted_root : Place.root.Counted definitions := ⟨List.nodup_nil, grounded_root, rfl⟩

theorem Place.Counted.inside {p : Place} (h : p.Counted definitions) {name : String} {d : Expr}
    (new : name ∉ p.visited) (hd : definitions.expansion name = .ok (some d)) :
    (p.inside name).Counted definitions where
  distinct := List.nodup_cons.mpr ⟨new, h.distinct⟩
  grounded := h.grounded.inside hd
  depth := congrArg (· + 1) h.depth

/-- No place is deeper than there are names entered. -/
theorem Place.Counted.depth_le {p : Place} (h : p.Counted definitions) :
    p.depth ≤ definitions.length := by
  have hsub : p.visited ⊆ definitions.map Prod.fst :=
    fun name hname => Definitions.mem_of_expansion_ne (h.grounded name hname)
  calc p.depth = p.visited.length := h.depth
    _ ≤ (definitions.map Prod.fst).length := (List.subperm_of_subset h.distinct hsub).length_le
    _ = definitions.length := List.length_map _

theorem carried_counted (definitions : Definitions) (budget : Budget) (exhaustion : Exhaustion) :
    Carried definitions budget exhaustion fun p _ => p.Counted definitions where
  child h _ := ⟨h.distinct, h.grounded.below, h.depth⟩
  definition h _ new hd := h.inside new hd
  picked h _ _ := h

/-- Within a budget of as many passes as names are entered, a walk never runs out of it. -/
theorem walk_within_budget (small : definitions.length ≤ budget.passes) (n : Nat) (e : Expr) :
    (walk definitions budget exhaustion n .root e).Allows (· ≠ .budget)
      (fun fault => (∀ passes, fault ≠ .budgetExceeded passes) ∧ ∀ w, fault ≠ .escalated w) := by
  refine (carried_counted definitions budget exhaustion).allows ?cycle ?spent ?tooDeep ?other n
    counted_root
  case cycle => exact fun _ _ _ => Stop.noConfusion
  case spent =>
    -- one more name would fit inside, so the depth is below the number of names
    intro p e name d h _ new hd hspent
    have hinside : p.depth + 1 ≤ definitions.length := (h.inside new hd).depth_le
    omega
  case tooDeep =>
    exact fun _ _ _ _ _ _ => ⟨fun _ => ResolveError.noConfusion, fun _ => ResolveError.noConfusion⟩
  case other =>
    intro fault hfault
    constructor
    · rintro passes rfl
      cases hfault.ofExpression
    · rintro w rfl
      cases hfault.ofExpression

/-- **A registry no larger than the budget never exhausts it**, whatever cycles its definitions form
    and wherever they access members: the warnings are of cycles, be they reported or escalated, and
    the fault is never that of the budget. -/
theorem resolve_within_small_registry {n : Nat} {registry : Registry}
    {settings : Settings} {e : Expr}
    (deep : settings.mode = .deep) (small : registry.size ≤ settings.budget.passes) :
    (∀ w ∈ (e.resolve n registry settings).warnings, w.code = .cycle) ∧
      (∀ w, (e.resolve n registry settings).outcome = .error (.escalated w) → w.code = .cycle) ∧
      ∀ passes, (e.resolve n registry settings).outcome ≠ .error (.budgetExceeded passes) := by
  have hlength : registry.definitions.length ≤ settings.budget.passes := by
    unfold Registry.definitions
    rw [List.length_map]
    exact small
  rw [resolve_eq_report deep]
  generalize hwalk :
    walk registry.definitions settings.budget settings.exhaustion n .root e = trace
  -- each substitution goes inside another name, and there are no more of them than entries
  have hallows : trace.Allows (· ≠ .budget)
      (fun fault => (∀ passes, fault ≠ .budgetExceeded passes) ∧ ∀ w, fault ≠ .escalated w) :=
    hwalk ▸ walk_within_budget hlength n e
  have hcodes : ∀ w ∈ Resolution.warningsOf settings.budget.passes trace, w.code = .cycle := by
    intro w hw
    cases hcode : w.code with
    | cycle => rfl
    | budget => exact absurd rfl (hallows.stops _ (Resolution.budget_mem_stops_of_warning hw hcode))
  refine ⟨fun w hw => hcodes w (Resolution.mem_of_mem_report _ hw), ?escalated, ?exceeded⟩
  case escalated =>
    intro w hended
    rcases Resolution.fault_of_report _ hended with hfault | ⟨v, hv, hraised⟩
    -- a warning made an error is one of the list, and those are all of cycles
    · exact absurd rfl ((hallows.error _ hfault).2 w)
    · cases hraised
      exact hcodes _ hv
  case exceeded =>
    intro passes hended
    rcases Resolution.fault_of_report _ hended with hfault | ⟨v, hv, hraised⟩
    · exact absurd rfl ((hallows.error _ hfault).1 passes)
    · cases hraised

/-- A cycle of two names whose object an access picks from, within a budget of as many passes. -/
theorem access_to_cycle_within_budget :
    let registry : Registry := ⟨[("a", "\x7b\"x\": $b, \"y\": $a\x7d"), ("b", "[$b]")], by decide⟩
    let settings : Settings := { budget := { passes := 2 } }
    let answer := (Expr.member (.reference "a") "x").resolve 8 registry settings
    registry.size ≤ settings.budget.passes ∧ answer.warnings = [.cycle "b", .cycle "a"] ∧
      (∀ w ∈ answer.warnings, w.code = .cycle) ∧
      (∀ w, answer.outcome = .error (.escalated w) → w.code = .cycle) ∧
      ∀ passes, answer.outcome ≠ .error (.budgetExceeded passes) := by
  intro registry settings answer
  have hsmall : registry.size ≤ settings.budget.passes := by decide
  exact ⟨hsmall, rfl, resolve_within_small_registry rfl hsmall⟩

/-! ## 2. What is left of an exhausted budget -/

/-- The walk reaches an access that picks from a target in whose walk the budget ran out. It enters
    a definition where a pass of the budget is left and the result may still grow in height. -/
inductive PicksFromPartial (definitions : Definitions) (budget : Budget) (exhaustion : Exhaustion) :
    Place → Expr → Prop where
  | here {n : Nat} {p : Place} {target t picked : Expr} {field : String}
      (walked : (walk definitions budget exhaustion n p.below target).outcome = .value t)
      (spent : .budget ∈ (walk definitions budget exhaustion n p.below target).stops)
      (picks : t.select field = .ok (some picked)) :
      PicksFromPartial definitions budget exhaustion p (.member target field)
  | picked {n : Nat} {p : Place} {target t picked : Expr} {field : String}
      (walked : (walk definitions budget exhaustion n p.below target).outcome = .value t)
      (picks : t.select field = .ok (some picked))
      (again : PicksFromPartial definitions budget exhaustion p picked) :
      PicksFromPartial definitions budget exhaustion p (.member target field)
  | child {p : Place} {e c : Expr} (hc : c ∈ e.children)
      (below : PicksFromPartial definitions budget exhaustion p.below c) :
      PicksFromPartial definitions budget exhaustion p e
  | definition {p : Place} {e d : Expr} {name : String} (hname : e.name? = some name)
      (new : name ∉ p.visited) (hd : definitions.expansion name = .ok (some d))
      (depth : p.depth < budget.passes) (level : p.level < maxResultNesting)
      (inside : PicksFromPartial definitions budget exhaustion (p.inside name) d) :
      PicksFromPartial definitions budget exhaustion p e

/-- Whatever goes with a walk is known of such an access. -/
theorem PicksFromPartial.known {known : Place → Expr → Prop}
    (carried : Carried definitions budget exhaustion known) {p : Place} {e : Expr}
    (h : PicksFromPartial definitions budget exhaustion p e) (hp : known p e) :
    ∃ q target field, known q (.member target field) := by
  induction h with
  | here => exact ⟨_, _, _, hp⟩
  | picked => exact ⟨_, _, _, hp⟩
  | child hc _ ih => exact ih (carried.child hp hc)
  | definition hname new hd _ _ _ ih => exact ih (carried.definition hp hname new hd)

/-- The tree mentions a name that has a definition. -/
def HoldsDefined (definitions : Definitions) (e : Expr) : Prop :=
  ∃ name ∈ e.names, definitions.expansion name ≠ .ok none

theorem HoldsDefined.of_child {e c : Expr} (he : e.name? = none) (hc : c ∈ e.children)
    (h : c.HoldsDefined definitions) : e.HoldsDefined definitions := by
  obtain ⟨name, hname, hdefined⟩ := h
  rw [HoldsDefined, names_eq_flatMap he]
  exact ⟨name, List.mem_flatMap.mpr ⟨c, hc, hname⟩, hdefined⟩

/-- A walk on which the budget ran out leaves a defined name, unless it was lost in an access. -/
theorem holdsDefined_of_budget_stop {n : Nat} {p : Place} {e r : Expr}
    (h : (walk definitions budget exhaustion n p e).outcome = .value r)
    (spent : .budget ∈ (walk definitions budget exhaustion n p e).stops) :
    r.HoldsDefined definitions ∨ PicksFromPartial definitions budget exhaustion p e := by
  -- the stop lies in the part that leaves the name behind, or in a target of which only a part is
  -- kept
  induction n generalizing p e r with
  | zero => cases h
  | succ n ih =>
    cases e using shape_induction with
    | symbol e name hname =>
      cases symbolValue_of_walk hname h with
      | cycle _ _ stop =>
        rw [stop] at spent
        cases List.mem_singleton.mp spent
      | undefined _ _ _ silent =>
        rw [silent] at spent
        cases spent
      | kept d _ hd _ stays _ =>
        -- the name is left standing where the budget was spent, and it has a definition
        have hmention : name ∈ r.names := by
          rw [stays, names_of_name? hname]
          exact List.mem_singleton_self name
        exact .inl ⟨name, hmention, fun hnone => by cases hd.symm.trans hnone⟩
      | expanded d new hd depth level inside same =>
        rw [same] at spent
        exact (ih inside spent).imp_right (.definition hname new hd depth level)
    | member target field =>
      obtain ⟨t, ht, ⟨rfl, hstops⟩ | ⟨picked, hpick, hend, hstops⟩⟩ := walk_member_stops h
      · rw [hstops] at spent
        exact (ih ht spent).imp (.of_child rfl (List.mem_singleton_self t))
          (.child (List.mem_singleton_self target))
      -- a stop in the target is lost with it; one in what is picked is left for the induction
      · rw [hstops, List.mem_append] at spent
        rcases spent with spent | spent
        · exact .inr (.here ht spent hpick)
        · exact (ih hend spent).imp_right (.picked ht hpick)
    | foreign shown => cases h
    | plain e he =>
      rw [walk_plain_stops he h] at spent
      obtain ⟨cs, hcs, rfl⟩ := (walk_plain_outcome_iff he).mp h
      -- the stop is of one child, and what that leaves is part of the rebuilt node
      obtain ⟨c, hc, hstop⟩ := List.mem_flatMap.mp spent
      obtain ⟨d, hd, hwalk⟩ := forall_mem_of_forall₂ hcs.flip c hc
      have hlength : cs.length = e.children.length := hcs.length_eq.symm
      refine (ih hwalk hstop).imp (fun hleft => ?_) (.child hc)
      refine hleft.of_child (name?_of_isPlain (isPlain_rebuild he hlength)) ?_
      rwa [children_rebuild hlength]

theorem holdsDefined_iff {registry : Registry} {e : Expr} :
    e.HoldsDefined registry.definitions ↔ ∃ name ∈ e.names, registry.find? name ≠ none :=
  exists_congr fun _ => and_congr_right fun _ => not_congr Registry.expansion_eq_none_iff

/-- **The warning of the budget speaks of a partial result**, one that still mentions a defined
    name, unless an access picked something from a target in whose walk the budget ran out. -/
theorem budget_warning_of_partial_result {n : Nat} {registry : Registry} {settings : Settings}
    {e r : Expr} (deep : settings.mode = .deep)
    (value : (e.resolve n registry settings).outcome = .value r)
    (warned : (e.resolve n registry settings).WarnsOfBudget) :
    (∃ name ∈ r.names, registry.find? name ≠ none) ∨
      PicksFromPartial registry.definitions settings.budget settings.exhaustion .root e := by
  have hwalk := ((resolve_outcome_eq_value_iff deep).mp value).1
  obtain ⟨w, hw, hcode⟩ := warned
  rw [resolve_eq_report deep] at hw
  have hspent := Resolution.budget_mem_stops_of_warning (Resolution.mem_of_mem_report _ hw) hcode
  exact (holdsDefined_of_budget_stop hwalk hspent).imp_left holdsDefined_iff.mp

/-- A definition that nests in another one, beyond a budget of one. -/
theorem budget_warning_of_nested_definition :
    let registry : Registry := ⟨[("a", "[$b]"), ("b", "null")], by decide⟩
    let settings : Settings := { budget := { passes := 1 } }
    let e : Expr := .reference "a"
    let r : Expr := .similarity (.reference "b")
    (e.resolve 5 registry settings).outcome = .value r ∧
      (e.resolve 5 registry settings).WarnsOfBudget ∧
      ((∃ name ∈ r.names, registry.find? name ≠ none) ∨
        PicksFromPartial registry.definitions settings.budget settings.exhaustion .root e) := by
  intro registry settings e r
  have hvalue : (e.resolve 5 registry settings).outcome = .value r := rfl
  have hwarned : (e.resolve 5 registry settings).WarnsOfBudget := ⟨.budget 1 r, .head _, rfl⟩
  exact ⟨hvalue, hwarned, budget_warning_of_partial_result rfl hvalue hwarned⟩

/-- An access that throws away the field in which the budget ran out: the warning is given, and
    nothing in the result can be expanded any further. -/
theorem budget_warning_of_finished_result :
    let registry : Registry := ⟨[("a", "\x7b\"x\": $b, \"y\": null\x7d"), ("b", "null")], by decide⟩
    let settings : Settings := { budget := { passes := 1 } }
    let answer := (Expr.member (.reference "a") "y").resolve 5 registry settings
    answer.WarnsOfBudget ∧ answer.outcome = .value .null ∧
      ¬ ∃ name ∈ Expr.null.names, registry.find? name ≠ none := by
  intro registry settings answer
  have hwarned : answer.WarnsOfBudget := ⟨.budget 1 .null, .head _, rfl⟩
  have hnames : Expr.null.names = [] := rfl
  refine ⟨hwarned, rfl, ?_⟩
  rintro ⟨name, hname, -⟩
  rw [hnames] at hname
  cases hname

end Expr

end Sigil
