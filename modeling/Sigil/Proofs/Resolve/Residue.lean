import Sigil.Proofs.Resolve.Report
import Sigil.Proofs.Resolve.Trace
import Sigil.Proofs.Rows

/-!
# What deep resolution leaves unexpanded

A name in the result of a walk is there for one of three reasons: it has no definition, or the walk
stopped at it on a cycle, or the budget ran out somewhere (`Explained`). A walk only adds stops, so
what is explained in a part of it is explained in the whole (`explained_of_walk`). And a report that
drops and raises nothing has a warning for each stop of either kind.
-/

namespace Sigil.Expr

open Trace

variable {definitions : Definitions} {budget : Budget} {exhaustion : Exhaustion}

/-! ## 1. Reasons -/

/-- Why a walk with these stops may leave a name. -/
inductive Explained (definitions : Definitions) (stops : List Stop) (name : String) : Prop where
  | undefined (missing : definitions.expansion name = .ok none)
  | cycle (stopped : .cycle name ∈ stops)
  | budget (stopped : .budget ∈ stops)

theorem Explained.mono {stops more : List Stop} (hmore : stops ⊆ more) {name : String}
    (h : Explained definitions stops name) : Explained definitions more name := by
  cases h with
  | undefined missing => exact .undefined missing
  | cycle stopped => exact .cycle (hmore stopped)
  | budget stopped => exact .budget (hmore stopped)

/-! ## 2. Walks -/

/-- A symbol that stays mentions its own name only. -/
theorem explained_of_name? {e : Expr} {name : String} (hname : e.name? = some name)
    {stops : List Stop} (h : Explained definitions stops name) :
    ∀ other ∈ e.names, Explained definitions stops other := by
  rw [names_of_name? hname]
  exact List.forall_mem_singleton.mpr h

/-- A walk that ends in a tree has a reason for every name in it. -/
theorem explained_of_walk {n : Nat} {p : Place} {e r : Expr}
    (h : (walk definitions budget exhaustion n p e).outcome = .value r) :
    ∀ name ∈ r.names,
      Explained definitions (walk definitions budget exhaustion n p e).stops name := by
  induction n generalizing p e r with
  | zero => cases h
  | succ n ih =>
    cases e using shape_induction with
    | symbol e name hname =>
      -- three of the ways leave the name standing, each for its own reason
      cases symbolValue_of_walk hname h with
      | cycle _ stays stop =>
        rw [stays, stop]
        exact explained_of_name? hname (.cycle (List.mem_singleton_self _))
      | undefined _ missing stays _ =>
        rw [stays]
        exact explained_of_name? hname (.undefined missing)
      | kept _ _ _ _ stays stop =>
        rw [stays, stop]
        exact explained_of_name? hname (.budget (List.mem_singleton_self _))
      | expanded _ _ _ _ _ inside same =>
        rw [same]
        exact ih inside
    | member target field =>
      obtain ⟨t, ht, ⟨rfl, hstops⟩ | ⟨picked, _, hend, hstops⟩⟩ := walk_member_stops h
      · -- the access stays on a symbolic target, and mentions what that mentions
        have hnames : (member t field).names = t.names := by
          rw [names_eq_flatMap rfl]
          exact List.flatMap_singleton ..
        rw [hnames, hstops]
        exact ih ht
      -- what is picked brings its own reasons, which stand behind those of the target
      · rw [hstops]
        exact fun name hname => (ih hend name hname).mono (List.subset_append_right ..)
    | foreign shown => cases h
    | plain e he =>
      rw [walk_plain_stops he h]
      obtain ⟨cs, hcs, rfl⟩ := (walk_plain_outcome_iff he).mp h
      have hlength : cs.length = e.children.length := hcs.length_eq.symm
      rw [names_eq_flatMap (name?_of_isPlain (isPlain_rebuild he hlength)),
        children_rebuild hlength]
      intro name hname
      obtain ⟨d, hd, hnamed⟩ := List.mem_flatMap.mp hname
      obtain ⟨c, hc, hwalk⟩ := forall_mem_of_forall₂ hcs d hd
      refine (ih hwalk name hnamed).mono fun stop hstop => ?_
      exact List.mem_flatMap.mpr ⟨c, hc, hstop⟩

/-! ## 3. Deep resolution -/

/-- **Deep resolution leaves nothing unexpanded silently**: under settings that suppress and
    escalate nothing, each name in the result has no definition, or is warned of as on a
    cycle, or the budget is warned of; and where nothing is warned of, all names that are
    left have no definition. -/
theorem resolve_leaves_nothing_silently {n : Nat} {registry : Registry} {settings : Settings}
    {e r : Expr} (deep : settings.mode = .deep)
    (reporting : ∀ code, settings.verdict code = .report)
    (value : (e.resolve n registry settings).outcome = .value r) :
    (∀ name ∈ r.names, registry.find? name = none ∨
        .cycle name ∈ (e.resolve n registry settings).warnings ∨
        .budget settings.budget.passes r ∈ (e.resolve n registry settings).warnings) ∧
      ((e.resolve n registry settings).warnings = [] →
        ∀ name ∈ r.names, registry.find? name = none) := by
  rw [resolve_of_report_all deep reporting] at value ⊢
  dsimp only at value ⊢
  have reasons : ∀ name ∈ r.names, registry.find? name = none ∨
      .cycle name ∈ Resolution.warningsOf settings.budget.passes
        (walk registry.definitions settings.budget settings.exhaustion n .root e) ∨
      .budget settings.budget.passes r ∈ Resolution.warningsOf settings.budget.passes
        (walk registry.definitions settings.budget settings.exhaustion n .root e) := by
    intro name hname
    cases explained_of_walk value name hname with
    | undefined missing => exact .inl (Registry.expansion_eq_none_iff.mp missing)
    | cycle stopped => exact .inr (.inl (Resolution.cycle_mem_warningsOf_iff.mpr stopped))
    | budget stopped => exact .inr (.inr ((Resolution.budget_mem_warningsOf_iff value).mpr stopped))
  refine ⟨reasons, fun silent name hname => ?_⟩
  rcases reasons name hname with missing | cycle | budget
  · exact missing
  · exact absurd cycle (silent ▸ List.not_mem_nil)
  · exact absurd budget (silent ▸ List.not_mem_nil)

/-- A definition that mentions itself, a further definition and a free name, under a budget of one:
    each name is left for a reason of its own. -/
theorem definition_of_itself_is_left_for_three_reasons :
    let registry : Registry := ⟨[("a", "[$a, !b, $free]"), ("b", "null")], by decide⟩
    let settings : Settings := { budget := { passes := 1 } }
    let e : Expr := .reference "a"
    let r : Expr := .array [.reference "a", .action "b", .reference "free"]
    (e.resolve 5 registry settings).outcome = .value r ∧
      (∀ name ∈ r.names, registry.find? name = none ∨
        .cycle name ∈ (e.resolve 5 registry settings).warnings ∨
        .budget 1 r ∈ (e.resolve 5 registry settings).warnings) ∧
      ((e.resolve 5 registry settings).warnings = [] →
        ∀ name ∈ r.names, registry.find? name = none) := by
  intro registry settings e r
  have hvalue : (e.resolve 5 registry settings).outcome = .value r := rfl
  exact ⟨hvalue, resolve_leaves_nothing_silently rfl (fun _ => rfl) hvalue⟩

end Sigil.Expr
