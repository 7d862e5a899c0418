import Sigil.Proofs.Resolve.Cycle
import Sigil.Proofs.Resolve.Exhaustion
import Sigil.Proofs.Resolve.Flat
import Sigil.Proofs.Resolve.Residue

/-!
# A budget as layers of flat resolution

A walk goes down one branch after the other and counts the expansions of each branch for itself.
Flat resolution in turn expands all symbols of a tree at once. On a tree from which no access and
no cycle can be reached (`Layered`) the two come to the same: what is left of the budget at a
place is the number of flat steps that the subtree there still takes (`flatTimes_of_walk`). And
since neither an access nor a cycle is met, the budget ran out if and only if a defined name is
left (`budget_stop_iff`).
-/

namespace Sigil.Expr

open Relation Trace

/-! ## 1. Trees of layers -/

/-- Whether the node is an access to a member. -/
def isAccess : Expr → Bool
  | member _ _ => true
  | _ => false

/-- There is no access anywhere in the tree. -/
abbrev AccessFree (e : Expr) : Prop := e.Every fun part => part.isAccess = false

instance (e : Expr) : Decidable e.AccessFree :=
  inferInstanceAs (Decidable (∀ part ∈ e.parts, part.isAccess = false))

/-- No access stands in the tree or in a definition that can be reached from it, and no name that
    can be reached from it leads back to itself. -/
structure Layered (definitions : Definitions) (e : Expr) : Prop where
  accessFree : e.AccessFree
  definition : ∀ name d, definitions.Reachable e name → definitions.expansion name = .ok (some d) →
    d.AccessFree
  acyclic : ∀ name, definitions.Reachable e name → ¬ definitions.OnCycle name name

variable {definitions : Definitions} {budget : Budget} {exhaustion : Exhaustion}

/-- It is enough that the names of the tree lie in a set, and that each definition of a name in the
    set holds no access and mentions names of a lower rank in the set only. -/
theorem Layered.of_rank (S : String → Prop) (rank : String → Nat) {e : Expr}
    (accessFree : e.AccessFree) (confined : e.Confined S)
    (lower : ∀ name d, S name → definitions.expansion name = .ok (some d) →
      d.AccessFree ∧ ∀ b ∈ d.names, S b ∧ rank b < rank name) : Layered definitions e := by
  -- ranks fall along a definition, so no name comes back to itself
  have hclosed : definitions.Closed S := by
    rintro a b ha ⟨d, hd, hb⟩
    exact ((lower a d ha hd).2 b hb).1
  have hfalls : ∀ a b, S a → TransGen definitions.DependsOn a b → S b ∧ rank b < rank a := by
    intro a b ha hab
    induction hab with
    | single hdepends =>
      obtain ⟨d, hd, hb⟩ := hdepends
      exact (lower a d ha hd).2 _ hb
    | tail _ hdepends ih =>
      obtain ⟨d, hd, hc⟩ := hdepends
      obtain ⟨hS, hrank⟩ := (lower _ d ih.1 hd).2 _ hc
      exact ⟨hS, Nat.lt_trans hrank ih.2⟩
  refine ⟨accessFree, fun name d hname hd => ?_, fun name hname hcycle => ?_⟩
  · exact (lower name d (confined.of_reachable hclosed hname) hd).1
  · have hself := (hfalls name name (confined.of_reachable hclosed hname) hcycle.1).2
    exact Nat.lt_irrefl _ hself

/-! ## 2. One branch -/

/-- What is known on the way down from a root: there is no access, only names that can be reached
    from the root are mentioned, and the names that the place stands inside of lead to them. -/
structure Place.OnBranch (definitions : Definitions) (root : Expr) (p : Place)
    (e : Expr) : Prop where
  accessFree : e.AccessFree
  reachable : e.Confined (definitions.Reachable root)
  led : p.LeadsTo definitions e

section

variable {root : Expr}

theorem Layered.onBranch_root (h : Layered definitions root) :
    Place.root.OnBranch definitions root root :=
  ⟨h.accessFree, confined_reachable definitions root, leadsTo_root root⟩

theorem Layered.carried (h : Layered definitions root) (budget : Budget) (exhaustion : Exhaustion) :
    Carried definitions budget exhaustion (Place.OnBranch definitions root) where
  child hp hc :=
    ⟨hp.accessFree.child hc, hp.reachable.child hc,
      (carried_leadsTo definitions budget exhaustion).child hp.led hc⟩
  definition hp hname _ hd :=
    have hreached := (confined_of_name? hname).mp hp.reachable
    ⟨h.definition _ _ hreached hd, .of_definition (definitions.closed_reachable root) hd hreached,
      hp.led.definition hname hd⟩
  picked hp _ _ := Bool.noConfusion hp.accessFree.self

/-- No branch comes to a name that it is inside of. -/
theorem Layered.new (h : Layered definitions root) {p : Place} {e : Expr}
    (hp : p.OnBranch definitions root e) {name : String} (hname : e.name? = some name) :
    name ∉ p.visited :=
  fun seen => h.acyclic name ((confined_of_name? hname).mp hp.reachable) (hp.led.onCycle hname seen)

/-- **What is left of the budget at a place is the number of flat steps** that the
    expression there still takes. -/
theorem flatTimes_of_walk (h : Layered definitions root) {n : Nat} {p : Place} {e r : Expr}
    (hp : p.OnBranch definitions root e)
    (hwalk : (walk definitions budget exhaustion n p e).outcome = .value r) :
    flatTimes definitions (budget.passes - p.depth) e = .ok r := by
  have hcarried := h.carried budget exhaustion
  -- on the nesting; an access cannot be met, and a cycle would be one of the definitions
  induction n generalizing p e r with
  | zero => cases hwalk
  | succ n ih =>
    cases e using shape_induction with
    | symbol e name hname =>
      cases symbolValue_of_walk hname hwalk with
      | cycle seen _ _ => exact absurd seen (h.new hp hname)
      | undefined _ missing stays _ =>
        have hflat : e.flat definitions = .ok e := by
          rw [flat_symbol hname, missing]
          rfl
        rw [stays]
        exact flatTimes_of_flat_eq_self hflat _
      | kept _ _ _ depth stays _ =>
        -- nothing is left of the budget, and no flat step takes nothing away
        have hnone : budget.passes - p.depth = 0 := Nat.sub_eq_zero_of_le depth
        rw [hnone, stays]
        rfl
      | expanded d new hd depth _ inside _ =>
        have hflat : e.flat definitions = .ok d := by
          rw [flat_symbol hname, hd]
          rfl
        have hinside : flatTimes definitions (budget.passes - (p.depth + 1)) d = .ok r :=
          ih (hcarried.definition hp hname new hd) inside
        have hleft : budget.passes - p.depth = budget.passes - (p.depth + 1) + 1 := by omega
        rw [hleft]
        exact flatTimes_succ_eq_ok_iff.mpr ⟨d, hflat, hinside⟩
    | member target field => cases hp.accessFree.self
    | foreign shown => cases hwalk
    | plain e he =>
      obtain ⟨cs, hcs, rfl⟩ := (walk_plain_outcome_iff he).mp hwalk
      refine (flatTimes_plain_iff he).mpr ⟨cs, ?_, rfl⟩
      refine forall₂_imp_of_mem hcs fun c hc d _ hd => ?_
      have hbelow : flatTimes definitions (budget.passes - p.below.depth) c = .ok d :=
        ih (hcarried.child hp hc) hd
      exact hbelow

/-! ## 3. The whole tree -/

/-- No access of a layered tree picks anything, since there is none. -/
theorem Layered.not_picksFromPartial (h : Layered definitions root) :
    ¬ PicksFromPartial definitions budget exhaustion .root root := by
  intro hpicks
  obtain ⟨_, _, _, hknown⟩ := hpicks.known (h.carried budget exhaustion) h.onBranch_root
  cases hknown.accessFree.self

/-- The budget ran out on the way to a tree if that tree still mentions a defined name. -/
theorem budget_stop_iff (h : Layered definitions root) {n : Nat} {r : Expr}
    (hwalk : (walk definitions budget exhaustion n .root root).outcome = .value r) :
    .budget ∈ (walk definitions budget exhaustion n .root root).stops ↔
      r.HoldsDefined definitions := by
  constructor
  -- without an access everything that the walk met is part of the result
  · exact fun hspent => (holdsDefined_of_budget_stop hwalk hspent).resolve_right
      h.not_picksFromPartial
  · rintro ⟨name, hname, hdefined⟩
    cases explained_of_walk hwalk name hname with
    | undefined missing => exact absurd missing hdefined
    | cycle stopped =>
      have hreached : definitions.Reachable root name :=
        confined_of_walk (definitions.closed_reachable root)
          (confined_reachable definitions root) hwalk
          name hname
      have hcycle := (onCycle_of_stop definitions budget exhaustion n root).stops _ stopped name rfl
      exact absurd hcycle (h.acyclic name hreached)
    | budget stopped => exact stopped

end

/-- **Without accesses and cycles, a budget of so many passes is as many flat resolutions** in a
    row: a deep resolution with a result has the same result; and it warns of the budget if and only
    if that result still mentions a defined name. -/
theorem resolve_in_layers {n : Nat} {registry : Registry} {settings : Settings} {e r : Expr}
    (deep : settings.mode = .deep) (reporting : ∀ code, settings.verdict code = .report)
    (layered : Layered registry.definitions e)
    (value : (e.resolve n registry settings).outcome = .value r) :
    flatTimes registry.definitions settings.budget.passes e = .ok r ∧
      ((e.resolve n registry settings).WarnsOfBudget ↔
        ∃ name ∈ r.names, registry.find? name ≠ none) := by
  have calm : ∀ code, settings.verdict code ≠ .raise := by
    intro code
    rw [reporting code]
    exact Verdict.noConfusion
  have hwalk := value
  rw [resolve_outcome deep calm] at hwalk
  have htree : flatTimes registry.definitions settings.budget.passes e = .ok r :=
    flatTimes_of_walk layered layered.onBranch_root hwalk
  refine ⟨htree, ?_⟩
  calc (e.resolve n registry settings).WarnsOfBudget
    _ ↔ settings.verdict .budget = .report ∧ .budget ∈
          (walk registry.definitions settings.budget settings.exhaustion n .root e).stops :=
        resolve_warnsOfBudget_iff deep calm value
    _ ↔ .budget ∈ (walk registry.definitions settings.budget settings.exhaustion n .root e).stops :=
        and_iff_right (reporting .budget)
    _ ↔ r.HoldsDefined registry.definitions := budget_stop_iff layered hwalk
    _ ↔ ∃ name ∈ r.names, registry.find? name ≠ none := holdsDefined_iff

/-- Two branches that come to the same name after different numbers of expansions, and out of reach
    a definition that accesses a member of itself. -/
theorem branches_in_layers :
    let registry : Registry :=
      ⟨[("a", "[$b, $c]"), ("b", "!c"), ("c", "null"), ("out", "$out.x")], by decide⟩
    let settings : Settings := { budget := { passes := 2 } }
    let e : Expr := .reference "a"
    let r : Expr := .array [.action "c", .null]
    (∀ code, settings.verdict code = .report) ∧ Layered registry.definitions e ∧
      (e.resolve 6 registry settings).outcome = .value r ∧
      flatTimes registry.definitions 2 e = .ok r ∧
      ((e.resolve 6 registry settings).WarnsOfBudget ↔
        ∃ name ∈ r.names, registry.find? name ≠ none) := by
  intro registry settings e r
  have hdefinitions : registry.definitions =
      [("a", .ok (.array [.reference "b", .reference "c"])), ("b", .ok (.action "c")),
        ("c", .ok .null), ("out", .ok (.member (.reference "out") "x"))] := rfl
  have hreporting : ∀ code, settings.verdict code = .report := by
    intro code
    cases code <;> decide
  have hvalue : (e.resolve 6 registry settings).outcome = .value r := rfl
  have hlayered : Layered registry.definitions e := by
    refine .of_rank (· ∈ ["c", "b", "a"]) (["c", "b", "a"].idxOf ·) (by decide) (by decide) ?_
    intro name d hname hd
    have hentry := Definitions.mem_of_expansion hd
    rw [hdefinitions] at hentry
    rcases List.mem_cons.mp hentry with hentry | hentry
    · cases hentry
      decide
    · rcases List.mem_cons.mp hentry with hentry | hentry
      · cases hentry
        decide
      · rcases List.mem_cons.mp hentry with hentry | hentry
        · cases hentry
          decide
        · cases List.mem_singleton.mp hentry
          exact absurd hname (by decide)
  exact ⟨hreporting, hlayered, hvalue, resolve_in_layers rfl hreporting hlayered hvalue⟩

end Sigil.Expr
