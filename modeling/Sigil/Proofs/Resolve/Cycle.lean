import Sigil.Proofs.Resolve.Invariant
import Sigil.Proofs.Resolve.Reach
import Sigil.Proofs.Resolve.Report

/-!
# The warnings of cycles

A walk stops at a name that it stands inside of. Member accesses carry symbols away from where they
were expanded and have them walked again elsewhere; still each name that a place stands inside of
leads to whatever is mentioned there (`Place.LeadsTo`), since what an access picks mentions nothing
that its target did not lead to. So a name at which the walk stops leads to itself
(`onCycle_of_stop`), and the warnings of a deep resolution are sound (`Resolution.Sound`).
-/

namespace Sigil

open Relation

namespace Definitions

variable {definitions : Definitions}

/-- What a name leads to leads to nothing else. -/
theorem closed_led (definitions : Definitions) (a : String) :
    definitions.Closed (TransGen definitions.DependsOn a) := fun _ _ hb hbc => hb.tail hbc

/-- A name on a cycle has a definition. -/
theorem OnCycle.defined {a b : String} (h : definitions.OnCycle a b) :
    ∃ d, definitions.expansion a = .ok (some d) := by
  obtain ⟨c, ⟨d, hd, -⟩, -⟩ := TransGen.head'_iff.mp h.1
  exact ⟨d, hd⟩

end Definitions

namespace Expr

open Trace

variable {definitions : Definitions} {budget : Budget} {exhaustion : Exhaustion}

/-! ## 1. Where a walk stands -/

/-- Each name that the place stands inside of leads to every name that the expression mentions. -/
def Place.LeadsTo (definitions : Definitions) (p : Place) (e : Expr) : Prop :=
  ∀ name ∈ p.visited, e.Confined (TransGen definitions.DependsOn name)

theorem leadsTo_root (e : Expr) : Place.root.LeadsTo definitions e :=
  fun _ hname => absurd hname List.not_mem_nil

/-- Inside of a name, its definition is led to by the name itself and by all names around. -/
theorem Place.LeadsTo.definition {p : Place} {e d : Expr} {name : String}
    (h : p.LeadsTo definitions e)
    (hname : e.name? = some name) (hd : definitions.expansion name = .ok (some d)) :
    (p.inside name).LeadsTo definitions d := by
  have hdepends : ∀ b ∈ d.names, definitions.DependsOn name b := fun b hb => ⟨d, hd, hb⟩
  intro outer houter b hb
  rcases List.mem_cons.mp houter with rfl | houter
  · exact .single (hdepends b hb)
  · have hled : TransGen definitions.DependsOn outer name :=
      (confined_of_name? hname).mp (h outer houter)
    exact hled.tail (hdepends b hb)

/-- What an access picks from its walked target is led to as its target was. -/
theorem Place.LeadsTo.picked {n : Nat} {p : Place} {target t picked : Expr} {field : String}
    (h : p.LeadsTo definitions (.member target field))
    (ht : (walk definitions budget exhaustion n p.below target).outcome = .value t)
    (hpick : t.select field = .ok (some picked)) : p.LeadsTo definitions picked := by
  intro outer houter
  have htarget : target.Confined (TransGen definitions.DependsOn outer) :=
    (h outer houter).child (List.mem_singleton_self target)
  have hwalked : t.Confined (TransGen definitions.DependsOn outer) :=
    confined_of_walk (definitions.closed_led outer) htarget ht
  exact hwalked.child (mem_children_of_select hpick)

theorem carried_leadsTo (definitions : Definitions) (budget : Budget) (exhaustion : Exhaustion) :
    Carried definitions budget exhaustion (Place.LeadsTo definitions) where
  child h hc outer houter := (h outer houter).child hc
  definition h hname _ hd := h.definition hname hd
  picked h ht hpick := h.picked ht hpick

/-- A name that its own place stands inside of lies on a cycle. -/
theorem Place.LeadsTo.onCycle {p : Place} {e : Expr} {name : String} (h : p.LeadsTo definitions e)
    (hname : e.name? = some name) (seen : name ∈ p.visited) : definitions.OnCycle name name := by
  have hback : TransGen definitions.DependsOn name name :=
    (confined_of_name? hname).mp (h name seen)
  exact ⟨hback, hback⟩

/-- **A walk stops at real cycles only**, and its fault is no warning. -/
theorem onCycle_of_stop (definitions : Definitions) (budget : Budget)
    (exhaustion : Exhaustion) (n : Nat) (e : Expr) :
    (walk definitions budget exhaustion n .root e).Allows
      (fun s => ∀ name, s = .cycle name → definitions.OnCycle name name)
      (fun fault => ∀ w, fault ≠ .escalated w) := by
  -- the names that the place is inside of lead to where it stands, so meeting one again closes a
  -- cycle
  refine (carried_leadsTo definitions budget exhaustion).allows ?cycle ?spent ?tooDeep ?other n
    (leadsTo_root e)
  case cycle =>
    intro p e name h hname seen other hother
    cases hother
    exact h.onCycle hname seen
  case spent =>
    exact fun _ _ _ _ _ => ⟨fun _ h => Stop.noConfusion h, fun _ h => ResolveError.noConfusion h⟩
  case tooDeep => exact fun _ _ _ _ _ _ _ h => ResolveError.noConfusion h
  case other =>
    rintro _ hfault w rfl
    cases hfault.ofExpression

end Expr

/-! ## 2. Sound warnings -/

namespace Resolution

/-- First come warnings of cycles, of no name twice, and then at most one of the budget. -/
def InOrder (ws : List Warning) : Prop :=
  ∃ (names : List String) (last : List Warning),
    ws = names.map .cycle ++ last ∧ names.Nodup ∧ last.length ≤ 1 ∧ ∀ w ∈ last, w.code = .budget

theorem inOrder_warningsOf (passes : Nat) (trace : Trace Expr) :
    InOrder (warningsOf passes trace) := by
  refine ⟨cycles [] trace.stops, _, rfl, nodup_cycles [] trace.stops, ?_⟩
  split
  · split
    · exact ⟨Nat.le_refl 1, List.forall_mem_singleton.mpr rfl⟩
    · exact ⟨Nat.zero_le 1, fun _ hw => absurd hw List.not_mem_nil⟩
  · exact ⟨Nat.zero_le 1, fun _ hw => absurd hw List.not_mem_nil⟩

/-- Warnings that are left out do not disturb the order. -/
theorem InOrder.sublist {ws kept : List Warning} (h : InOrder ws) (hsub : kept.Sublist ws) :
    InOrder kept := by
  obtain ⟨names, last, rfl, hnodup, hlength, hlast⟩ := h
  obtain ⟨first, rest, rfl, hfirst, hrest⟩ := List.sublist_append_iff.mp hsub
  obtain ⟨left, hleft, rfl⟩ := List.sublist_map_iff.mp hfirst
  exact ⟨left, rest, rfl, hleft.nodup hnodup, Nat.le_trans hrest.length_le hlength,
    fun w hw => hlast w (hrest.subset hw)⟩

/-- The warnings of an answer come in order; and every name that is warned of, be it by an error,
    has a definition and is mentioned in it, directly or through further definitions. -/
structure Sound (registry : Registry) (answer : Resolution) : Prop where
  order : InOrder answer.warnings
  real : ∀ name,
    .cycle name ∈ answer.warnings ∨ answer.outcome = .error (.escalated (.cycle name)) →
      registry.find? name ≠ none ∧ registry.definitions.OnCycle name name

variable {verdict : Code → Verdict} {passes : Nat} {trace : Trace Expr}

/-- A name that is warned of, or that an error warns of, is one at which the trace stopped. -/
theorem cycle_mem_stops_of_report {name : String}
    (nowarning : ∀ w, trace.outcome ≠ .error (.escalated w))
    (h : .cycle name ∈ (report verdict trace.outcome (warningsOf passes trace)).warnings ∨
      (report verdict trace.outcome (warningsOf passes trace)).outcome =
        .error (.escalated (.cycle name))) : .cycle name ∈ trace.stops := by
  have hmem : .cycle name ∈ warningsOf passes trace := by
    rcases h with hreported | hended
    · exact mem_of_mem_report _ hreported
    · rcases fault_of_report trace.outcome hended with hfault | ⟨w, hw, hraised⟩
      · exact absurd hfault (nowarning _)
      · cases hraised
        exact hw
  exact cycle_mem_warningsOf_iff.mp hmem

end Resolution

namespace Expr

/-- **The warnings of cycles are sound and not repeated**, under all settings: a deep resolution
    warns of different names, each of which has a definition that leads back to it, and after these
    at most once of the budget; and flat resolution warns of nothing. -/
theorem resolve_warns_of_real_cycles (n : Nat) (registry : Registry)
    (settings : Settings) (e : Expr) :
    (e.resolve n registry { settings with mode := .deep }).Sound registry ∧
      (e.resolve n registry { settings with mode := .flat }).warnings = [] := by
  constructor
  · have hallows := onCycle_of_stop registry.definitions settings.budget settings.exhaustion n e
    rw [resolve_eq_report rfl]
    refine ⟨(Resolution.inOrder_warningsOf _ _).sublist (Resolution.report_sublist _ _),
      fun name hwarned => ?_⟩
    have hstop :=
      Resolution.cycle_mem_stops_of_report (fun w hw => hallows.error _ hw w rfl) hwarned
    have hcycle : registry.definitions.OnCycle name name := hallows.stops _ hstop name rfl
    obtain ⟨d, hd⟩ := hcycle.defined
    refine ⟨fun hnone => ?_, hcycle⟩
    rw [Registry.expansion_eq_none_iff.mpr hnone] at hd
    cases hd
  · show (e.resolveFlat registry.definitions).warnings = []
    unfold resolveFlat
    split <;> rfl

/-- Two names on one cycle: the walk stops at the same name twice, and warns of it once. -/
example :
    let registry : Registry := ⟨[("a", "[$b, $a]"), ("b", "$a")], by decide⟩
    (Expr.reference "a").resolve 5 registry {} =
      ⟨[.cycle "a"], .value (.array [.reference "a", .reference "a"])⟩ := rfl

end Expr

end Sigil
