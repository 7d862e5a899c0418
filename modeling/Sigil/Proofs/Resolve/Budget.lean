import Sigil.Proofs.Resolve.Compare
import Sigil.Proofs.Resolve.Report

/-!
# What the budget does to a resolution

Where the budget runs out, the settings ask to keep the symbol or to fail. To fail is no
more than to cut off the walk that keeps the symbols, at the first of these (`CutAtBudget`).
And a walk that fails at no symbol has no use for a larger budget: every walk that may go
further is the same (`Unless`).

So the budget cuts and never changes a finished answer.
-/

namespace Sigil

namespace Trace

variable {α β : Type} {passes : Nat}

/-! ## 1. Traces that are cut -/

/-- The second trace is the first one, up to where the budget ran out first. -/
inductive CutAtBudget (passes : Nat) (x y : Trace α) : Prop where
  /-- The budget did not run out. -/
  | whole (enough : .budget ∉ x.stops) (same : y = x)
  /-- The budget ran out, and what comes from there on is cut off. -/
  | cut (before after : List Stop) (stops : x.stops = before ++ .budget :: after)
    (first : .budget ∉ before) (result : y = ⟨before, .error (.budgetExceeded passes)⟩)

/-- A composition stops where its first part stops, and then maybe elsewhere. -/
theorem exists_bind_stops (x : Trace α) (f : α → Trace β) :
    ∃ more, (x >>= f).stops = x.stops ++ more := by
  cases h : x.outcome with
  | value a => exact ⟨_, bind_stops h f⟩
  | error e => exact ⟨[], by simp only [bind_eq_andThen, andThen, h, List.append_nil]⟩
  | unfinished => exact ⟨[], by simp only [bind_eq_andThen, andThen, h, List.append_nil]⟩

/-- A cut in the second part of a composition is one in the whole. -/
theorem CutAtBudget.bind_right {x : Trace α} {f g : α → Trace β} (enough : .budget ∉ x.stops)
    (h : ∀ a, x.outcome = .value a → CutAtBudget passes (f a) (g a)) :
    CutAtBudget passes (x >>= f) (x >>= g) := by
  -- a cut on the right keeps what was met on the left, which holds no stop at the budget
  obtain ⟨stops, outcome⟩ := x
  cases outcome with
  | value a =>
    cases h a rfl with
    | whole hf same =>
      refine .whole (List.not_mem_append enough hf) ?_
      simp only [bind_eq_andThen, andThen, same]
    | cut before after hf first result =>
      refine .cut (stops ++ before) after ?_ (List.not_mem_append enough first) ?_
      · simp only [bind_eq_andThen, andThen, hf, List.append_assoc]
      · simp only [bind_eq_andThen, andThen, result]
  | error e => exact .whole enough rfl
  | unfinished => exact .whole enough rfl

theorem carries_cutAtBudget (passes : Nat) : Carries (CutAtBudget passes) where
  refl h := .whole h rfl
  bind := by
    intro α β x y f g hxy hfg
    -- once the left is cut nothing of the right runs, and the full run only appends to it
    cases hxy with
    | whole enough same =>
      rw [same]
      exact .bind_right enough hfg
    | cut before after stops first result =>
      obtain ⟨more, hmore⟩ := exists_bind_stops x f
      refine .cut before (after ++ more) ?_ first ?_
      · rw [hmore, stops, List.append_assoc]
        rfl
      · rw [result]
        rfl

theorem CutAtBudget.enough {x y : Trace α} (h : CutAtBudget passes x y) : .budget ∉ y.stops := by
  cases h with
  | whole enough same => exact same ▸ enough
  | cut before after stops first result => exact result ▸ first

end Trace

namespace Expr

open Trace

variable {definitions : Definitions}

/-! ## 2. Walks under a budget -/

/-- **To fail is to cut**: the walk that fails where the budget runs out is the one that keeps the
    symbols, cut off at the first of these. -/
theorem walk_fail_is_cut (definitions : Definitions) (budget : Budget) (n : Nat)
    (p : Place) (e : Expr) :
    CutAtBudget budget.passes (walk definitions budget .keep n p e)
      (walk definitions budget .fail n p e) := by
  have habreast :
      Abreast (CutAtBudget budget.passes) (fun _ => True) Eq definitions definitions budget
      budget .keep .fail := by
    refine abreast_of_same_place (carries_cutAtBudget _) definitions.closed_everything
      (fun _ => rfl)
      fun hwalk => ?_
    -- the two runs part at one place only: where the budget is spent
    unfold walkFound
    split
    · exact .cut [] [] rfl List.not_mem_nil rfl
    · split
      · exact .whole List.not_mem_nil rfl
      · exact hwalk
  exact habreast.walk n rfl (confined_everything e)

/-- A walk that does not fail for want of budget is the same with a larger one, whatever that
    does where it runs out. -/
theorem walk_with_larger_budget {small large : Budget} (hle : small.passes ≤ large.passes)
    (exhaustion : Exhaustion) {n : Nat} {p : Place} {e : Expr}
    (h : (walk definitions small .fail n p e).outcome ≠ .error (.budgetExceeded small.passes)) :
    walk definitions large exhaustion n p e = walk definitions small .fail n p e := by
  have habreast : Abreast (Unless (.budgetExceeded small.passes)) (fun _ => True) Eq definitions
      definitions small large .fail exhaustion := by
    refine abreast_of_same_place (carries_unless _) definitions.closed_everything (fun _ => rfl)
      fun hwalk => ?_
    -- in the smaller budget that place is the error that the run does not end in
    unfold walkFound
    split
    · exact fun h => absurd rfl h
    · next hdepth =>
      have hlarge : ¬ large.passes ≤ _ := fun h => hdepth (Nat.le_trans hle h)
      rw [if_neg hlarge]
      split
      · exact fun _ => rfl
      · exact hwalk
  exact habreast.walk n rfl (confined_everything e) h

/-! ## 3. Resolution -/

section

variable {n : Nat} {registry : Registry} {policy : Option Policy}
    {small large : Budget} {e r : Expr}

/-- An answer that is reached within a budget is that of every larger one, with cycles
    to warn of only. -/
theorem resolve_with_larger_budget (hle : small.passes ≤ large.passes) (exhaustion : Exhaustion)
    (value :
      (e.resolve n registry { budget := small, exhaustion := .fail, policy }).outcome = .value r) :
    e.resolve n registry { budget := large, exhaustion, policy } =
        e.resolve n registry { budget := small, exhaustion := .fail, policy } ∧
      ∀ w ∈ (e.resolve n registry { budget := large, exhaustion, policy }).warnings,
        w.code = .cycle := by
  -- no stop at the budget, so there is nothing to report but cycles
  obtain ⟨hvalue, -⟩ := (resolve_outcome_eq_value_iff rfl).mp value
  have hwalk : walk registry.definitions large exhaustion n .root e =
      walk registry.definitions small .fail n .root e :=
    walk_with_larger_budget hle exhaustion (by rw [hvalue]; exact fun h => by cases h)
  have henough := (walk_fail_is_cut registry.definitions small n .root e).enough
  have hlarge :
      Resolution.warningsOf large.passes (walk registry.definitions large exhaustion n .root e) =
        (Resolution.cycles []
          (walk registry.definitions small .fail n .root e).stops).map .cycle := by
    rw [hwalk, Resolution.warningsOf_of_enough henough]
  constructor
  · rw [resolve_eq_report rfl, resolve_eq_report rfl, hlarge, hwalk,
      Resolution.warningsOf_of_enough henough]
    rfl
  · intro w hw
    rw [resolve_eq_report rfl, hlarge] at hw
    obtain ⟨name, -, rfl⟩ := List.mem_map.mp (Resolution.mem_of_mem_report _ hw)
    rfl

/-- Where the budget runs out on the way to an answer, to fail is to fail for want of budget. -/
theorem resolve_fails_where_kept
    (value :
      (e.resolve n registry { budget := small, exhaustion := .keep, policy }).outcome = .value r)
    (spent : .budget ∈ (walk registry.definitions small .keep n .root e).stops) :
    (e.resolve n registry { budget := small, exhaustion := .fail, policy }).outcome =
      .error (.budgetExceeded small.passes) := by
  obtain ⟨-, calm⟩ := (resolve_outcome_eq_value_iff rfl).mp value
  rw [resolve_eq_report rfl]
  cases walk_fail_is_cut registry.definitions small n .root e with
  | whole enough same => exact absurd spent enough
  | cut before after stops first result =>
    -- the cycles before the cut are among those of the whole walk, and none of these is escalated
    have hcalm : ∀ w ∈ Resolution.warningsOf small.passes
        (walk registry.definitions small .fail n .root e),
          Policy.verdictUnder policy w.code ≠ .raise := by
      rw [result, Resolution.warningsOf_of_enough first]
      intro w hw
      obtain ⟨name, hname, rfl⟩ := List.mem_map.mp hw
      refine calm _ (Resolution.cycle_mem_warningsOf_iff.mpr ?_)
      rw [stops]
      exact List.mem_append_left _ (Resolution.mem_cycles_iff.mp hname).1
    have hreport := Resolution.report_of_no_raise
      (walk registry.definitions small .fail n .root e).outcome hcalm
    exact (congrArg Resolution.outcome hreport).trans (congrArg Trace.outcome result)

/-- **The budget only cuts**, under every policy. What is resolved within a budget, failing where it
    runs out, is resolved with the same warnings within every larger one, failing or not, and the
    budget is not warned of. And where an answer is reached although the budget ran out at some
    symbol, to fail is to fail for want of budget. -/
theorem resolve_under_budget (hle : small.passes ≤ large.passes) :
    (∀ r,
      (e.resolve n registry { budget := small, exhaustion := .fail, policy }).outcome = .value r →
      ∀ exhaustion, e.resolve n registry { budget := large, exhaustion, policy } =
          e.resolve n registry { budget := small, exhaustion := .fail, policy } ∧
        ∀ w ∈ (e.resolve n registry { budget := large, exhaustion, policy }).warnings,
          w.code = .cycle) ∧
    ∀ r,
      (e.resolve n registry { budget := small, exhaustion := .keep, policy }).outcome = .value r →
      .budget ∈ (walk registry.definitions small .keep n .root e).stops →
      (e.resolve n registry { budget := small, exhaustion := .fail, policy }).outcome =
        .error (.budgetExceeded small.passes) :=
  ⟨fun _ value exhaustion => resolve_with_larger_budget hle exhaustion value,
    fun _ value spent => resolve_fails_where_kept value spent⟩

end

/-- A name on a cycle beside one whose definition needs two passes: within two of them there is an
    answer, within one the budget runs out. -/
theorem cycle_under_budget :
    let registry : Registry := ⟨[("a", "[$b, $a]"), ("b", "null")], by decide⟩
    let e : Expr := .reference "a"
    let policy : Option Policy := some { suppressed := ["W01"] }
    let one : Budget := { passes := 1 }
    let two : Budget := { passes := 2 }
    let three : Budget := { passes := 3 }
    (e.resolve 5 registry { budget := two, exhaustion := .fail, policy }).outcome =
        .value (.array [.null, .reference "a"]) ∧
      e.resolve 5 registry { budget := three, exhaustion := .keep, policy } =
        e.resolve 5 registry { budget := two, exhaustion := .fail, policy } ∧
      (e.resolve 5 registry { budget := one, exhaustion := .keep, policy }).outcome =
        .value (.array [.reference "b", .reference "a"]) ∧
      .budget ∈ (walk registry.definitions one .keep 5 .root e).stops ∧
      (e.resolve 5 registry { budget := one, exhaustion := .fail, policy }).outcome =
        .error (.budgetExceeded 1) := by
  intro registry e policy one two three
  have hdefinitions : registry.definitions =
      [("a", .ok (.array [.reference "b", .reference "a"])), ("b", .ok .null)] := rfl
  have hfinished : (e.resolve 5 registry { budget := two, exhaustion := .fail, policy }).outcome =
      .value (.array [.null, .reference "a"]) := by
    rw [resolve_eq_report rfl, hdefinitions]
    rfl
  have hkept : (e.resolve 5 registry { budget := one, exhaustion := .keep, policy }).outcome =
      .value (.array [.reference "b", .reference "a"]) := by
    rw [resolve_eq_report rfl, hdefinitions]
    rfl
  have hspent : .budget ∈ (walk registry.definitions one .keep 5 .root e).stops := by
    rw [hdefinitions]
    decide
  have htwo : two.passes ≤ three.passes := by decide
  have hone : one.passes ≤ three.passes := by decide
  have hlarger := (resolve_under_budget htwo).1 _ hfinished .keep
  have hfails := (resolve_under_budget hone).2 _ hkept hspent
  exact ⟨hfinished, hlarger.1, hkept, hspent, hfails⟩

end Expr

end Sigil
