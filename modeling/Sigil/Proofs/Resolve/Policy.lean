import Sigil.Proofs.Resolve.Live
import Sigil.Proofs.Resolve.Report

/-!
# What a policy does to a resolution

A policy never changes what is resolved. Compared with the same resolution under no policy, which
reports every warning, it either lets the outcome stand and takes away the warnings that it
suppresses, or it cuts the resolution off at the first warning that it escalates (`Policed`).
-/

namespace Sigil

/-! ## 1. Policies -/

namespace Policy

variable {policy : Policy} {code : Code}

/-- Warnings of this code are taken away. -/
def Suppresses (policy : Policy) (code : Code) : Prop := code.name ∈ policy.suppressed

/-- Warnings of this code become errors; to suppress wins. -/
def Escalates (policy : Policy) (code : Code) : Prop :=
  code.name ∈ policy.escalated ∧ ¬ policy.Suppresses code

instance : Decidable (policy.Suppresses code) := inferInstanceAs (Decidable (_ ∈ _))

instance : Decidable (policy.Escalates code) := inferInstanceAs (Decidable (_ ∧ _))

/-- The warnings that are not taken away. -/
def spared (policy : Policy) (ws : List Warning) : List Warning :=
  ws.filter fun w => ¬ policy.Suppresses w.code

theorem verdict_eq_raise_iff : policy.verdict code = .raise ↔ policy.Escalates code := by
  by_cases hs : code.name ∈ policy.suppressed <;> by_cases he : code.name ∈ policy.escalated <;>
    simp [verdict, Escalates, Suppresses, hs, he]

/-- What is not escalated is reported unless it is suppressed. -/
theorem verdict_eq_report_iff (h : ¬ policy.Escalates code) :
    policy.verdict code = .report ↔ ¬ policy.Suppresses code := by
  rw [← verdict_eq_raise_iff] at h
  by_cases hs : code.name ∈ policy.suppressed <;> by_cases he : code.name ∈ policy.escalated <;>
    simp [verdict, Suppresses, hs, he] at h ⊢

theorem reported_eq_spared {ws : List Warning} (h : ∀ w ∈ ws, ¬ policy.Escalates w.code) :
    Resolution.reported policy.verdict ws = policy.spared ws :=
  List.filter_congr fun w hw => decide_eq_decide.mpr (verdict_eq_report_iff (h w hw))

end Policy

/-! ## 2. Resolution under a policy -/

namespace Resolution

variable {policy : Policy}

/-- What is resolved under a policy, against what is resolved under none. -/
structure Policed (policy : Policy) (plain policed : Resolution) : Prop where
  /-- The first warning that is escalated is the error, and of the earlier ones those are reported
      that are not suppressed. -/
  cut : (∃ w ∈ plain.warnings, policy.Escalates w.code) → ∃ before w after,
    plain.warnings = before ++ w :: after ∧ (∀ v ∈ before, ¬ policy.Escalates v.code) ∧
      policy.Escalates w.code ∧ policed = ⟨policy.spared before, .error (.escalated w)⟩
  /-- If no warning is escalated, the outcome stands, and the warnings that are not suppressed. -/
  stand : (∀ w ∈ plain.warnings, ¬ policy.Escalates w.code) →
    policed = ⟨policy.spared plain.warnings, plain.outcome⟩

theorem policed_report (policy : Policy) (outcome : Outcome Expr) (ws : List Warning) :
    Policed policy ⟨ws, outcome⟩ (report policy.verdict outcome ws) where
  cut := by
    rintro ⟨v, hv, hescalated⟩
    -- the first warning that the policy escalates ends the run
    obtain ⟨w, hfirst⟩ : ∃ w, ws.find? (fun w => policy.Escalates w.code) = some w :=
      Option.isSome_iff_exists.mp (List.find?_isSome.mpr ⟨v, hv, decide_eq_true hescalated⟩)
    obtain ⟨hw, before, after, hws, hbefore⟩ := List.find?_eq_some_iff_append.mp hfirst
    have hnone : ∀ v ∈ before, ¬ policy.Escalates v.code := fun v hv => by simpa using hbefore v hv
    have hreport :=
      report_of_raise outcome (fun v hv => mt Policy.verdict_eq_raise_iff.mp (hnone v hv))
      (Policy.verdict_eq_raise_iff.mpr (of_decide_eq_true hw)) after
    rw [← hws, Policy.reported_eq_spared hnone] at hreport
    exact ⟨before, w, after, hws, hnone, of_decide_eq_true hw, hreport⟩
  stand := by
    -- nothing is escalated, so all but the suppressed warnings are reported
    intro hnone
    rw [report_of_no_raise outcome fun w hw => mt Policy.verdict_eq_raise_iff.mp (hnone w hw),
      Policy.reported_eq_spared hnone]

/-- Where there is nothing to warn of, a policy changes nothing. -/
theorem policed_of_silent (policy : Policy) {plain : Resolution} (h : plain.warnings = []) :
    Policed policy plain plain where
  cut := by
    rintro ⟨w, hw, _⟩
    exact absurd hw (h ▸ List.not_mem_nil)
  stand := by
    intro _
    obtain ⟨warnings, outcome⟩ := plain
    cases h
    rfl

end Resolution

namespace Expr

/-- Deep resolution under a policy, against the same under none. -/
theorem resolveDeep_under_policy (n : Nat) (definitions : Definitions) (settings : Settings)
    (policy : Policy) (e : Expr) :
    Resolution.Policed policy (e.resolveDeep n definitions { settings with policy := none })
      (e.resolveDeep n definitions { settings with policy := some policy }) := by
  have hreporting : ∀ code, { settings with policy := none }.verdict code = .report := fun _ => rfl
  unfold resolveDeep
  dsimp only
  rw [Resolution.report_of_report_all _ hreporting]
  exact Resolution.policed_report policy _ _

/-- **A policy never changes what is resolved**, in either mode and with any budget: the outcome
    under it is the one under no policy, with the suppressed warnings taken away, unless some
    warning of that is escalated; then the first such is the error, after the earlier warnings. The
    same holds of a deep resolution that reports each warning at the moment where it is due. -/
theorem resolve_under_policy (n : Nat) (registry : Registry) (settings : Settings) (policy : Policy)
    (e : Expr) :
    Resolution.Policed policy (e.resolve n registry { settings with policy := none })
        (e.resolve n registry { settings with policy := some policy }) ∧
      Resolution.Policed policy
        (e.resolveLive n registry.definitions { settings with policy := none })
        (e.resolveLive n registry.definitions { settings with policy := some policy }) := by
  constructor
  · obtain ⟨mode, budget, exhaustion, _⟩ := settings
    cases mode with
    | flat =>
      have hsilent : (e.resolveFlat registry.definitions).warnings = [] := by
        unfold resolveFlat
        split <;> rfl
      exact Resolution.policed_of_silent policy hsilent
    | deep => exact resolveDeep_under_policy ..
  · rw [resolveLive_eq_resolveDeep, resolveLive_eq_resolveDeep]
    exact resolveDeep_under_policy ..

/-- A cycle that is suppressed, and after it a budget that is escalated. -/
example :
    let registry : Registry := ⟨[("a", "[$a, $b]"), ("b", "null")], by decide⟩
    let policy : Policy := { escalated := ["W01", "W02"], suppressed := ["W02"] }
    (Expr.reference "a").resolve 5 registry { budget := { passes := 1 }, policy } =
      ⟨[], .error (.escalated (.budget 1 (.array [.reference "a", .reference "b"])))⟩ := rfl

end Expr

end Sigil
