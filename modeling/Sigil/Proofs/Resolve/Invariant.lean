import Sigil.Proofs.Resolve.Trace

/-!
# Invariants of a walk

What is known of a place and of the expression that stands there may go with a walk: to the
children of a node, to the definition of a symbol, and to what an access picks (`Carried`). A
walk stops at symbols only, and the limits of the settings are met at symbols only. So whatever
is known answers for every stop, and for the fault that a walk ends in, at the place where it
happens (`Carried.allows`).
-/

namespace Sigil

/-! ## 1. Faults of the expression -/

/-- Whether a fault lies in the expression or a definition, and not in a limit or a policy. -/
def ResolveError.ofExpression : ResolveError → Bool
  | .budgetExceeded _ | .tooDeep | .escalated _ => false
  | _ => true

theorem Definitions.ofExpression_of_expansion {definitions : Definitions} {name : String}
    {cause : ResolveError} (h : definitions.expansion name = .error cause) :
    cause.ofExpression = true := by
  unfold expansion at h
  split at h <;> cases h
  rfl

theorem Expr.ofExpression_of_select {target : Expr} {field : String} {cause : ResolveError}
    (h : target.select field = .error cause) : cause.ofExpression = true := by
  cases target with
  | object fields =>
    rw [select] at h
    split at h <;> cases h
    rfl
  | reference name => cases h
  | action name => cases h
  | member target field => cases h
  | _ => cases h; rfl

/-! ## 2. What a trace may hold -/

namespace Trace

variable {α β : Type} {stop : Stop → Prop} {fault : ResolveError → Prop}

/-- All stops have the one property, and the fault at the end has the other. -/
structure Allows (stop : Stop → Prop) (fault : ResolveError → Prop) (x : Trace α) : Prop where
  stops : ∀ s ∈ x.stops, stop s
  error : ∀ e, x.outcome = .error e → fault e

theorem allows_value (a : α) : (value a).Allows stop fault where
  stops _ hs := absurd hs List.not_mem_nil
  error _ he := by cases he

theorem allows_unfinished : (unfinished : Trace α).Allows stop fault where
  stops _ hs := absurd hs List.not_mem_nil
  error _ he := by cases he

theorem allows_error {e : ResolveError} (h : fault e) : (error e : Trace α).Allows stop fault where
  stops _ hs := absurd hs List.not_mem_nil
  error _ he := by
    cases he
    exact h

theorem allows_stopped {s : Stop} (h : stop s) (a : α) : (stopped s a).Allows stop fault where
  stops := List.forall_mem_singleton.mpr h
  error _ he := by cases he

theorem Allows.bind {x : Trace α} {f : α → Trace β} (hx : x.Allows stop fault)
    (hf : ∀ a, x.outcome = .value a → (f a).Allows stop fault) : (x >>= f).Allows stop fault := by
  obtain ⟨stops, outcome⟩ := x
  cases outcome with
  | value a =>
    refine ⟨fun s hs => ?_, (hf a rfl).error⟩
    rcases List.mem_append.mp hs with hs | hs
    · exact hx.stops s hs
    · exact (hf a rfl).stops s hs
  | error e => exact ⟨hx.stops, fun _ he => by cases he; exact hx.error e rfl⟩
  | unfinished => exact ⟨hx.stops, fun _ he => by cases he⟩

theorem allows_ofExcept {x : Except ResolveError α} (h : ∀ e, x = .error e → fault e) :
    (ofExcept x).Allows stop fault := by
  cases x with
  | ok a => exact allows_value a
  | error e => exact allows_error (h e rfl)

end Trace

namespace Expr

open Trace

variable {definitions : Definitions} {budget : Budget} {exhaustion : Exhaustion}
  {known : Place → Expr → Prop}

/-! ## 3. What goes with a walk -/

/-- What is known goes to all that is walked in turn: the children of a node, the definition of a
    symbol that is new, and what an access picks from its walked target. -/
structure Carried (definitions : Definitions) (budget : Budget) (exhaustion : Exhaustion)
    (known : Place → Expr → Prop) : Prop where
  child : ∀ {p e c}, known p e → c ∈ e.children → known p.below c
  definition : ∀ {p e name d}, known p e → e.name? = some name → name ∉ p.visited →
    definitions.expansion name = .ok (some d) → known (p.inside name) d
  picked : ∀ {n p target field t picked}, known p (.member target field) →
    (walk definitions budget exhaustion n p.below target).outcome = .value t →
    t.select field = .ok (some picked) → known p picked

/-- A fault that lies in the expression or a definition, where this is known of all places: it is
    that of a definition, of an access, or of a foreign value. -/
inductive Inherent (definitions : Definitions) (known : Place → Expr → Prop) : ResolveError → Prop
  | definition {name : String} {cause : ResolveError}
    (h : definitions.expansion name = .error cause) : Inherent definitions known cause
  | access {target : Expr} {field : String} {cause : ResolveError}
    (h : target.select field = .error cause) : Inherent definitions known cause
  | foreign {p : Place} {shown : String} (h : known p (.foreign shown)) :
      Inherent definitions known (.notExpression shown)

theorem Inherent.ofExpression {e : ResolveError} (h : Inherent definitions known e) :
    e.ofExpression = true := by
  cases h with
  | definition h => exact Definitions.ofExpression_of_expansion h
  | access h => exact ofExpression_of_select h
  | foreign h => rfl

theorem allows_walkItems {f : Expr → Trace Expr} {stop : Stop → Prop} {fault : ResolveError → Prop}
    {cs : List Expr} (h : ∀ c ∈ cs, (f c).Allows stop fault) :
    (walkItems f cs).Allows stop fault := by
  induction cs with
  | nil => exact allows_value _
  | cons c cs ih =>
    obtain ⟨hc, hcs⟩ := List.forall_mem_cons.mp h
    exact hc.bind fun _ _ => (ih hcs).bind fun _ _ => allows_value _

/-- **What is known answers for all that happens on a walk.** Each property of stops and faults
    holds if it holds at the symbols: of the stop at a name on a cycle, of what comes of a
    budget that ran out, and of a definition that would stand too deep; and of the faults that
    lie in the expression. -/
theorem Carried.allows (h : Carried definitions budget exhaustion known) {stop : Stop → Prop}
    {fault : ResolveError → Prop}
    (cycle : ∀ {p e name}, known p e → e.name? = some name → name ∈ p.visited → stop (.cycle name))
    (spent : ∀ {p e name d}, known p e → e.name? = some name → name ∉ p.visited →
      definitions.expansion name = .ok (some d) → budget.passes ≤ p.depth →
      stop .budget ∧ fault (.budgetExceeded budget.passes))
    (tooDeep : ∀ {p e name d}, known p e → e.name? = some name → name ∉ p.visited →
      definitions.expansion name = .ok (some d) → p.depth < budget.passes →
      maxResultNesting ≤ p.level → fault .tooDeep)
    (other : ∀ {e : ResolveError}, Inherent definitions known e → fault e) (n : Nat)
    {p : Place} {e : Expr}
    (hp : known p e) : (walk definitions budget exhaustion n p e).Allows stop fault := by
  induction n generalizing p e with
  | zero => exact allows_unfinished
  | succ n ih =>
    cases e using shape_induction with
    | symbol e name hname =>
      rw [walk_symbol hname]
      -- what is known at the symbol is what each of the seven ways may use
      cases walkSymbol_step (f := walk definitions budget exhaustion n) rfl with
      | cycle seen result => exact result ▸ allows_stopped (cycle hp hname seen) e
      | broken cause _ expansion result =>
        exact result ▸ allows_error (other (.definition expansion))
      | undefined _ _ result => exact result ▸ allows_value e
      | spent d new expansion depth _ result =>
        exact result ▸ allows_error (spent hp hname new expansion depth).2
      | kept d new expansion depth _ result =>
        exact result ▸ allows_stopped (spent hp hname new expansion depth).1 e
      | tooDeep d new expansion depth level result =>
        exact result ▸ allows_error (tooDeep hp hname new expansion depth level)
      | expanded d new expansion _ _ result =>
        exact result ▸ ih (h.definition hp hname new expansion)
    | member target field =>
      rw [walk_member]
      refine (ih (h.child hp (List.mem_singleton_self target))).bind fun t ht => ?_
      have hselect : (ofExcept (t.select field)).Allows stop fault :=
        allows_ofExcept fun _ he => other (.access he)
      refine hselect.bind fun picked hpick => ?_
      cases picked with
      | none => exact allows_value _
      | some picked => exact ih (h.picked hp ht (ofExcept_outcome_eq_value_iff.mp hpick))
    | foreign shown => exact allows_error (other (.foreign hp))
    | plain e he =>
      rw [walk_plain he]
      exact (allows_walkItems fun c hc => ih (h.child hp hc)).bind fun _ _ => allows_value _

end Expr

end Sigil
