import Sigil.Proofs.Expr.Soundness
import Sigil.Proofs.Resolve.Trace

/-!
# Foreign values

Texts spell no foreign values. So where the tree holds none, a deep resolution against a registry
meets none, and its faults are those of the definitions, the accesses and the limits.
-/

namespace Sigil

/-! ## 1. Definitions -/

/-- What a text spells holds no foreign value. -/
theorem Expr.foreign?_of_ofText {text : String} {e : Expr} (h : ofText text = .ok e) :
    e.foreign? = none := by
  obtain ⟨tokens, _, hread⟩ := ofText_eq_ok_iff.mp h
  obtain ⟨d, hd⟩ := spells_of_ofTokens hread
  exact hd.foreign?_eq_none

/-- The fault of a definition is not that of a foreign value. -/
theorem Definitions.expansion_ne_notExpression {definitions : Definitions} {name : String}
    {cause : ResolveError} (h : definitions.expansion name = .error cause) (shown : String) :
    cause ≠ .notExpression shown := by
  intro hcause
  rw [hcause] at h
  unfold expansion at h
  split at h <;> cases h

/-- No definition holds a foreign value. -/
def Definitions.NoForeign (definitions : Definitions) : Prop :=
  ∀ {name d}, definitions.expansion name = .ok (some d) → d.foreign? = none

theorem Registry.definitions_noForeign (r : Registry) : r.definitions.NoForeign := by
  intro name d h
  obtain ⟨entry, _, hentry⟩ := List.mem_map.mp (Definitions.mem_of_expansion h)
  exact Expr.foreign?_of_ofText (Prod.ext_iff.mp hentry).2

/-! ## 2. Walks -/

namespace Trace

variable {α β : Type} {P : α → Prop} {Q : β → Prop}

/-- Any value has the property, and no fault is that of a foreign value. -/
structure Proper (P : α → Prop) (x : Trace α) : Prop where
  value : ∀ a, x.outcome = .value a → P a
  error : ∀ shown, x.outcome ≠ .error (.notExpression shown)

theorem proper_value {a : α} (h : P a) : Proper P (value a) where
  value := by
    intro b hb
    cases hb
    exact h
  error := by
    intro shown hshown
    cases hshown

theorem proper_error {e : ResolveError} (h : ∀ shown, e ≠ .notExpression shown) :
    Proper P (error e) where
  value := by
    intro a ha
    cases ha
  error := by
    intro shown hshown
    cases hshown
    exact h shown rfl

theorem proper_unfinished : Proper P unfinished where
  value := by
    intro a ha
    cases ha
  error := by
    intro shown hshown
    cases hshown

/-- Only the outcome counts. -/
theorem Proper.of_outcome_eq {x y : Trace α} (hx : x.Proper P) (h : y.outcome = x.outcome) :
    y.Proper P where
  value a ha := hx.value a (h ▸ ha)
  error shown hshown := hx.error shown (h ▸ hshown)

theorem proper_stopped {stop : Stop} {a : α} (h : P a) : Proper P (stopped stop a) :=
  (proper_value h).of_outcome_eq rfl

theorem Proper.bind {x : Trace α} {f : α → Trace β} (hx : x.Proper P)
    (hf : ∀ a, P a → (f a).Proper Q) :
    (x >>= f).Proper Q := by
  have houtcome := bind_outcome x f
  cases ho : x.outcome with
  | value a =>
    rw [ho] at houtcome
    exact (hf a (hx.value a ho)).of_outcome_eq houtcome
  | error e =>
    rw [ho] at houtcome
    have hproper : ∀ shown, e ≠ .notExpression shown := fun shown he => hx.error shown (he ▸ ho)
    exact (proper_error hproper).of_outcome_eq houtcome
  | unfinished =>
    rw [ho] at houtcome
    exact proper_unfinished.of_outcome_eq houtcome

end Trace

namespace Expr

open Trace

variable {definitions : Definitions} {budget : Budget} {exhaustion : Exhaustion}

/-- A row of proper walks has as many values as there were items, all without foreign values. -/
theorem proper_walkItems {f : Expr → Trace Expr} {cs : List Expr}
    (h : ∀ c ∈ cs, (f c).Proper fun r => r.foreign? = none) :
    (walkItems f cs).Proper fun rs => rs.length = cs.length ∧ ∀ r ∈ rs, r.foreign? = none := by
  induction cs with
  | nil => exact proper_value ⟨rfl, fun _ hr => absurd hr List.not_mem_nil⟩
  | cons c cs ih =>
    obtain ⟨hc, hcs⟩ := List.forall_mem_cons.mp h
    refine hc.bind fun r hr => (ih hcs).bind fun rs hrs => proper_value ?_
    exact ⟨congrArg (· + 1) hrs.1, List.forall_mem_cons.mpr ⟨hr, hrs.2⟩⟩

theorem proper_select {target : Expr} (h : target.foreign? = none) (field : String) :
    (ofExcept (target.select field)).Proper fun picked =>
      ∀ value ∈ picked, value.foreign? = none := by
  cases hselect : target.select field with
  | ok picked =>
    refine proper_value fun value hvalue => ?_
    rw [Option.mem_def.mp hvalue] at hselect
    exact foreign?_of_child h (mem_children_of_select hselect)
  | error e =>
    refine proper_error fun shown he => ?_
    unfold select at hselect
    -- an access fails for two reasons, and neither is a foreign value
    split at hselect
    · split at hselect <;> cases hselect
      cases he
    · cases hselect
    · cases hselect
    · cases hselect
    · cases hselect
      cases he

/-- Where there is no foreign value, a walk meets none and brings in none. -/
theorem proper_walk (hdefinitions : definitions.NoForeign) (n : Nat) (p : Place) {e : Expr}
    (he : e.foreign? = none) :
    (walk definitions budget exhaustion n p e).Proper fun r => r.foreign? = none := by
  induction n generalizing p e with
  | zero => exact proper_unfinished
  | succ n ih =>
    cases e using shape_induction with
    | symbol e name hname =>
      rw [walk_symbol hname]
      cases walkSymbol_step (f := walk definitions budget exhaustion n) rfl with
      | cycle _ result =>
        rw [result]
        exact proper_stopped he
      | broken cause _ expansion result =>
        rw [result]
        exact proper_error (Definitions.expansion_ne_notExpression expansion)
      | undefined _ _ result =>
        rw [result]
        exact proper_value he
      | spent _ _ _ _ _ result =>
        rw [result]
        exact proper_error fun shown => ResolveError.noConfusion
      | kept _ _ _ _ _ result =>
        rw [result]
        exact proper_stopped he
      | tooDeep _ _ _ _ _ result =>
        rw [result]
        exact proper_error fun shown => ResolveError.noConfusion
      | expanded d _ expansion _ _ result =>
        rw [result]
        exact ih (p.inside name) (hdefinitions expansion)
    | member target field =>
      rw [walk_member]
      have htarget : target.foreign? = none := foreign?_of_child he (List.mem_singleton_self _)
      refine (ih p.below htarget).bind fun t ht =>
        (proper_select ht field).bind fun picked hpicked => ?_
      cases picked with
      | none => exact proper_value ht
      | some picked => exact ih p (hpicked picked rfl)
    | foreign shown => cases he
    | plain e hplain =>
      rw [walk_plain hplain]
      refine (proper_walkItems fun c hc => ih p.below (foreign?_of_child he hc)).bind
        fun rs hrs => ?_
      refine proper_value (foreign?_of_children (isPlain_rebuild hplain hrs.1) ?_)
      rw [children_rebuild hrs.1]
      exact hrs.2

end Expr

end Sigil
