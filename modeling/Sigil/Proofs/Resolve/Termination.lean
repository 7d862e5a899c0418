import Sigil.Proofs.Resolve.Foreign
import Sigil.Proofs.Resolve.Weight
import Sigil.Proofs.Resolve.Report

/-!
# Deep resolution ends

Where no definition accesses a member of something on a cycle with its own name, every walk
ends. Three things go down, in this order: how many expansions the budget still allows, the
bound on the ranks of the names, and the number of heavy accesses; below all of them it is the
tree itself that gets smaller.

* A symbol uses up one expansion, whatever its definition holds.
* A child is a smaller tree with no more names and no more accesses.
* What an access picks is no part of the tree. But if the target comes up to the bound, then the
  access was heavy and is gone; and if not, what is picked stays below a lower bound.
-/

namespace Sigil

/-! ## 1. Walks that end -/

namespace Trace

variable {α β : Type}

theorem bind_outcome_ne_unfinished {x : Trace α} {f : α → Trace β} (hx : x.outcome ≠ .unfinished)
    (hf : ∀ a, x.outcome = .value a → (f a).outcome ≠ .unfinished) :
    (x >>= f).outcome ≠ .unfinished := by
  intro h
  rw [bind_eq_andThen] at h
  unfold andThen at h
  cases ho : x.outcome with
  | value a =>
    rw [ho] at h
    exact hf a ho h
  | error e =>
    rw [ho] at h
    cases h
  | unfinished => exact hx ho

theorem ofExcept_outcome_ne_unfinished (x : Except ResolveError α) :
    (ofExcept x).outcome ≠ .unfinished := by
  intro h
  cases x <;> cases h

end Trace

namespace Expr

open Trace

variable {definitions : Definitions} {budget : Budget} {exhaustion : Exhaustion}

theorem walkItems_outcome_ne_unfinished {f : Expr → Trace Expr} {cs : List Expr}
    (h : ∀ c ∈ cs, (f c).outcome ≠ .unfinished) : (walkItems f cs).outcome ≠ .unfinished := by
  induction cs with
  | nil => exact fun hnil => by cases hnil
  | cons c cs ih =>
    obtain ⟨hc, hcs⟩ := List.forall_mem_cons.mp h
    refine bind_outcome_ne_unfinished hc fun _ _ => ?_
    refine bind_outcome_ne_unfinished (ih hcs) fun _ _ hpure => ?_
    cases hpure

/-- At some nesting the walk of this expression ends. -/
def Ends (definitions : Definitions) (budget : Budget) (exhaustion : Exhaustion) (p : Place)
    (e : Expr) : Prop :=
  ∃ n, (walk definitions budget exhaustion n p e).outcome ≠ .unfinished

/-- A walk that ends at some nesting ends at every greater one. -/
theorem outcome_ne_unfinished_of_le {n m : Nat} (hnm : n ≤ m) {p : Place} {e : Expr}
    (h : (walk definitions budget exhaustion n p e).outcome ≠ .unfinished) :
    (walk definitions budget exhaustion m p e).outcome ≠ .unfinished := by
  rw [walk_eq_of_le hnm h]
  exact h

/-- Walks that end do so at a common nesting. -/
theorem exists_common_nesting {p : Place} {cs : List Expr}
    (h : ∀ c ∈ cs, Ends definitions budget exhaustion p c) :
    ∃ n, ∀ c ∈ cs, (walk definitions budget exhaustion n p c).outcome ≠ .unfinished := by
  induction cs with
  | nil => exact ⟨0, fun _ hc => absurd hc List.not_mem_nil⟩
  | cons c cs ih =>
    obtain ⟨hc, hcs⟩ := List.forall_mem_cons.mp h
    obtain ⟨n, hn⟩ := hc
    obtain ⟨m, hm⟩ := ih hcs
    refine ⟨max n m, List.forall_mem_cons.mpr ⟨?_, fun d hd => ?_⟩⟩
    · exact outcome_ne_unfinished_of_le (Nat.le_max_left n m) hn
    · exact outcome_ne_unfinished_of_le (Nat.le_max_right n m) (hm d hd)

/-! ## 2. One step -/

theorem ends_symbol {p : Place} {e : Expr} {name : String} (hname : e.name? = some name)
    (h : ∀ d, definitions.expansion name = .ok (some d) → p.depth < budget.passes →
      Ends definitions budget exhaustion (p.inside name) d) :
    Ends definitions budget exhaustion p e := by
  -- one nesting for whatever the definition is, or none if there is no definition to open
  obtain ⟨n, hn⟩ : ∃ n, ∀ d, definitions.expansion name = .ok (some d) → p.depth < budget.passes →
      (walk definitions budget exhaustion n (p.inside name) d).outcome ≠ .unfinished := by
    by_cases hd : ∃ d, definitions.expansion name = .ok (some d) ∧ p.depth < budget.passes
    · obtain ⟨d, hexpansion, hdepth⟩ := hd
      obtain ⟨n, hn⟩ := h d hexpansion hdepth
      refine ⟨n, fun d' hexpansion' _ => ?_⟩
      rw [hexpansion] at hexpansion'
      cases hexpansion'
      exact hn
    · exact ⟨0, fun d hexpansion hdepth => absurd ⟨d, hexpansion, hdepth⟩ hd⟩
  -- one walk more for the symbol itself; all but one of its ways end at once
  refine ⟨n + 1, fun hend => ?_⟩
  rw [walk_symbol hname] at hend
  cases walkSymbol_step (f := walk definitions budget exhaustion n) rfl with
  | expanded d _ expansion depth _ result =>
    rw [result] at hend
    exact hn d expansion depth hend
  | cycle _ result => rw [result] at hend; cases hend
  | broken _ _ _ result => rw [result] at hend; cases hend
  | undefined _ _ result => rw [result] at hend; cases hend
  | spent _ _ _ _ _ result => rw [result] at hend; cases hend
  | kept _ _ _ _ _ result => rw [result] at hend; cases hend
  | tooDeep _ _ _ _ _ result => rw [result] at hend; cases hend

theorem ends_member {p : Place} {target : Expr} {field : String}
    (htarget : Ends definitions budget exhaustion p.below target)
    (hpicked : ∀ n t picked,
      (walk definitions budget exhaustion n p.below target).outcome = .value t →
      t.select field = .ok (some picked) → Ends definitions budget exhaustion p picked) :
    Ends definitions budget exhaustion p (.member target field) := by
  obtain ⟨n, hn⟩ := htarget
  -- how often what is picked must nest, if anything is picked
  obtain ⟨m, hm⟩ : ∃ m, ∀ t picked,
      (walk definitions budget exhaustion n p.below target).outcome = .value t →
      t.select field = .ok (some picked) →
      (walk definitions budget exhaustion m p picked).outcome ≠ .unfinished := by
    by_cases hd : ∃ t picked,
        (walk definitions budget exhaustion n p.below target).outcome = .value t ∧
          t.select field = .ok (some picked)
    · obtain ⟨t, picked, ht, hselect⟩ := hd
      obtain ⟨m, hm⟩ := hpicked n t picked ht hselect
      refine ⟨m, fun t' picked' ht' hselect' => ?_⟩
      rw [ht] at ht'
      cases ht'
      rw [hselect] at hselect'
      cases hselect'
      exact hm
    · exact ⟨0, fun t picked ht hselect => absurd ⟨t, picked, ht, hselect⟩ hd⟩
  have hwalk : walk definitions budget exhaustion (max n m) p.below target =
      walk definitions budget exhaustion n p.below target := walk_eq_of_le (Nat.le_max_left n m) hn
  refine ⟨max n m + 1, ?_⟩
  rw [walk_member, hwalk]
  refine bind_outcome_ne_unfinished hn fun t ht => ?_
  refine bind_outcome_ne_unfinished (ofExcept_outcome_ne_unfinished _) fun picked hselect => ?_
  rw [ofExcept_outcome_eq_value_iff] at hselect
  cases picked with
  | none => exact fun hvalue => by cases hvalue
  | some picked => exact outcome_ne_unfinished_of_le (Nat.le_max_right n m) (hm t picked ht hselect)

theorem ends_plain {p : Place} {e : Expr} (he : e.isPlain = true)
    (h : ∀ c ∈ e.children, Ends definitions budget exhaustion p.below c) :
    Ends definitions budget exhaustion p e := by
  obtain ⟨n, hn⟩ := exists_common_nesting h
  refine ⟨n + 1, ?_⟩
  rw [walk_plain he]
  exact bind_outcome_ne_unfinished (walkItems_outcome_ne_unfinished hn)
    fun _ _ hvalue => by cases hvalue

theorem ends_foreign (p : Place) (shown : String) :
    Ends definitions budget exhaustion p (.foreign shown) :=
  ⟨1, fun herror => by cases herror⟩

/-! ## 3. The measure -/

variable {rank : String → Nat}

theorem exists_within (rank : String → Nat) (e : Expr) : ∃ bound, e.Within rank bound := by
  refine ⟨(e.names.map rank).sum + 1, fun name hname => ?_⟩
  exact Nat.lt_succ_of_le (List.le_sum_of_mem (List.mem_map_of_mem hname))

/-- With everything settled deeper and below the bound, the number of heavy accesses and the
    size of the tree go down. -/
theorem ends_of_heavyCount_le (hr : definitions.Ranked rank) {depth bound : Nat}
    (deeper : depth < budget.passes → ∀ p e, depth < p.depth →
      Ends definitions budget exhaustion p e)
    (below : ∀ lower, lower < bound → ∀ p e, p.depth = depth → e.Within rank lower →
      Ends definitions budget exhaustion p e)
    (count : Nat) {p : Place} {e : Expr} (hp : p.depth = depth) (he : e.Within rank bound)
    (hcount : e.heavyCount rank bound ≤ count) : Ends definitions budget exhaustion p e := by
  induction count using Nat.strongRecOn generalizing p e with
  | ind count fewer =>
    induction e using shape_induction generalizing p with
    | symbol e name hname =>
      refine ends_symbol hname fun d _ hdepth => ?_
      have hinside : depth < (p.inside name).depth := by
        show depth < p.depth + 1
        omega
      exact deeper (hp ▸ hdepth) _ d hinside
    | member target field ih =>
      have htarget : target.Within rank bound := he.child (List.mem_singleton_self _)
      have hle : target.heavyCount rank bound ≤ (member target field).heavyCount rank bound :=
        heavyCount_le_of_child (List.mem_singleton_self _)
      refine ends_member (ih hp htarget (Nat.le_trans hle hcount)) fun n t picked ht hselect => ?_
      have hchild : picked ∈ t.children := mem_children_of_select hselect
      cases hheavy : isHeavy rank bound (.member target field) with
      | true =>
        -- the target may come up to the bound, but its access is gone
        have hpicked : picked.heavyCount rank bound ≤ t.heavyCount rank bound :=
          heavyCount_le_of_child hchild
        have ht' : t.heavyCount rank bound ≤ target.heavyCount rank bound :=
          heavyCount_le_of_walk hr htarget ht
        have hmember : (member target field).heavyCount rank bound =
            target.heavyCount rank bound +
              if isHeavy rank bound (.member target field) then 1 else 0 :=
          heavyCount_member target field
        rw [hheavy, if_pos rfl] at hmember
        have hfewer : picked.heavyCount rank bound < count := by omega
        exact fewer _ hfewer hp ((within_of_walk hr htarget ht).child hchild) (Nat.le_refl _)
      | false =>
        -- the target stays below a lower bound, and so does what is picked from it
        obtain ⟨lower, hlower, hwithin⟩ := isHeavy_member_eq_false_iff.mp hheavy
        have hlt : lower < bound := by omega
        exact below lower hlt p picked hp ((within_of_walk hr hwithin ht).child hchild)
    | foreign shown => exact ends_foreign p shown
    | plain e hplain ih =>
      refine ends_plain hplain fun c hc => ?_
      exact ih c hc hp (he.child hc) (Nat.le_trans (heavyCount_le_of_child hc) hcount)

/-- With everything settled deeper, the bound on the ranks goes down. -/
theorem ends_of_within (hr : definitions.Ranked rank) {depth : Nat}
    (deeper : depth < budget.passes → ∀ p e, depth < p.depth →
      Ends definitions budget exhaustion p e)
    (bound : Nat) {p : Place} {e : Expr} (hp : p.depth = depth) (he : e.Within rank bound) :
    Ends definitions budget exhaustion p e := by
  induction bound using Nat.strongRecOn generalizing p e with
  | ind bound below =>
    exact ends_of_heavyCount_le hr deeper
      (fun lower hlower _ _ hp' he' => below lower hlower hp' he') _
      hp he (Nat.le_refl _)

/-- Where a rank goes with the dependencies, every walk ends. -/
theorem ends_of_ranked (hr : definitions.Ranked rank) (p : Place) (e : Expr) :
    Ends definitions budget exhaustion p e := by
  induction hleft : budget.passes - p.depth using Nat.strongRecOn generalizing p e with
  | ind left deeper =>
    obtain ⟨bound, he⟩ := exists_within rank e
    refine ends_of_within hr (fun hpasses p' e' hdepth => ?_) bound rfl he
    have hless : budget.passes - p'.depth < left := by omega
    exact deeper _ hless p' e' rfl

/-! ## 4. Deep resolution -/

/-- A report ends as the walk did, or with a warning that is escalated. -/
theorem report_outcome (verdict : Code → Verdict) (outcome : Outcome Expr) (ws : List Warning) :
    (Resolution.report verdict outcome ws).outcome = outcome ∨
      ∃ w, (Resolution.report verdict outcome ws).outcome = .error (.escalated w) :=
  (Resolution.report_outcome_cases outcome ws).imp_right fun ⟨w, _, h⟩ => ⟨w, h⟩

/-- **Deep resolution ends** where no definition accesses a member of something on a cycle with its
    own name: from some nesting on the answer is the same, and it is a tree or a fault of
    resolution, that of a foreign value excluded. -/
theorem resolveDeep_ends {registry : Registry} (settings : Settings) {e : Expr}
    (noForeign : e.foreign? = none) (noCyclicAccess : registry.definitions.NoCyclicAccess) :
    ∃ N answer, (∀ n, N ≤ n → e.resolveDeep n registry.definitions settings = answer) ∧
      ((∃ r, answer.outcome = .value r) ∨
        ∃ fault, answer.outcome = .error fault ∧ ∀ shown, fault ≠ .notExpression shown) := by
  -- the ranks of the names bound how deep the walks nest
  have hranked := Definitions.ranked_reached noCyclicAccess
  obtain ⟨N, hN⟩ : Ends registry.definitions settings.budget settings.exhaustion .root e :=
    ends_of_ranked hranked .root e
  refine ⟨N, e.resolveDeep N registry.definitions settings, fun n hn => ?_, ?_⟩
  · unfold resolveDeep
    rw [walk_eq_of_le hn hN]
  · have hproper : (walk registry.definitions settings.budget settings.exhaustion N .root e).Proper
        fun r => r.foreign? = none := proper_walk registry.definitions_noForeign N .root noForeign
    unfold resolveDeep
    generalize walk registry.definitions settings.budget settings.exhaustion N .root e =
      trace at hN hproper
    rcases report_outcome settings.verdict trace.outcome
        (Resolution.warningsOf settings.budget.passes trace) with hsame | ⟨w, hw⟩
    · cases ho : trace.outcome with
      | value r => exact .inl ⟨r, hsame.trans ho⟩
      | error fault =>
        refine .inr ⟨fault, hsame.trans ho, fun shown heq => ?_⟩
        exact hproper.error shown (heq ▸ ho)
      | unfinished => exact absurd ho hN
    · exact .inr ⟨.escalated w, hw, fun shown => ResolveError.noConfusion⟩

/-- Two names on a cycle, a definition that accesses a member of something off that cycle, and a
    tree that accesses a member of the cycle itself. -/
theorem access_to_a_cycle_ends :
    let registry : Registry :=
      ⟨[("a", "\x7b\"x\": $b\x7d"), ("b", "[$a, $c]"), ("c", "$free.y")], by decide⟩
    let e : Expr := .member (.reference "a") "x"
    e.foreign? = none ∧ registry.definitions.NoCyclicAccess ∧
      registry.definitions.OnCycle "a" "b" ∧
      ∃ N answer, (∀ n, N ≤ n → e.resolveDeep n registry.definitions {} = answer) ∧
        ((∃ r, answer.outcome = .value r) ∨
          ∃ fault, answer.outcome = .error fault ∧ ∀ shown, fault ≠ .notExpression shown) := by
  intro registry e
  have hdefinitions : registry.definitions =
      [("a", .ok (.object [("x", .reference "b")])),
        ("b", .ok (.array [.reference "a", .reference "c"])),
        ("c", .ok (.member (.reference "free") "y"))] := rfl
  have hforeign : e.foreign? = none := rfl
  have hab : registry.definitions.DependsOn "a" "b" := ⟨_, rfl, by decide⟩
  have hba : registry.definitions.DependsOn "b" "a" := ⟨_, rfl, by decide⟩
  have hfree : registry.definitions.expansion "free" = .ok none := rfl
  have haccess : registry.definitions.NoCyclicAccess := by
    intro a d hd target field hmember b hb hcycle
    have hentry := Definitions.mem_of_expansion hd
    rw [hdefinitions] at hentry
    rcases List.mem_cons.mp hentry with hentry | hentry
    · cases hentry
      simp [parts, partsOfFields] at hmember
    · rcases List.mem_cons.mp hentry with hentry | hentry
      · cases hentry
        simp [parts, partsOfItems] at hmember
      · cases List.mem_singleton.mp hentry
        -- the only access is to a member of a name without a definition, which leads nowhere
        obtain ⟨rfl, rfl⟩ : target = .reference "free" ∧ field = "y" := by
          simpa [parts] using hmember
        rw [List.mem_singleton.mp hb] at hcycle
        obtain ⟨_, ⟨d, hd, _⟩, _⟩ := Relation.TransGen.head'_iff.mp hcycle.2
        rw [hfree] at hd
        cases hd
  exact ⟨hforeign, haccess, ⟨.single hab, .single hba⟩, resolveDeep_ends {} hforeign haccess⟩

end Expr

end Sigil
