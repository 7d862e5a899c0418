import Sigil.Proofs.Resolve.Compare
import Sigil.Proofs.Resolve.Report
import Sigil.Proofs.Rows

/-!
# Siblings are resolved independently

The children of a node share the report: a name that two of them stop at is warned of once. They
share nothing else. A child of a plain node is walked as if it stood alone, only one level further
down, and the level can do no more than make the walk fail (`abreast_of_level`). So the answer for a
plain node is put together from the answers for its children alone (`Joint`), and where the children
have answers, the node has one too or is too deep.
-/

namespace Sigil

/-! ## 1. What is reported of the stops -/

/-- The name that a warning of a cycle names. -/
def Warning.cycleName? : Warning → Option String
  | .cycle name => some name
  | .budget _ _ => none

namespace Resolution

/-- The cycles in a row of traces are those of each trace, with repetitions dropped. -/
theorem cycles_flatMap {β : Type} (f : β → List Stop) (l : List β) :
    cycles [] (l.flatMap f) = (l.flatMap fun b => cycles [] (f b)).eraseDups := by
  simp only [cycles_eq, List.filterMap_flatMap, List.filter_flatMap]
  exact (eraseDups_flatMap _ l).symm

/-- The names of the cycles that are warned of, in order. -/
def cycleNames (answer : Resolution) : List String := answer.warnings.filterMap Warning.cycleName?

/-- The budget is warned of. -/
def WarnsOfBudget (answer : Resolution) : Prop := ∃ w ∈ answer.warnings, w.code = .budget

variable {verdict : Code → Verdict} {passes : Nat} {trace : Trace Expr} {r : Expr}

theorem cycleNames_warningsOf (passes : Nat) (h : trace.outcome = .value r) :
    (warningsOf passes trace).filterMap Warning.cycleName? = cycles [] trace.stops := by
  have hcycles : ((cycles [] trace.stops).map Warning.cycle).filterMap Warning.cycleName? =
      cycles [] trace.stops := by
    rw [List.filterMap_map]
    exact List.filterMap_some
  rw [warningsOf_of_value h, List.filterMap_append, hcycles]
  split
  · exact List.append_nil _
  · exact List.append_nil _

/-- All cycles that are worth a warning are reported, or none. -/
theorem cycleNames_report (calm : ∀ code, verdict code ≠ .raise) (h : trace.outcome = .value r) :
    (report verdict trace.outcome (warningsOf passes trace)).cycleNames =
      if verdict .cycle = .report then cycles [] trace.stops else [] := by
  rw [report_of_no_raise _ fun w _ => calm w.code, ← cycleNames_warningsOf passes h]
  unfold cycleNames reported
  rw [List.filterMap_filter]
  -- the budget's warning has no name; the others stand or fall with the verdict on cycles
  split
  · next hv =>
    refine List.filterMap_congr fun w _ => ?_
    cases w with
    | cycle name => exact if_pos (decide_eq_true hv)
    | budget passes result => exact ite_self _
  · next hv =>
    refine List.filterMap_eq_nil_iff.mpr fun w _ => ?_
    cases w with
    | cycle name => exact if_neg fun h => hv (of_decide_eq_true h)
    | budget passes result => exact ite_self _

/-- The budget is warned of if it ran out and such a warning is reported. -/
theorem warnsOfBudget_report_iff (calm : ∀ code, verdict code ≠ .raise)
    (h : trace.outcome = .value r) :
    (report verdict trace.outcome (warningsOf passes trace)).WarnsOfBudget ↔
      verdict .budget = .report ∧ .budget ∈ trace.stops := by
  rw [report_of_no_raise _ fun w _ => calm w.code]
  constructor
  · rintro ⟨w, hw, hcode⟩
    obtain ⟨hmem, hreport⟩ := List.mem_filter.mp hw
    exact ⟨hcode ▸ of_decide_eq_true hreport, budget_mem_stops_of_warning hmem hcode⟩
  · rintro ⟨hv, hstop⟩
    have hmem : .budget passes r ∈ warningsOf passes trace :=
      (budget_mem_warningsOf_iff h).mpr hstop
    exact ⟨_, List.mem_filter.mpr ⟨hmem, decide_eq_true hv⟩, rfl⟩

end Resolution

namespace Expr

open Trace

variable {definitions : Definitions} {budget : Budget} {exhaustion : Exhaustion}

/-! ## 2. The level -/

/-- The second place is the first one, or one further up. -/
structure Place.Above (p q : Place) : Prop where
  visited : q.visited = p.visited
  depth : q.depth = p.depth
  level : q.level ≤ p.level

theorem above_root : Place.Above Place.root.below .root := ⟨rfl, rfl, Nat.zero_le _⟩

/-- Walks at different levels go abreast, unless the lower one is too deep. -/
theorem abreast_of_level (definitions : Definitions) (budget : Budget) (exhaustion : Exhaustion) :
    Abreast (Unless .tooDeep) (fun _ => True) Place.Above definitions definitions budget
      budget exhaustion
      exhaustion where
  carries := carries_unless .tooDeep
  closed := definitions.closed_everything
  agree _ := rfl
  below hpq := ⟨hpq.visited, hpq.depth, Nat.succ_le_succ hpq.level⟩
  inside name hpq := ⟨congrArg (name :: ·) hpq.visited, congrArg (· + 1) hpq.depth, hpq.level⟩
  new hpq hnew := hpq.visited ▸ hnew
  seen hpq hseen := seen_of_visited_eq (carries_unless .tooDeep) hpq.visited hseen
  found := by
    intro f g p q name e d hpq hwalk
    unfold walkFound
    -- the walk that is further out meets the limit later, if at all
    rw [hpq.depth]
    split
    · exact fun _ => rfl
    · split
      · exact fun h => absurd rfl h
      · next hlevel =>
        have hq : ¬ maxResultNesting ≤ q.level := fun h => hlevel (Nat.le_trans h hpq.level)
        rw [if_neg hq]
        exact hwalk

/-- One level further down a walk is the same, or too deep. -/
theorem walk_below_root (n : Nat) (e : Expr) :
    (walk definitions budget exhaustion n Place.root.below e).outcome = .error .tooDeep ∨
      walk definitions budget exhaustion n .root e =
        walk definitions budget exhaustion n Place.root.below e := by
  have hunless :=
    (abreast_of_level definitions budget exhaustion).walk n above_root (confined_everything e)
  exact or_iff_not_imp_left.mpr hunless

/-! ## 3. Children alone -/

/-- Where a plain node has a value, its children are walked as if they stood alone. -/
theorem walk_child_alone {n : Nat} {e r : Expr} (he : e.isPlain = true)
    (h : (walk definitions budget exhaustion (n + 1) .root e).outcome = .value r) :
    ∀ c ∈ e.children, walk definitions budget exhaustion (n + 1) .root c =
      walk definitions budget exhaustion n Place.root.below c := by
  intro c hc
  obtain ⟨rs, hrs, -⟩ := (walk_plain_outcome_iff he).mp h
  obtain ⟨d, -, hd⟩ := forall_mem_of_forall₂ hrs.flip c hc
  -- alone the child is one level further out, which matters only if it is too deep
  have hbelow : (walk definitions budget exhaustion n Place.root.below c).outcome =
      .error .tooDeep ∨
      walk definitions budget exhaustion n .root c =
        walk definitions budget exhaustion n Place.root.below c := walk_below_root n c
  rcases hbelow with hdeep | hsame
  · rw [hd] at hdeep
    cases hdeep
  · rw [walk_eq_of_value (Nat.le_succ n) (hsame ▸ hd), hsame]

/-- A row of walks that end in these values, or in this fault, ends in all of them or
    in the fault. -/
theorem walkItems_outcome_or {f : Expr → Trace Expr} {fault : ResolveError} {cs rs : List Expr}
    (h : List.Forall₂ (fun c r => (f c).outcome = .error fault ∨ (f c).outcome = .value r) cs rs) :
    (walkItems f cs).outcome = .error fault ∨ (walkItems f cs).outcome = .value rs := by
  induction h with
  | nil => exact .inr rfl
  | cons hc _ ih =>
    rw [walkItems, bind_outcome]
    rcases hc with hc | hc
    · rw [hc]
      exact .inl rfl
    · rw [hc]
      dsimp only
      rw [bind_outcome]
      rcases ih with ih | ih
      · rw [ih]
        exact .inl rfl
      · rw [ih]
        exact .inr rfl

/-- Where the children alone have values, the node has the value over them, or is too deep. -/
theorem walk_plain_of_children {n : Nat} {e : Expr} (he : e.isPlain = true) {rs : List Expr}
    (h : List.Forall₂ (fun c r => (walk definitions budget exhaustion n .root c).outcome = .value r)
      e.children rs) :
    (walk definitions budget exhaustion (n + 1) .root e).outcome = .value (e.rebuild rs) ∨
      (walk definitions budget exhaustion (n + 1) .root e).outcome = .error .tooDeep := by
  have hrow := walkItems_outcome_or (f := walk definitions budget exhaustion n Place.root.below)
    (h.imp fun c r hc => (walk_below_root n c).imp_right fun hsame => hsame ▸ hc)
  rw [walk_plain he, bind_outcome]
  rcases hrow with hrow | hrow
  · rw [hrow]
    exact .inr rfl
  · rw [hrow]
    exact .inl rfl

/-! ## 4. Resolution -/

/-- The answer for a node, put together from the answers for its children alone: the same node over
    their trees; the names of the cycles that they warn of, in order and each once; and a warning of
    the budget if one of them has it. -/
structure Joint (answer : Expr → Resolution) (e r : Expr) : Prop where
  trees : ∃ rs, List.Forall₂ (fun c d => (answer c).outcome = .value d) e.children rs ∧
    r = e.rebuild rs
  cycles : (answer e).cycleNames = (e.children.flatMap fun c => (answer c).cycleNames).eraseDups
  budget : (answer e).WarnsOfBudget ↔ ∃ c ∈ e.children, (answer c).WarnsOfBudget

section

variable {n : Nat} {registry : Registry} {settings : Settings} {e r : Expr}

theorem resolve_outcome (deep : settings.mode = .deep)
    (calm : ∀ code, settings.verdict code ≠ .raise) (e : Expr) :
    (e.resolve n registry settings).outcome =
      (walk registry.definitions settings.budget settings.exhaustion n .root e).outcome := by
  rw [resolve_eq_report deep, Resolution.report_of_no_raise _ fun w _ => calm w.code]

theorem resolve_cycleNames (deep : settings.mode = .deep)
    (calm : ∀ code, settings.verdict code ≠ .raise)
    (value : (e.resolve n registry settings).outcome = .value r) :
    (e.resolve n registry settings).cycleNames =
      if settings.verdict .cycle = .report then
        Resolution.cycles []
          (walk registry.definitions settings.budget settings.exhaustion n .root e).stops
      else [] := by
  rw [resolve_outcome deep calm] at value
  rw [resolve_eq_report deep, Resolution.cycleNames_report calm value]

theorem resolve_warnsOfBudget_iff (deep : settings.mode = .deep)
    (calm : ∀ code, settings.verdict code ≠ .raise)
    (value : (e.resolve n registry settings).outcome = .value r) :
    (e.resolve n registry settings).WarnsOfBudget ↔ settings.verdict .budget = .report ∧
      .budget ∈
        (walk registry.definitions settings.budget settings.exhaustion n .root e).stops := by
  rw [resolve_outcome deep calm] at value
  rw [resolve_eq_report deep, Resolution.warnsOfBudget_report_iff calm value]

/-- The answer for a plain node with a value is put together from the answers for its children. -/
theorem joint_of_value (deep : settings.mode = .deep)
    (calm : ∀ code, settings.verdict code ≠ .raise)
    (plain : e.isPlain = true) (value : (e.resolve n registry settings).outcome = .value r) :
    Joint (fun e => e.resolve n registry settings) e r := by
  have hwalk := value
  rw [resolve_outcome deep calm] at hwalk
  obtain ⟨n, rfl⟩ : ∃ k, n = k + 1 := by
    cases n with
    | zero => cases hwalk
    | succ k => exact ⟨k, rfl⟩
  -- alone or below the node, a child's walk is the same, and so are its stops
  have alone := walk_child_alone plain hwalk
  obtain ⟨rs, hrs, hr⟩ := (walk_plain_outcome_iff plain).mp hwalk
  have trees : List.Forall₂ (fun c d => (c.resolve (n + 1) registry settings).outcome = .value d)
      e.children rs := by
    refine forall₂_imp_of_mem hrs fun c hc d _ hd => ?_
    rw [resolve_outcome deep calm, alone c hc]
    exact hd
  have values : ∀ c ∈ e.children,
      ∃ d, (c.resolve (n + 1) registry settings).outcome = .value d := by
    intro c hc
    obtain ⟨d, -, hd⟩ := forall_mem_of_forall₂ trees.flip c hc
    exact ⟨d, hd⟩
  have stops :
      (walk registry.definitions settings.budget settings.exhaustion (n + 1) .root e).stops =
      e.children.flatMap fun c =>
        (walk registry.definitions settings.budget settings.exhaustion (n + 1) .root c).stops := by
    rw [walk_plain_stops plain hwalk]
    exact List.flatMap_congr fun c hc => by rw [alone c hc]
  constructor
  case trees => exact ⟨rs, trees, hr⟩
  case cycles =>
    have hchildren :
        (e.children.flatMap fun c => (c.resolve (n + 1) registry settings).cycleNames) =
        e.children.flatMap fun c => if settings.verdict .cycle = .report then
          Resolution.cycles []
            (walk registry.definitions settings.budget settings.exhaustion (n + 1)
            .root c).stops
          else [] :=
      List.flatMap_congr fun c hc => by
        obtain ⟨d, hd⟩ := values c hc
        exact resolve_cycleNames deep calm hd
    rw [hchildren, resolve_cycleNames deep calm value, stops]
    -- the names of a row are those of its parts one after the other, repetitions dropped
    by_cases hv : settings.verdict .cycle = .report
    · simp only [if_pos hv]
      exact Resolution.cycles_flatMap _ _
    · simp only [if_neg hv]
      rw [List.flatMap_eq_nil_iff.mpr fun _ _ => rfl]
      rfl
  case budget =>
    rw [resolve_warnsOfBudget_iff deep calm value, stops, List.mem_flatMap]
    constructor
    · rintro ⟨hv, c, hc, hstop⟩
      obtain ⟨d, hd⟩ := values c hc
      exact ⟨c, hc, (resolve_warnsOfBudget_iff deep calm hd).mpr ⟨hv, hstop⟩⟩
    · rintro ⟨c, hc, hwarns⟩
      obtain ⟨d, hd⟩ := values c hc
      obtain ⟨hv, hstop⟩ := (resolve_warnsOfBudget_iff deep calm hd).mp hwarns
      exact ⟨hv, c, hc, hstop⟩

/-- **Siblings are resolved independently**, under settings that escalate nothing. A plain node,
    that is a binary operation, an array, an object, a similarity or a difference (or a leaf), with
    a value has the answer that is put together from the answers for its children alone; and where
    the children alone have values, the node has the value over these or is too deep. -/
theorem resolve_siblings (deep : settings.mode = .deep)
    (calm : ∀ code, settings.verdict code ≠ .raise) (plain : e.isPlain = true) :
    (∀ n r, (e.resolve n registry settings).outcome = .value r →
      Joint (fun e => e.resolve n registry settings) e r) ∧
    ∀ n rs, List.Forall₂ (fun c d => (c.resolve n registry settings).outcome = .value d)
      e.children rs →
      ∀ m, n < m → (e.resolve m registry settings).outcome = .value (e.rebuild rs) ∨
        (e.resolve m registry settings).outcome = .error .tooDeep := by
  refine ⟨fun n r value => joint_of_value deep calm plain value, fun n rs values m hm => ?_⟩
  obtain ⟨k, rfl⟩ : ∃ k, m = k + 1 := ⟨m - 1, by omega⟩
  rw [resolve_outcome deep calm]
  refine walk_plain_of_children plain (values.imp fun c d hd => ?_)
  rw [resolve_outcome deep calm] at hd
  rw [walk_eq_of_value (Nat.le_of_lt_succ hm) hd]
  exact hd

end

/-- Two siblings with a cycle in common, of which one runs out of budget. -/
theorem siblings_with_a_common_cycle :
    let registry : Registry := ⟨[("a", "[$a, $b]"), ("b", "[$b, $c]"), ("c", "null")], by decide⟩
    let settings : Settings := { budget := { passes := 2 } }
    let e : Expr := .array [.reference "a", .similarity (.reference "b")]
    let rs : List Expr := [.array [.reference "a", .array [.reference "b", .reference "c"]],
      .similarity (.array [.reference "b", .null])]
    e.isPlain = true ∧ (∀ code, settings.verdict code ≠ .raise) ∧
      (e.resolve 6 registry settings).outcome = .value (.array rs) ∧
      Joint (fun e => e.resolve 6 registry settings) e (.array rs) ∧
      List.Forall₂ (fun c d => (c.resolve 6 registry settings).outcome = .value d) e.children rs ∧
      ((e.resolve 7 registry settings).outcome = .value (e.rebuild rs) ∨
        (e.resolve 7 registry settings).outcome = .error .tooDeep) := by
  intro registry settings e rs
  have hdefinitions : registry.definitions =
      [("a", .ok (.array [.reference "a", .reference "b"])),
        ("b", .ok (.array [.reference "b", .reference "c"])), ("c", .ok .null)] := rfl
  have hcalm : ∀ code, settings.verdict code ≠ .raise := by
    intro code
    cases code <;> decide
  have hwalk (e : Expr) : (e.resolve 6 registry settings).outcome =
      (walk registry.definitions settings.budget .keep 6 .root e).outcome :=
        resolve_outcome rfl hcalm e
  have hvalue : (e.resolve 6 registry settings).outcome = .value (.array rs) := by
    rw [hwalk, hdefinitions]
    rfl
  have hvalues :
      List.Forall₂ (fun c d => (c.resolve 6 registry settings).outcome = .value d)
        e.children rs := by
    simp only [hwalk, hdefinitions]
    exact .cons rfl (.cons rfl .nil)
  obtain ⟨hnode, hchildren⟩ := @resolve_siblings registry settings e rfl hcalm rfl
  exact ⟨rfl, hcalm, hvalue, hnode 6 _ hvalue, hvalues, hchildren 6 rs hvalues 7 (by decide)⟩

end Expr

end Sigil
