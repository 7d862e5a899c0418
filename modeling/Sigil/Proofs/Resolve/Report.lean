import Sigil.Resolve.Basic

/-!
# What a resolution reports

Two steps lie between the stops of a walk and the warnings of a resolution: which stops are worth a
warning (`warningsOf`), and what a verdict lets through (`report`).

* No warning is raised: the reported ones go through, and the outcome stands (`report_of_no_raise`).
* A warning is raised: the reported ones before the first such go through, and that warning is the
  outcome (`report_of_raise`).

So there is a result only where the walk has it and nothing is raised
(`report_outcome_eq_value_iff`).
-/

namespace Sigil.Resolution

/-! ## 1. Warnings under a verdict -/

variable {verdict : Code → Verdict} (outcome : Outcome Expr)

/-- The warnings that go through. -/
def reported (verdict : Code → Verdict) (ws : List Warning) : List Warning :=
  ws.filter fun w => verdict w.code = .report

/-- Warnings that are not raised come before all that follows. -/
theorem report_append {before : List Warning} (h : ∀ w ∈ before, verdict w.code ≠ .raise)
    (ws : List Warning) :
    report verdict outcome (before ++ ws) =
      ⟨reported verdict before ++ (report verdict outcome ws).warnings,
        (report verdict outcome ws).outcome⟩ := by
  induction before with
  | nil => rfl
  | cons w before ih =>
    obtain ⟨hw, hbefore⟩ := List.forall_mem_cons.mp h
    rw [List.cons_append, report, ih hbefore]
    cases hv : verdict w.code with
    | drop => simp [reported, hv]
    | raise => exact absurd hv hw
    | report => simp [reported, hv]

theorem report_of_no_raise {ws : List Warning} (h : ∀ w ∈ ws, verdict w.code ≠ .raise) :
    report verdict outcome ws = ⟨reported verdict ws, outcome⟩ := by
  have happend := report_append outcome h []
  rwa [List.append_nil, report, List.append_nil] at happend

/-- What comes after a raised warning does not count, nor does the outcome. -/
theorem report_of_raise {before : List Warning} {w : Warning}
    (h : ∀ w ∈ before, verdict w.code ≠ .raise) (hw : verdict w.code = .raise)
    (after : List Warning) :
    report verdict outcome (before ++ w :: after) =
      ⟨reported verdict before, .error (.escalated w)⟩ := by
  rw [report_append outcome h, report, hw]
  simp

/-- Where nothing is dropped or raised, all warnings go through. -/
theorem report_of_report_all (h : ∀ code, verdict code = .report) (ws : List Warning) :
    report verdict outcome ws = ⟨ws, outcome⟩ := by
  rw [report_of_no_raise outcome fun w _ => by rw [h]; exact Verdict.noConfusion]
  simp [reported, h]

/-- Where there is a result, it is the one that was to be reported, and no warning was raised. -/
theorem report_outcome_eq_value_iff {ws : List Warning} {r : Expr} :
    (report verdict outcome ws).outcome = .value r ↔
      outcome = .value r ∧ ∀ w ∈ ws, verdict w.code ≠ .raise := by
  induction ws with
  | nil => simp [report]
  | cons w ws ih =>
    rw [List.forall_mem_cons, report]
    cases hv : verdict w.code with
    | drop => simp [ih]
    | raise => simp
    | report => simp [ih]

/-- What is reported is among what there is to report, in the same order. -/
theorem report_sublist (ws : List Warning) : (report verdict outcome ws).warnings.Sublist ws := by
  induction ws with
  | nil => exact List.nil_sublist _
  | cons w ws ih =>
    rw [report]
    split
    · exact ih.cons w
    · exact List.nil_sublist _
    · exact ih.cons_cons w

theorem mem_of_mem_report {w : Warning} {ws : List Warning}
    (h : w ∈ (report verdict outcome ws).warnings) : w ∈ ws := (report_sublist outcome ws).subset h

/-- The outcome stands, or it is one of the warnings, which was raised. -/
theorem report_outcome_cases (ws : List Warning) :
    (report verdict outcome ws).outcome = outcome ∨
      ∃ w ∈ ws, (report verdict outcome ws).outcome = .error (.escalated w) := by
  induction ws with
  | nil => exact .inl rfl
  | cons w ws ih =>
    rw [report]
    split
    · exact ih.imp_right fun ⟨v, hv, h⟩ => ⟨v, List.mem_cons_of_mem w hv, h⟩
    · exact .inr ⟨w, List.mem_cons_self, rfl⟩
    · exact ih.imp_right fun ⟨v, hv, h⟩ => ⟨v, List.mem_cons_of_mem w hv, h⟩

/-- A fault is that of the outcome, or it is one of the warnings. -/
theorem fault_of_report {ws : List Warning} {fault : ResolveError}
    (h : (report verdict outcome ws).outcome = .error fault) :
    outcome = .error fault ∨ ∃ w ∈ ws, fault = .escalated w := by
  rcases report_outcome_cases outcome ws with hsame | ⟨w, hw, hraised⟩
  · exact .inl (hsame.symm.trans h)
  · cases hraised.symm.trans h
    exact .inr ⟨w, hw, rfl⟩

/-! ## 2. Stops that are worth a warning -/

variable {name : String} {passes : Nat} {trace : Trace Expr}

/-- A name is warned of if the walk stopped at it and it was not warned of before. -/
theorem mem_cycles_iff {seen : List String} {stops : List Stop} :
    name ∈ cycles seen stops ↔ .cycle name ∈ stops ∧ name ∉ seen := by
  induction stops generalizing seen with
  | nil => simp [cycles]
  | cons stop stops ih =>
    cases stop with
    | budget => simp [cycles, ih]
    | cycle first =>
      unfold cycles
      -- a name seen before is left out of the list, and is no new name on the right either
      by_cases hseen : first ∈ seen
      · rw [if_pos hseen, ih, List.mem_cons, Stop.cycle.injEq]
        constructor
        · exact fun ⟨h, hnew⟩ => ⟨.inr h, hnew⟩
        · rintro ⟨rfl | h, hnew⟩
          · exact absurd hseen hnew
          · exact ⟨h, hnew⟩
      · rw [if_neg hseen, List.mem_cons, ih, List.mem_cons, List.mem_cons, Stop.cycle.injEq]
        by_cases hfirst : name = first
        · simp [hfirst, hseen]
        · simp [hfirst]

/-- No name is warned of twice. -/
theorem nodup_cycles (seen : List String) (stops : List Stop) : (cycles seen stops).Nodup := by
  induction stops generalizing seen with
  | nil => exact List.nodup_nil
  | cons stop stops ih =>
    cases stop with
    | budget => exact ih seen
    | cycle first =>
      unfold cycles
      split
      · exact ih seen
      · exact List.nodup_cons.mpr ⟨fun h => (mem_cycles_iff.mp h).2 List.mem_cons_self, ih _⟩

/-- The name of a cycle. -/
def cycleName? : Stop → Option String
  | .cycle name => some name
  | .budget => none

/-- The names of the cycles are those that were not warned of before, with repetitions dropped. -/
theorem cycles_eq (seen : List String) (stops : List Stop) :
    cycles seen stops =
      ((stops.filterMap cycleName?).filter fun name => name ∉ seen).eraseDups := by
  induction stops generalizing seen with
  | nil => rfl
  | cons stop stops ih =>
    cases stop with
    | budget => exact ih seen
    | cycle first =>
      have hnames : (Stop.cycle first :: stops).filterMap cycleName? =
          first :: stops.filterMap cycleName? := rfl
      rw [hnames, cycles]
      -- later repetitions are dropped by the filter, earlier ones by what was seen
      by_cases hseen : first ∈ seen
      · rw [if_pos hseen, ih, List.filter_cons_of_neg (by simpa using hseen)]
      · rw [if_neg hseen, ih, List.filter_cons_of_pos (by simpa using hseen), List.eraseDups_cons,
          List.filter_filter]
        congr 2
        refine List.filter_congr fun name _ => ?_
        by_cases hname : name = first <;> simp [hname]

/-- A warning of a name says that the walk stopped at it. -/
theorem cycle_mem_warningsOf_iff : .cycle name ∈ warningsOf passes trace ↔
    .cycle name ∈ trace.stops := by
  unfold warningsOf
  rw [List.mem_append, List.mem_map]
  constructor
  · rintro (⟨_, hmem, hname⟩ | hbudget)
    · cases hname
      exact (mem_cycles_iff.mp hmem).1
    · split at hbudget
      · split at hbudget <;> simp at hbudget
      · cases hbudget
  · exact fun h => .inl ⟨name, mem_cycles_iff.mpr ⟨h, List.not_mem_nil⟩, rfl⟩

theorem warningsOf_of_value {r : Expr} (h : trace.outcome = .value r) :
    warningsOf passes trace = (cycles [] trace.stops).map Warning.cycle ++
      if .budget ∈ trace.stops then [.budget passes r] else [] := by
  rw [warningsOf, h]

/-- Where the budget did not run out, only cycles are worth a warning. -/
theorem warningsOf_of_enough (h : .budget ∉ trace.stops) :
    warningsOf passes trace = (cycles [] trace.stops).map Warning.cycle := by
  unfold warningsOf
  cases trace.outcome with
  | value r => exact (congrArg (_ ++ ·) (if_neg h)).trans (List.append_nil _)
  | error e => exact List.append_nil _
  | unfinished => exact List.append_nil _

/-- A warning of the budget says that it ran out. -/
theorem budget_mem_stops_of_warning {w : Warning} (hw : w ∈ warningsOf passes trace)
    (hcode : w.code = .budget) : .budget ∈ trace.stops := by
  refine Classical.byContradiction fun enough => ?_
  rw [warningsOf_of_enough enough] at hw
  obtain ⟨name, -, rfl⟩ := List.mem_map.mp hw
  cases hcode

/-- The warning of a result says that the budget ran out on the way to it. -/
theorem budget_mem_warningsOf_iff {r : Expr} (h : trace.outcome = .value r) :
    .budget passes r ∈ warningsOf passes trace ↔ .budget ∈ trace.stops := by
  rw [warningsOf_of_value h, List.mem_append, List.mem_map]
  by_cases hstop : Stop.budget ∈ trace.stops <;> simp [hstop]

end Sigil.Resolution

namespace Sigil.Expr

/-! ## 3. Deep resolution -/

variable {n : Nat} {registry : Registry} {settings : Settings}

/-- The answer in deep mode is what the verdict leaves of the walk. -/
theorem resolve_eq_report (deep : settings.mode = .deep) (e : Expr) :
    e.resolve n registry settings =
      Resolution.report settings.verdict
        (walk registry.definitions settings.budget settings.exhaustion n .root e).outcome
        (Resolution.warningsOf settings.budget.passes
          (walk registry.definitions settings.budget settings.exhaustion n .root e)) := by
  unfold resolve
  rw [deep]
  rfl

/-- Settings that suppress and escalate nothing report all that the walk is worth a warning for, and
    the outcome is that of the walk. -/
theorem resolve_of_report_all {e : Expr} (deep : settings.mode = .deep)
    (reporting : ∀ code, settings.verdict code = .report) :
    e.resolve n registry settings =
      ⟨Resolution.warningsOf settings.budget.passes
          (walk registry.definitions settings.budget settings.exhaustion n .root e),
        (walk registry.definitions settings.budget settings.exhaustion n .root e).outcome⟩ := by
  rw [resolve_eq_report deep, Resolution.report_of_report_all _ reporting]

/-- There is a result if the walk has it and no warning of the walk is raised. -/
theorem resolve_outcome_eq_value_iff {e r : Expr} (deep : settings.mode = .deep) :
    (e.resolve n registry settings).outcome = .value r ↔
      (walk registry.definitions settings.budget settings.exhaustion n .root e).outcome = .value r ∧
        ∀ w ∈ Resolution.warningsOf settings.budget.passes
            (walk registry.definitions settings.budget settings.exhaustion n .root e),
          settings.verdict w.code ≠ .raise := by
  rw [resolve_eq_report deep, Resolution.report_outcome_eq_value_iff]

/-- A walk without a stop has nothing to report. -/
theorem resolve_of_walk_eq_value {e r : Expr} (deep : settings.mode = .deep)
    (h : walk registry.definitions settings.budget settings.exhaustion n .root e = .value r) :
    e.resolve n registry settings = ⟨[], .value r⟩ := by
  rw [resolve_eq_report deep, h]
  rfl

end Sigil.Expr
