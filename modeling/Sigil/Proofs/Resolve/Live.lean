import Sigil.Proofs.Resolve.Trace
import Sigil.Resolve.Basic

/-!
# Reports made on the way

A deep resolution reads its warnings off the trace of a walk that has come to its end. The same
resolution can also be run with a journal, and report at the moment where something happens: at each
stop the journal is asked whether the name was met before, a warning that is escalated breaks the
walk off in the middle of whatever it is rebuilding, and only after a walk that comes to its end the
journal is asked whether the budget ran out.

Here both are shown to be one (`resolveLive_eq_resolveDeep`). A trace is played back into a journal,
stop by stop; playing a walk back is running it (`run_eq_play`), and what is seen of a trace that is
played back is what `report` makes of it (`seen_play`).
-/

namespace Sigil

/-! ## 1. Runs with a journal -/

/-- What has been reported, and what the reports to come depend on: the names met on cycles, and
    whether the budget ran out. -/
structure Journal where
  met : List String := []
  spent : Bool := false
  warnings : List Warning := []

/-- A run that reads and writes a journal; what it wrote stays, however it ends. -/
def Live (α : Type) := Journal → Journal × Outcome α

namespace Live

variable {α β γ : Type} (verdict : Code → Verdict)

/-- An end, with nothing written. -/
def ended (outcome : Outcome α) : Live α := fun journal => (journal, outcome)

/-- One run, then another from its value. -/
def andThen (x : Live α) (f : α → Live β) : Live β := fun journal =>
  match x journal with
  | (journal, .value a) => f a journal
  | (journal, .error e) => (journal, .error e)
  | (journal, .unfinished) => (journal, .unfinished)

instance : Monad Live where
  pure a := ended (.value a)
  bind := andThen

/-- A value or a fault, with nothing written. -/
def ofExcept : Except ResolveError α → Live α
  | .ok a => ended (.value a)
  | .error e => ended (.error e)

/-- A warning at the moment where it is due. -/
def emit (w : Warning) : Live Unit := fun journal =>
  match verdict w.code with
  | .drop => (journal, .value ())
  | .raise => (journal, .error (.escalated w))
  | .report => ({ journal with warnings := journal.warnings ++ [w] }, .value ())

/-- A stop. The name is written down before the warning, so it is met even if that is dropped. -/
def stop : Stop → Live Unit
  | .cycle name => fun journal =>
    if name ∈ journal.met then (journal, .value ())
    else emit verdict (.cycle name) { journal with met := name :: journal.met }
  | .budget => fun journal => ({ journal with spent := true }, .value ())

/-- The end of a resolution with a result. -/
def close (passes : Nat) (result : Expr) : Live Expr := fun journal =>
  if journal.spent then (do emit verdict (.budget passes result); return result) journal
  else (journal, .value result)

theorem ended_value_bind (a : α) (f : α → Live β) : (ended (.value a) >>= f) = f a := rfl

theorem bind_bind (x : Live α) (f : α → Live β) (g : β → Live γ) :
    x >>= f >>= g = x >>= fun a => f a >>= g := by
  funext journal
  show andThen (andThen x f) g journal = andThen x (fun a => andThen (f a) g) journal
  unfold andThen
  rcases x journal with ⟨_, _ | _ | _⟩ <;> rfl

/-! ## 2. The walk, run -/

/-- The items, one after the other. -/
def runItems (f : Expr → Live Expr) : List Expr → Live (List Expr)
  | [] => ended (.value [])
  | item :: items => do return (← f item) :: (← runItems f items)

/-- The fields, one value after the other. -/
def runFields (f : Expr → Live Expr) : List (String × Expr) → Live (List (String × Expr))
  | [] => ended (.value [])
  | (key, value) :: fields => do return (key, ← f value) :: (← runFields f fields)

variable (definitions : Definitions) (budget : Budget) (exhaustion : Exhaustion)

/-- A symbol, at its place. -/
def runSymbol (run : Expr.Place → Expr → Live Expr) (p : Expr.Place) (name : String)
    (symbol : Expr) :
    Live Expr :=
  if name ∈ p.visited then do stop verdict (.cycle name); return symbol
  else do
    match ← ofExcept (definitions.expansion name) with
    | none => return symbol
    | some expanded =>
      if budget.passes ≤ p.depth then
        match exhaustion with
        | .fail => ended (.error (.budgetExceeded budget.passes))
        | .keep => do stop verdict .budget; return symbol
      else if maxResultNesting ≤ p.level then ended (.error .tooDeep)
      else run (p.inside name) expanded

/-- The expansion of an expression, with each stop reported where it happens. -/
def run : Nat → Expr.Place → Expr → Live Expr
  | 0, _, _ => ended .unfinished
  | n + 1, p, e =>
    let below := run n p.below
    match e with
    | .reference name => runSymbol verdict definitions budget exhaustion (run n) p name e
    | .action name => runSymbol verdict definitions budget exhaustion (run n) p name e
    | .member target field => do
      let target ← below target
      match ← ofExcept (target.select field) with
      | none => return .member target field
      | some value => run n p value
    | .binary op left right => do return .binary op (← below left) (← below right)
    | .array items => do return .array (← runItems below items)
    | .object fields => do return .object (← runFields below fields)
    | .similarity inner => do return .similarity (← below inner)
    | .difference inner => do return .difference (← below inner)
    | .foreign shown => ended (.error (.notExpression shown))
    | .null | .bool _ | .number _ | .string _ | .existence => return e

/-! ## 3. Traces played back -/

/-- The stops of a trace, one by one. -/
def playStops : List Stop → Live Unit
  | [] => ended (.value ())
  | s :: stops => do stop verdict s; playStops stops

/-- A trace: its stops, and then its end. -/
def play (trace : Trace α) : Live α := do playStops verdict trace.stops; ended trace.outcome

theorem playStops_append (stops more : List Stop) :
    playStops verdict (stops ++ more) = playStops verdict stops >>= fun _ =>
      playStops verdict more := by
  induction stops with
  | nil => rfl
  | cons s stops ih => rw [List.cons_append, playStops, ih, playStops, bind_bind]

theorem play_value (a : α) : play verdict (.value a) = ended (.value a) := rfl

theorem play_ofExcept (x : Except ResolveError α) : play verdict (.ofExcept x) = ofExcept x := by
  cases x <;> rfl

theorem play_stopped (s : Stop) (a : α) :
    play verdict (.stopped s a) = stop verdict s >>= fun _ => ended (.value a) := by
  show (stop verdict s >>= fun _ => ended (.value ())) >>= (fun _ => ended (.value a)) = _
  rw [bind_bind]
  rfl

/-- What follows a trace is played after it. -/
theorem play_bind (x : Trace α) (f : α → Trace β) :
    play verdict (x >>= f) = play verdict x >>= fun a => play verdict (f a) := by
  obtain ⟨stops, outcome⟩ := x
  unfold play
  rw [bind_bind]
  cases outcome with
  | value a =>
    show playStops verdict (stops ++ (f a).stops) >>= _ = _
    rw [playStops_append, bind_bind]
    rfl
  | error e => rfl
  | unfinished => rfl

theorem runItems_play (f : Expr → Trace Expr) (items : List Expr) :
    runItems (fun e => play verdict (f e)) items = play verdict (Expr.walkItems f items) := by
  induction items with
  | nil => rfl
  | cons item items ih =>
    rw [runItems, Expr.walkItems, ih]
    simp only [play_bind, Trace.pure_eq_value, play_value]
    rfl

theorem runFields_play (f : Expr → Trace Expr) (fields : List (String × Expr)) :
    runFields (fun e => play verdict (f e)) fields = play verdict (Expr.walkFields f fields) := by
  induction fields with
  | nil => rfl
  | cons field fields ih =>
    obtain ⟨key, value⟩ := field
    rw [runFields, Expr.walkFields, ih]
    simp only [play_bind, Trace.pure_eq_value, play_value]
    rfl

theorem runSymbol_play (walk : Expr.Place → Expr → Trace Expr) (p : Expr.Place) (name : String)
    (symbol : Expr) :
    runSymbol verdict definitions budget exhaustion (fun p e => play verdict (walk p e))
      p name symbol =
      play verdict (Expr.walkSymbol definitions budget exhaustion walk p name symbol) := by
  unfold runSymbol Expr.walkSymbol
  split
  · exact (play_stopped verdict _ _).symm
  · rw [play_bind, play_ofExcept]
    refine congrArg _ (funext fun found => ?_)
    cases found with
    | none => rfl
    | some expanded =>
      dsimp only
      split
      · cases exhaustion with
        | fail => rfl
        | keep => exact (play_stopped verdict _ _).symm
      · split <;> rfl

/-- **Running a walk is playing its trace.** -/
theorem run_eq_play (n : Nat) (p : Expr.Place) (e : Expr) :
    run verdict definitions budget exhaustion n p e =
      play verdict (Expr.walk definitions budget exhaustion n p e) := by
  induction n generalizing p e with
  | zero => rfl
  | succ n ih =>
    -- the nested runs are plays of the nested walks, so each step can be rewritten as a play
    have hrun : run verdict definitions budget exhaustion n =
        fun p e => play verdict (Expr.walk definitions budget exhaustion n p e) :=
      funext fun p => funext fun e => ih p e
    cases e with
    | reference name => rw [run, hrun]; exact runSymbol_play ..
    | action name => rw [run, hrun]; exact runSymbol_play ..
    | member target field =>
      rw [run, hrun, Expr.walk_member, play_bind]
      refine congrArg _ (funext fun t => ?_)
      rw [play_bind, play_ofExcept]
      refine congrArg _ (funext fun picked => ?_)
      cases picked <;> rfl
    | array items =>
      simp only [run, hrun, Expr.walk, runItems_play, play_bind, Trace.pure_eq_value, play_value]
      rfl
    | object fields =>
      simp only [run, hrun, Expr.walk, runFields_play, play_bind, Trace.pure_eq_value, play_value]
      rfl
    | binary op left right =>
      simp only [run, hrun, Expr.walk, play_bind, Trace.pure_eq_value, play_value]
      rfl
    | similarity inner =>
      simp only [run, hrun, Expr.walk, play_bind, Trace.pure_eq_value, play_value]
      rfl
    | difference inner =>
      simp only [run, hrun, Expr.walk, play_bind, Trace.pure_eq_value, play_value]
      rfl
    | _ => rfl

/-! ## 4. What is seen -/

/-- The warnings and the outcome of a run that starts with a journal. -/
def seen (x : Live Expr) (journal : Journal) : Resolution :=
  ⟨(x journal).1.warnings, (x journal).2⟩

/-- What a report adds to the warnings that there are. -/
def reportAfter (outcome : Outcome Expr) (written ws : List Warning) : Resolution :=
  ⟨written ++ (Resolution.report verdict outcome ws).warnings,
    (Resolution.report verdict outcome ws).outcome⟩

/-- What a trace is still worth a warning for, after what the journal holds. -/
def due (passes : Nat) (journal : Journal) (trace : Trace Expr) : List Warning :=
  (Resolution.cycles journal.met trace.stops).map Warning.cycle ++
    match trace.outcome with
    | .value result =>
      if journal.spent = true ∨ Stop.budget ∈ trace.stops then [.budget passes result] else []
    | _ => []

variable {verdict} {passes : Nat} {outcome : Outcome Expr} {journal : Journal}

/-- A warning is seen before what follows it, or ends the run. -/
theorem seen_emit {w : Warning} {rest : Live Expr} {ws : List Warning}
    (h : ∀ warnings, seen rest { journal with warnings } =
      reportAfter verdict outcome warnings ws) :
    seen (emit verdict w >>= fun _ => rest) journal =
      reportAfter verdict outcome journal.warnings (w :: ws) := by
  show seen (andThen (emit verdict w) fun _ => rest) journal = _
  -- dropped, raised or reported: a raised warning ends the run, the others let the rest go on
  unfold reportAfter Resolution.report
  cases hv : verdict w.code with
  | drop =>
    have hrun : andThen (emit verdict w) (fun _ => rest) journal = rest journal := by
      simp only [andThen, emit, hv]
    rw [seen, hrun]
    exact h journal.warnings
  | raise => simp only [seen, andThen, emit, hv, List.append_nil]
  | report =>
    have hrun : andThen (emit verdict w) (fun _ => rest) journal =
        rest { journal with warnings := journal.warnings ++ [w] } := by
      simp only [andThen, emit, hv]
    have hrest := h (journal.warnings ++ [w])
    rw [reportAfter, List.append_assoc] at hrest
    rw [seen, hrun]
    exact hrest

/-- At the end of a trace only the budget is still to be warned of. -/
theorem seen_close :
    seen (ended outcome >>= close verdict passes) journal =
      reportAfter verdict outcome journal.warnings (due passes journal ⟨[], outcome⟩) := by
  have hnone (journal : Journal) :
      seen (ended outcome) journal = reportAfter verdict outcome journal.warnings [] := by
    simp [seen, ended, reportAfter, Resolution.report]
  cases outcome with
  | value result =>
    rw [ended_value_bind]
    by_cases hspent : journal.spent = true
    · have hclose : seen (close verdict passes result) journal =
          seen (emit verdict (.budget passes result) >>= fun _ =>
            ended (.value result)) journal := by
        unfold seen close
        rw [if_pos hspent]
        rfl
      rw [hclose, seen_emit fun warnings => hnone _]
      simp [due, Resolution.cycles, hspent]
    · have hclose : seen (close verdict passes result) journal =
          seen (ended (.value result)) journal := by
        unfold seen close
        rw [if_neg hspent]
        rfl
      rw [hclose, hnone]
      simp [due, Resolution.cycles, hspent]
  | error e => exact hnone journal
  | unfinished => exact hnone journal

/-- At a name that was met nothing happens. -/
theorem seen_stop_met {name : String} {rest : Live Expr} (h : name ∈ journal.met) :
    seen (stop verdict (.cycle name) >>= fun _ => rest) journal = seen rest journal := by
  have hstop : stop verdict (.cycle name) journal = (journal, .value ()) := if_pos h
  show seen (andThen (stop verdict (.cycle name)) fun _ => rest) journal = _
  simp only [seen, andThen, hstop]

/-- A new name is written down and warned of. -/
theorem seen_stop_new {name : String} {rest : Live Expr} (h : name ∉ journal.met) :
    seen (stop verdict (.cycle name) >>= fun _ => rest) journal =
      seen (emit verdict (.cycle name) >>= fun _ => rest)
        { journal with met := name :: journal.met } := by
  have hstop : stop verdict (.cycle name) journal =
      emit verdict (.cycle name) { journal with met := name :: journal.met } := if_neg h
  show seen (andThen (stop verdict (.cycle name)) fun _ => rest) journal =
    seen (andThen (emit verdict (.cycle name)) fun _ => rest)
      { journal with met := name :: journal.met }
  simp only [seen, andThen, hstop]

theorem play_cons (s : Stop) (stops : List Stop) (outcome : Outcome α) :
    play verdict ⟨s :: stops, outcome⟩ = stop verdict s >>= fun _ =>
      play verdict ⟨stops, outcome⟩ :=
  bind_bind ..

/-- A trace that is played back and closed shows what its report makes of the warnings
    that are due. -/
theorem seen_play (trace : Trace Expr) (journal : Journal) :
    seen (play verdict trace >>= close verdict passes) journal =
      reportAfter verdict trace.outcome journal.warnings (due passes journal trace) := by
  obtain ⟨stops, outcome⟩ := trace
  -- on the stops: the journal carries the names met so far
  induction stops generalizing journal with
  | nil => exact seen_close
  | cons s stops ih =>
    rw [play_cons, bind_bind]
    cases s with
    | budget =>
      have hdue : due passes journal ⟨.budget :: stops, outcome⟩ =
          due passes { journal with spent := true } ⟨stops, outcome⟩ := by
        simp [due, Resolution.cycles]
      rw [hdue]
      exact ih { journal with spent := true }
    | cycle name =>
      by_cases hmet : name ∈ journal.met
      · have hdue : due passes journal ⟨.cycle name :: stops, outcome⟩ =
            due passes journal ⟨stops, outcome⟩ := by
          simp [due, Resolution.cycles, hmet]
        rw [seen_stop_met hmet, hdue]
        exact ih journal
      · have hdue : due passes journal ⟨.cycle name :: stops, outcome⟩ =
            .cycle name :: due passes { journal with met := name :: journal.met }
              ⟨stops, outcome⟩ := by
          simp [due, Resolution.cycles, hmet]
        rw [seen_stop_new hmet, hdue]
        exact seen_emit fun warnings => ih { journal with met := name :: journal.met, warnings }

end Live

namespace Expr

/-- Deep resolution that reports on the way, nested at most so many times. -/
def resolveLive (nesting : Nat) (definitions : Definitions) (settings : Settings) (e : Expr) :
    Resolution :=
  Live.seen (do
    let result ← Live.run settings.verdict definitions settings.budget settings.exhaustion
      nesting .root e
    Live.close settings.verdict settings.budget.passes result) {}

/-- **Reports made on the way are those read off the trace**: with any policy, the warnings and the
    outcome are the same, a warning that breaks the walk off included. -/
theorem resolveLive_eq_resolveDeep (n : Nat) (definitions : Definitions) (settings : Settings)
    (e : Expr) : e.resolveLive n definitions settings = e.resolveDeep n definitions settings := by
  unfold resolveLive resolveDeep
  rw [Live.run_eq_play]
  refine (Live.seen_play _ {}).trans ?_
  have hdue (trace : Trace Expr) : Live.due settings.budget.passes {} trace =
      Resolution.warningsOf settings.budget.passes trace := by
    obtain ⟨stops, outcome⟩ := trace
    cases outcome <;> simp [Live.due, Resolution.warningsOf]
  rw [hdue, Live.reportAfter]
  exact congrArg₂ Resolution.mk (List.nil_append _) rfl

end Expr

end Sigil
