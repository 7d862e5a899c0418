import Sigil.Proofs.Resolve.Access
import Sigil.Resolve.Deep

/-!
# Traces, and one step of a walk

How traces compose, and what a walk does at each kind of node: at a symbol it asks `walkSymbol`, at
a member access it picks from the walked target, and at a plain node it walks the children one level
further down and rebuilds the node over what comes out.

* Where a walk ends in a value, its stops are known: at a symbol by how it ends (`SymbolValue`), and
  at the other nodes by the walks that they are made of (`walk_member_stops`, `walk_plain_stops`).
* What goes with the steps of such a walk goes with the whole of it (`walk_induction`).
* `Extends` compares a walk with one that may nest deeper: where the first one ends, the second is
  the same trace. `walk_extends` says that this holds of walks of the same expression, so more
  nesting never changes an answer (`walk_eq_of_le`).
-/

namespace Sigil

namespace Trace

variable {α β γ : Type}

/-! ## 1. Composition -/

@[simp] theorem pure_eq_value (a : α) : (pure a : Trace α) = value a := rfl

theorem bind_eq_andThen (x : Trace α) (f : α → Trace β) : x >>= f = x.andThen f := rfl

@[simp] theorem value_bind (a : α) (f : α → Trace β) : value a >>= f = f a := by
  simp [bind_eq_andThen, andThen, value]

theorem bind_value (x : Trace α) : x >>= value = x := by
  obtain ⟨stops, outcome⟩ := x
  cases outcome <;> simp [bind_eq_andThen, andThen, value]

@[simp] theorem bind_bind (x : Trace α) (f : α → Trace β) (g : β → Trace γ) :
    x >>= f >>= g = x >>= fun a => f a >>= g := by
  obtain ⟨stops, outcome⟩ := x
  cases outcome with
  | value a =>
    simp only [bind_eq_andThen, andThen]
    cases (f a).outcome <;> simp
  | error e => rfl
  | unfinished => rfl

/-- A composition ends in a value if its first part does, and its second part from there. -/
theorem bind_outcome (x : Trace α) (f : α → Trace β) :
    (x >>= f).outcome = match x.outcome with
      | .value a => (f a).outcome
      | .error e => .error e
      | .unfinished => .unfinished := by
  obtain ⟨stops, outcome⟩ := x
  cases outcome <;> rfl

theorem bind_outcome_eq_value_iff {x : Trace α} {f : α → Trace β} {b : β} :
    (x >>= f).outcome = .value b ↔ ∃ a, x.outcome = .value a ∧ (f a).outcome = .value b := by
  obtain ⟨stops, outcome⟩ := x
  cases outcome <;> simp [bind_eq_andThen, andThen]

/-- A composition stops where its first part stops, and then where its second part does. -/
theorem bind_stops {x : Trace α} {a : α} (h : x.outcome = .value a) (f : α → Trace β) :
    (x >>= f).stops = x.stops ++ (f a).stops := by
  simp only [bind_eq_andThen, andThen, h]

/-- A composition is a value without a stop if both parts are. -/
theorem bind_eq_value_iff {x : Trace α} {f : α → Trace β} {b : β} :
    x >>= f = value b ↔ ∃ a, x = value a ∧ f a = value b := by
  obtain ⟨stops, outcome⟩ := x
  cases outcome with
  | value a =>
    simp only [bind_eq_andThen, andThen, value, mk.injEq, List.append_eq_nil_iff,
      Outcome.value.injEq]
    constructor
    · rintro ⟨⟨rfl, hs⟩, ho⟩
      exact ⟨a, ⟨rfl, rfl⟩, by cases h : f a; simp_all⟩
    · rintro ⟨_, ⟨rfl, rfl⟩, hf⟩
      simp [hf]
  | error e => simp [bind_eq_andThen, andThen, value]
  | unfinished => simp [bind_eq_andThen, andThen, value]

theorem eq_value_iff {x : Trace α} {a : α} : x = value a ↔ x.stops = [] ∧ x.outcome = .value a := by
  cases x
  simp [value]

theorem value_injective {a b : α} (h : value a = value b) : a = b := by
  simpa [value] using h

/-- What stands in for a choice between a value and a fault leaves no stop. -/
theorem ofExcept_eq_value_iff {x : Except ResolveError α} {a : α} :
    ofExcept x = value a ↔ x = .ok a := by
  cases x <;> simp [ofExcept, value, error]

theorem ofExcept_outcome_eq_value_iff {x : Except ResolveError α} {a : α} :
    (ofExcept x).outcome = .value a ↔ x = .ok a := by
  cases x <;> simp [ofExcept, value, error]

theorem ofExcept_stops (x : Except ResolveError α) : (ofExcept x).stops = [] := by
  cases x <;> rfl

/-! ## 2. More nesting -/

/-- Where the first trace ends, the second is the same. -/
def Extends (x y : Trace α) : Prop := x.outcome ≠ .unfinished → y = x

theorem extends_refl (x : Trace α) : Extends x x := fun _ => rfl

theorem extends_bind {x y : Trace α} {f g : α → Trace β} (hxy : Extends x y)
    (hfg : ∀ a, Extends (f a) (g a)) : Extends (x >>= f) (y >>= g) := by
  intro h
  have hx : x.outcome ≠ .unfinished := fun e => h (by simp [bind_eq_andThen, andThen, e])
  rw [hxy hx]
  cases ho : x.outcome with
  | value a =>
    have hf : (f a).outcome ≠ .unfinished := fun e => h (by simp [bind_eq_andThen, andThen, ho, e])
    simp only [bind_eq_andThen, andThen, ho, hfg a hf]
  | error e => simp only [bind_eq_andThen, andThen, ho]
  | unfinished => exact absurd ho hx

end Trace

namespace Expr

open Trace

/-! ## 3. Rows of walks -/

variable {f g : Expr → Trace Expr}

/-- The values of fields are walked as a row of items. -/
theorem walkFields_eq (f : Expr → Trace Expr) (fields : List (String × Expr)) :
    walkFields f fields =
      walkItems f (fields.map Prod.snd) >>= fun values =>
        value ((fields.map Prod.fst).zip values) := by
  induction fields with
  | nil => simp [walkFields, walkItems]
  | cons field fields ih =>
    obtain ⟨key, child⟩ := field
    simp [walkFields, walkItems, ih]

theorem walkItems_outcome_eq_value_iff {cs rs : List Expr} :
    (walkItems f cs).outcome = .value rs ↔
      List.Forall₂ (fun c r => (f c).outcome = .value r) cs rs := by
  induction cs generalizing rs with
  | nil => simp [walkItems, value, eq_comm]
  | cons c cs ih =>
    simp only [walkItems, pure_eq_value, bind_outcome_eq_value_iff, ih, List.forall₂_cons_left_iff]
    constructor
    · rintro ⟨r, hr, rs', hrs, h⟩
      cases h
      exact ⟨r, rs', hr, hrs, rfl⟩
    · rintro ⟨r, rs', hr, hrs, rfl⟩
      exact ⟨r, hr, rs', hrs, rfl⟩

theorem walkItems_eq_value_iff {cs rs : List Expr} :
    walkItems f cs = value rs ↔ List.Forall₂ (fun c r => f c = value r) cs rs := by
  induction cs generalizing rs with
  | nil => simp [walkItems, value, eq_comm]
  | cons c cs ih =>
    simp only [walkItems, pure_eq_value, bind_eq_value_iff, ih, List.forall₂_cons_left_iff]
    constructor
    · rintro ⟨r, hr, rs', hrs, h⟩
      exact ⟨r, rs', hr, hrs, (value_injective h).symm⟩
    · rintro ⟨r, rs', hr, hrs, rfl⟩
      exact ⟨r, hr, rs', hrs, rfl⟩

/-- A row of walks that ends in values stops where each of them does, in turn. -/
theorem walkItems_stops {cs rs : List Expr} (h : (walkItems f cs).outcome = .value rs) :
    (walkItems f cs).stops = cs.flatMap fun c => (f c).stops := by
  induction cs generalizing rs with
  | nil => rfl
  | cons c cs ih =>
    obtain ⟨r, rs', hr, hrs, rfl⟩ :=
      List.forall₂_cons_left_iff.mp (walkItems_outcome_eq_value_iff.mp h)
    have hrest : (walkItems f cs).outcome = .value rs' := walkItems_outcome_eq_value_iff.mpr hrs
    rw [walkItems, bind_stops hr, bind_stops hrest, ih hrest, pure_eq_value, List.flatMap_cons]
    simp [value]

theorem extends_walkItems (h : ∀ e, Extends (f e) (g e)) (cs : List Expr) :
    Extends (walkItems f cs) (walkItems g cs) := by
  induction cs with
  | nil => exact extends_refl _
  | cons c cs ih =>
    exact extends_bind (h c) fun r => extends_bind ih fun rs => extends_refl _

/-! ## 4. One step of a walk -/

variable {definitions : Definitions} {budget : Budget} {exhaustion : Exhaustion}

theorem walk_symbol {e : Expr} {name : String} (h : e.name? = some name) (n : Nat) (p : Place) :
    walk definitions budget exhaustion (n + 1) p e =
      walkSymbol definitions budget exhaustion (walk definitions budget exhaustion n) p name e := by
  rcases eq_symbol_of_name? h with rfl | rfl <;> rfl

/-- What may come of a symbol, `f` walking the definition. -/
inductive SymbolStep (definitions : Definitions) (budget : Budget) (exhaustion : Exhaustion)
    (f : Place → Expr → Trace Expr) (p : Place) (name : String) (e : Expr) (trace : Trace Expr) :
    Prop where
  /-- The name is on a cycle. -/
  | cycle (seen : name ∈ p.visited) (result : trace = stopped (.cycle name) e)
  /-- The definition cannot be read. -/
  | broken (cause : ResolveError) (new : name ∉ p.visited)
    (expansion : definitions.expansion name = .error cause) (result : trace = error cause)
  /-- There is no definition. -/
  | undefined (new : name ∉ p.visited) (expansion : definitions.expansion name = .ok none)
    (result : trace = value e)
  /-- The budget ran out and the settings ask to fail. -/
  | spent (d : Expr) (new : name ∉ p.visited)
    (expansion : definitions.expansion name = .ok (some d))
    (depth : budget.passes ≤ p.depth) (fail : exhaustion = .fail)
    (result : trace = error (.budgetExceeded budget.passes))
  /-- The budget ran out and the symbol is kept. -/
  | kept (d : Expr) (new : name ∉ p.visited) (expansion : definitions.expansion name = .ok (some d))
    (depth : budget.passes ≤ p.depth) (keep : exhaustion = .keep)
    (result : trace = stopped .budget e)
  /-- The definition would stand too deep in the result. -/
  | tooDeep (d : Expr) (new : name ∉ p.visited)
    (expansion : definitions.expansion name = .ok (some d)) (depth : p.depth < budget.passes)
    (level : maxResultNesting ≤ p.level) (result : trace = error .tooDeep)
  /-- The definition is walked. -/
  | expanded (d : Expr) (new : name ∉ p.visited)
    (expansion : definitions.expansion name = .ok (some d)) (depth : p.depth < budget.passes)
    (level : p.level < maxResultNesting) (result : trace = f (p.inside name) d)

theorem walkSymbol_step {f : Place → Expr → Trace Expr} {p : Place} {name : String} {e : Expr}
    {trace : Trace Expr} (h : walkSymbol definitions budget exhaustion f p name e = trace) :
    SymbolStep definitions budget exhaustion f p name e trace := by
  subst h
  -- the tests of the walk in their order; what is false before is known after
  unfold walkSymbol
  split
  · next seen => exact .cycle seen rfl
  · next new =>
    cases expansion : definitions.expansion name with
    | error cause => exact .broken cause new expansion rfl
    | ok found =>
      simp only [Trace.ofExcept, value_bind]
      cases found with
      | none => exact .undefined new expansion rfl
      | some d =>
        dsimp only
        split
        · next depth =>
          cases exhaustion with
          | fail => exact .spent d new expansion depth rfl rfl
          | keep => exact .kept d new expansion depth rfl rfl
        · next depth =>
          split
          · next level => exact .tooDeep d new expansion (Nat.lt_of_not_le depth) level rfl
          · next level =>
            exact .expanded d new expansion (Nat.lt_of_not_le depth) (Nat.lt_of_not_le level) rfl

/-- The trace of a symbol is the one that its step gives. -/
theorem SymbolStep.eq {f : Place → Expr → Trace Expr} {p : Place} {name : String} {e : Expr}
    {trace : Trace Expr} (h : SymbolStep definitions budget exhaustion f p name e trace) :
    walkSymbol definitions budget exhaustion f p name e = trace := by
  unfold walkSymbol
  cases h with
  | cycle seen result => rw [if_pos seen, result]
  | broken cause new expansion result =>
    rw [if_neg new, expansion, result]
    rfl
  | undefined new expansion result =>
    rw [if_neg new, expansion, result]
    rfl
  | spent d new expansion depth fail result =>
    rw [if_neg new, expansion, result, fail]
    exact if_pos depth
  | kept d new expansion depth keep result =>
    rw [if_neg new, expansion, result, keep]
    exact if_pos depth
  | tooDeep d new expansion depth level result =>
    rw [if_neg new, expansion, result]
    exact (if_neg (Nat.not_le_of_lt depth)).trans (if_pos level)
  | expanded d new expansion depth level result =>
    rw [if_neg new, expansion, result]
    exact (if_neg (Nat.not_le_of_lt depth)).trans (if_neg (Nat.not_le_of_lt level))

/-- How a symbol may end in a value, with these stops on the way. -/
inductive SymbolValue (definitions : Definitions) (budget : Budget)
    (exhaustion : Exhaustion) (n : Nat)
    (p : Place) (name : String) (e r : Expr) (stops : List Stop) : Prop where
  /-- The name is on a cycle. -/
  | cycle (seen : name ∈ p.visited) (stays : r = e) (stop : stops = [.cycle name])
  /-- There is no definition. -/
  | undefined (new : name ∉ p.visited) (expansion : definitions.expansion name = .ok none)
    (stays : r = e) (silent : stops = [])
  /-- The budget ran out. -/
  | kept (d : Expr) (new : name ∉ p.visited) (expansion : definitions.expansion name = .ok (some d))
    (depth : budget.passes ≤ p.depth) (stays : r = e) (stop : stops = [.budget])
  /-- The definition ends in the value. -/
  | expanded (d : Expr) (new : name ∉ p.visited)
    (expansion : definitions.expansion name = .ok (some d)) (depth : p.depth < budget.passes)
    (level : p.level < maxResultNesting)
    (inside : (walk definitions budget exhaustion n (p.inside name) d).outcome = .value r)
    (same : stops = (walk definitions budget exhaustion n (p.inside name) d).stops)

theorem symbolValue_of_walk {e r : Expr} {name : String} (hname : e.name? = some name) {n : Nat}
    {p : Place} (h : (walk definitions budget exhaustion (n + 1) p e).outcome = .value r) :
    SymbolValue definitions budget exhaustion n p name e r
      (walk definitions budget exhaustion (n + 1) p e).stops := by
  rw [walk_symbol hname] at h ⊢
  -- three ways leave the symbol standing, one goes into the definition, three have no value
  cases walkSymbol_step (f := walk definitions budget exhaustion n) rfl with
  | cycle seen result =>
    rw [result] at h ⊢
    cases h
    exact .cycle seen rfl rfl
  | undefined new expansion result =>
    rw [result] at h ⊢
    cases h
    exact .undefined new expansion rfl rfl
  | kept d new expansion depth _ result =>
    rw [result] at h ⊢
    cases h
    exact .kept d new expansion depth rfl rfl
  | expanded d new expansion depth level result =>
    rw [result] at h ⊢
    exact .expanded d new expansion depth level h rfl
  | broken _ _ _ result => rw [result] at h; cases h
  | spent _ _ _ _ _ result => rw [result] at h; cases h
  | tooDeep _ _ _ _ _ result => rw [result] at h; cases h

/-- A symbol that ends in a value stays as it is, or its definition ends in that value. -/
theorem walk_symbol_outcome {e r : Expr} {name : String} (hname : e.name? = some name) {n : Nat}
    {p : Place} (h : (walk definitions budget exhaustion (n + 1) p e).outcome = .value r) :
    r = e ∨ ∃ d, definitions.expansion name = .ok (some d) ∧
      (walk definitions budget exhaustion n (p.inside name) d).outcome = .value r := by
  cases symbolValue_of_walk hname h with
  | cycle _ stays _ => exact .inl stays
  | undefined _ _ stays _ => exact .inl stays
  | kept _ _ _ _ stays _ => exact .inl stays
  | expanded d _ expansion _ _ inside _ => exact .inr ⟨d, expansion, inside⟩

theorem walk_member (n : Nat) (p : Place) (target : Expr) (field : String) :
    walk definitions budget exhaustion (n + 1) p (.member target field) =
      walk definitions budget exhaustion n p.below target >>= fun target =>
        ofExcept (target.select field) >>= fun picked => match picked with
          | none => value (.member target field)
          | some picked => walk definitions budget exhaustion n p picked := rfl

/-- An access ends in a value where its target does: it stays on a symbolic one, and from an object
    it picks a value that is walked once more. -/
theorem walk_member_outcome_iff {n : Nat} {p : Place} {target r : Expr} {field : String} :
    (walk definitions budget exhaustion (n + 1) p (.member target field)).outcome = .value r ↔
      ∃ t, (walk definitions budget exhaustion n p.below target).outcome = .value t ∧
        ((t.isSymbolic = true ∧ r = .member t field) ∨
          ∃ picked, t.select field = .ok (some picked) ∧
            (walk definitions budget exhaustion n p picked).outcome = .value r) := by
  rw [walk_member, bind_outcome_eq_value_iff]
  refine exists_congr fun t => and_congr_right fun _ => ?_
  rw [bind_outcome_eq_value_iff, Option.exists]
  simp only [ofExcept_outcome_eq_value_iff, select_eq_none_iff]
  exact or_congr (and_congr_right fun _ => by simp [value, eq_comm]) Iff.rfl

theorem walk_member_eq_value_iff {n : Nat} {p : Place} {target r : Expr} {field : String} :
    walk definitions budget exhaustion (n + 1) p (.member target field) = value r ↔
      ∃ t, walk definitions budget exhaustion n p.below target = value t ∧
        ((t.isSymbolic = true ∧ r = .member t field) ∨
          ∃ picked, t.select field = .ok (some picked) ∧
            walk definitions budget exhaustion n p picked = value r) := by
  rw [walk_member, bind_eq_value_iff]
  refine exists_congr fun t => and_congr_right fun _ => ?_
  rw [bind_eq_value_iff, Option.exists]
  simp only [ofExcept_eq_value_iff, select_eq_none_iff]
  exact or_congr (and_congr_right fun _ => by simp [value, eq_comm]) Iff.rfl

/-- Where an access ends in a value, its stops are those of its target, and those of
    what it picks. -/
theorem walk_member_stops {n : Nat} {p : Place} {target r : Expr} {field : String}
    (h : (walk definitions budget exhaustion (n + 1) p (.member target field)).outcome = .value r) :
    ∃ t, (walk definitions budget exhaustion n p.below target).outcome = .value t ∧
      ((r = .member t field ∧
        (walk definitions budget exhaustion (n + 1) p (.member target field)).stops =
          (walk definitions budget exhaustion n p.below target).stops) ∨
        ∃ picked, t.select field = .ok (some picked) ∧
          (walk definitions budget exhaustion n p picked).outcome = .value r ∧
          (walk definitions budget exhaustion (n + 1) p (.member target field)).stops =
            (walk definitions budget exhaustion n p.below target).stops ++
              (walk definitions budget exhaustion n p picked).stops) := by
  rw [walk_member] at h ⊢
  obtain ⟨t, ht, hselect⟩ := bind_outcome_eq_value_iff.mp h
  obtain ⟨picked, hpick, hend⟩ := bind_outcome_eq_value_iff.mp hselect
  refine ⟨t, ht, ?_⟩
  -- the stops of the access are those of the target, then those of what is picked
  rw [bind_stops ht, bind_stops hpick, ofExcept_stops, List.nil_append]
  cases picked with
  | none =>
    cases hend
    exact .inl ⟨rfl, List.append_nil _⟩
  | some picked => exact .inr ⟨picked, ofExcept_outcome_eq_value_iff.mp hpick, hend, rfl⟩

/-- A plain node is rebuilt over its walked children. -/
theorem walk_plain {e : Expr} (h : e.isPlain = true) (n : Nat) (p : Place) :
    walk definitions budget exhaustion (n + 1) p e =
      walkItems (walk definitions budget exhaustion n p.below) e.children >>= fun cs =>
        value (e.rebuild cs) := by
  cases e <;> simp only [isPlain, Bool.false_eq_true] at h <;>
    simp [walk, children, rebuild, walkItems, walkFields_eq]

theorem walk_plain_outcome_iff {e r : Expr} (h : e.isPlain = true) {n : Nat} {p : Place} :
    (walk definitions budget exhaustion (n + 1) p e).outcome = .value r ↔
      ∃ cs, List.Forall₂
          (fun c d => (walk definitions budget exhaustion n p.below c).outcome = .value d)
          e.children cs ∧
        r = e.rebuild cs := by
  rw [walk_plain h, bind_outcome_eq_value_iff]
  simp only [walkItems_outcome_eq_value_iff]
  exact exists_congr fun cs => and_congr_right fun _ => by simp [value, eq_comm]

/-- A node stops where its children stop, one after the other. -/
theorem walk_plain_stops {n : Nat} {p : Place} {e r : Expr} (he : e.isPlain = true)
    (h : (walk definitions budget exhaustion (n + 1) p e).outcome = .value r) :
    (walk definitions budget exhaustion (n + 1) p e).stops =
      e.children.flatMap fun c => (walk definitions budget exhaustion n p.below c).stops := by
  rw [walk_plain he] at h ⊢
  obtain ⟨rs, hrs, -⟩ := bind_outcome_eq_value_iff.mp h
  rw [bind_stops hrs, walkItems_stops hrs]
  exact List.append_nil _

theorem walk_plain_eq_value_iff {e r : Expr} (h : e.isPlain = true) {n : Nat} {p : Place} :
    walk definitions budget exhaustion (n + 1) p e = value r ↔
      ∃ cs, List.Forall₂ (fun c d => walk definitions budget exhaustion n p.below c = value d)
          e.children cs ∧
        r = e.rebuild cs := by
  rw [walk_plain h, bind_eq_value_iff]
  simp only [walkItems_eq_value_iff]
  exact exists_congr fun cs => and_congr_right fun _ => by simp [value, eq_comm]

/-! ## 5. Induction over a walk -/

/-- What goes with each step of a walk that ends in a value goes with the whole walk: a symbol that
    stays, the definition of a symbol, an access that is left on its walked target, an access to
    what it picks from that, and a plain node over its walked children. -/
theorem walk_induction {motive : Place → Expr → Expr → Prop}
    (stays : ∀ {p e name}, e.name? = some name → motive p e e)
    (expanded : ∀ {p e name d r}, e.name? = some name → definitions.expansion name = .ok (some d) →
      p.level < maxResultNesting → motive (p.inside name) d r → motive p e r)
    (left : ∀ {p target field t}, t.isSymbolic = true → motive p.below target t →
      motive p (.member target field) (.member t field))
    (picked : ∀ {p target field t picked r}, t.select field = .ok (some picked) →
      motive p.below target t → motive p picked r → motive p (.member target field) r)
    (plain : ∀ {p e cs}, e.isPlain = true → List.Forall₂ (motive p.below) e.children cs →
      motive p e (e.rebuild cs))
    {n : Nat} {p : Place} {e r : Expr}
    (h : (walk definitions budget exhaustion n p e).outcome = .value r) :
    motive p e r := by
  induction n generalizing p e r with
  | zero => cases h
  | succ n ih =>
    cases e using shape_induction with
    | symbol e name hname =>
      rw [walk_symbol hname] at h
      cases walkSymbol_step (f := walk definitions budget exhaustion n) rfl with
      | expanded d _ expansion _ level result =>
        rw [result] at h
        exact expanded hname expansion level (ih h)
      | cycle _ result => rw [result] at h; cases h; exact stays hname
      | undefined _ _ result => rw [result] at h; cases h; exact stays hname
      | kept _ _ _ _ _ result => rw [result] at h; cases h; exact stays hname
      | broken _ _ _ result => rw [result] at h; cases h
      | spent _ _ _ _ _ result => rw [result] at h; cases h
      | tooDeep _ _ _ _ _ result => rw [result] at h; cases h
    | member target field =>
      obtain ⟨t, ht, ⟨hsymbolic, rfl⟩ | ⟨found, hselect, hfound⟩⟩ := walk_member_outcome_iff.mp h
      · exact left hsymbolic (ih ht)
      · exact picked hselect (ih ht) (ih hfound)
    | foreign shown => cases h
    | plain e he =>
      obtain ⟨cs, hcs, rfl⟩ := (walk_plain_outcome_iff he).mp h
      exact plain he (hcs.imp fun _ _ hc => ih hc)

/-! ## 6. Walks that may nest deeper -/

theorem extends_walkSymbol {f g : Place → Expr → Trace Expr} (h : ∀ p e, Extends (f p e) (g p e))
    (p : Place) (name : String) (e : Expr) :
    Extends (walkSymbol definitions budget exhaustion f p name e)
      (walkSymbol definitions budget exhaustion g p name e) := by
  unfold walkSymbol
  split
  · exact extends_refl _
  · refine extends_bind (extends_refl _) fun expanded => ?_
    cases expanded with
    | none => exact extends_refl _
    | some d =>
      dsimp only
      split
      · exact extends_refl _
      · split
        · exact extends_refl _
        · exact h _ d

/-- One more level of nesting changes no walk that ends. -/
theorem walk_extends (n : Nat) (p : Place) (e : Expr) :
    Extends (walk definitions budget exhaustion n p e)
      (walk definitions budget exhaustion (n + 1) p e) := by
  -- more nesting never changes a walk that has ended
  induction n generalizing p e with
  | zero => exact fun h => absurd rfl h
  | succ n ih =>
    cases e using shape_induction with
    | symbol e name hn =>
      rw [walk_symbol hn, walk_symbol hn]
      exact extends_walkSymbol ih p name e
    | member target field =>
      rw [walk_member, walk_member]
      refine extends_bind (ih _ target) fun t => extends_bind (extends_refl _) fun picked => ?_
      cases picked with
      | none => exact extends_refl _
      | some picked => exact ih p picked
    | foreign shown => exact extends_refl _
    | plain e he =>
      rw [walk_plain he, walk_plain he]
      exact extends_bind (extends_walkItems (ih _) _) fun cs => extends_refl _

/-- A walk that ends is the same at any greater nesting. -/
theorem walk_eq_of_le {n m : Nat} (hnm : n ≤ m) {p : Place} {e : Expr}
    (h : (walk definitions budget exhaustion n p e).outcome ≠ .unfinished) :
    walk definitions budget exhaustion m p e = walk definitions budget exhaustion n p e := by
  induction hnm with
  | refl => rfl
  | step _ ih =>
    rw [walk_extends _ p e (ih ▸ h), ih]

/-- A walk that ends in a value is the same at any greater nesting. -/
theorem walk_eq_of_value {n m : Nat} (hnm : n ≤ m) {p : Place} {e r : Expr}
    (h : (walk definitions budget exhaustion n p e).outcome = .value r) :
    walk definitions budget exhaustion m p e = walk definitions budget exhaustion n p e :=
  walk_eq_of_le hnm fun hend => by cases h.symm.trans hend

end Expr

end Sigil
