import Sigil.Proofs.Resolve.Reach

/-!
# Two walks compared

Two walks of one expression may differ in what they know: the definitions, the budget, the place
where they start. They go through the same nodes all the same, and come apart at symbols only. So a
relation between traces that carries over from the parts of a composition to the whole (`Carries`)
holds between the two walks as soon as it holds at the symbols (`Abreast.walk`).

Such relations are equality, to be the same unless the first trace ends in a certain fault
(`Unless`), and to be the same value without a stop if the first trace is one (`Keeps`).
-/

namespace Sigil

namespace Trace

variable {α β : Type}

/-! ## 1. Relations between traces -/

/-- A relation between traces that holds of compositions if it holds of their parts. Where the
    budget did not run out, it holds between a trace and itself. -/
structure Carries (rel : ∀ {α : Type}, Trace α → Trace α → Prop) : Prop where
  refl : ∀ {α : Type} {x : Trace α}, .budget ∉ x.stops → rel x x
  bind : ∀ {α β : Type} {x y : Trace α} {f g : α → Trace β}, rel x y →
    (∀ a, x.outcome = .value a → rel (f a) (g a)) → rel (x >>= f) (y >>= g)

/-- A trace without a stop is related to itself. -/
theorem Carries.silent {rel : ∀ {α : Type}, Trace α → Trace α → Prop}
    (h : Carries rel) {x : Trace α} (hx : x.stops = []) : rel x x := h.refl (hx ▸ List.not_mem_nil)

theorem bind_congr {x : Trace α} {f g : α → Trace β} (h : ∀ a, x.outcome = .value a → f a = g a) :
    x >>= f = x >>= g := by
  obtain ⟨stops, outcome⟩ := x
  cases outcome with
  | value a => simp only [bind_eq_andThen, andThen, h a rfl]
  | error e => rfl
  | unfinished => rfl

theorem carries_eq : Carries Eq where
  refl _ := rfl
  bind := by
    rintro α β x _ f g rfl hfg
    exact bind_congr hfg

/-- The second trace is the first, unless that ends in this fault. -/
def Unless (fault : ResolveError) (x y : Trace α) : Prop := x.outcome ≠ .error fault → y = x

theorem carries_unless (fault : ResolveError) : Carries (Unless fault) where
  refl _ _ := rfl
  bind := by
    intro α β x y f g hxy hfg hbind
    rw [bind_outcome] at hbind
    have hx : x.outcome ≠ .error fault := fun h => hbind (by rw [h])
    rw [hxy hx]
    refine bind_congr fun a ha => hfg a ha fun hf => hbind ?_
    rw [ha]
    exact hf

/-- The second trace is the same value without a stop, if the first is one. -/
def Keeps (x y : Trace α) : Prop := ∀ a, x = value a → y = value a

theorem carries_keeps : Carries Keeps where
  refl _ _ h := h
  bind := by
    intro α β x y f g hxy hfg b hbind
    obtain ⟨a, rfl, hf⟩ := bind_eq_value_iff.mp hbind
    rw [hxy a rfl, value_bind]
    exact hfg a rfl b hf

end Trace

namespace Expr

open Trace

/-! ## 2. Symbols -/

/-- A symbol that is met for the first time, and its definition: what the budget and
    the level allow. -/
def walkFound (budget : Budget) (exhaustion : Exhaustion)
    (walk : Place → Expr → Trace Expr) (p : Place)
    (name : String) (symbol expanded : Expr) : Trace Expr :=
  if budget.passes ≤ p.depth then
    match exhaustion with
    | .fail => error (.budgetExceeded budget.passes)
    | .keep => stopped .budget symbol
  else if maxResultNesting ≤ p.level then error .tooDeep
  else walk (p.inside name) expanded

theorem walkSymbol_seen {definitions : Definitions} {budget : Budget} {exhaustion : Exhaustion}
    {f : Place → Expr → Trace Expr} {p : Place} {name : String}
    (seen : name ∈ p.visited) (e : Expr) :
    walkSymbol definitions budget exhaustion f p name e = stopped (.cycle name) e := if_pos seen

theorem walkSymbol_new {definitions : Definitions} {budget : Budget} {exhaustion : Exhaustion}
    {f : Place → Expr → Trace Expr} {p : Place} {name : String}
    (new : name ∉ p.visited) (e : Expr) :
    walkSymbol definitions budget exhaustion f p name e =
      ofExcept (definitions.expansion name) >>= fun found => match found with
        | none => value e
        | some d => walkFound budget exhaustion f p name e d := if_neg new

/-! ## 3. Walks -/

/-- Two walks that go abreast. They may stand at any places beside each other, and a name that is
    new to the first is new to the second. All names that they can meet lie in a closed set where
    they find the same definitions. -/
structure Abreast (rel : ∀ {α : Type}, Trace α → Trace α → Prop) (S : String → Prop)
    (beside : Place → Place → Prop) (definitions definitions' : Definitions)
    (budget budget' : Budget) (exhaustion exhaustion' : Exhaustion) : Prop where
  carries : Carries rel
  closed : definitions.Closed S
  agree : ∀ {name}, S name → definitions'.expansion name = definitions.expansion name
  below : ∀ {p q}, beside p q → beside p.below q.below
  inside : ∀ {p q} (name), beside p q → beside (p.inside name) (q.inside name)
  new : ∀ {p q name}, beside p q → name ∉ p.visited → name ∉ q.visited
  seen : ∀ {g : Place → Expr → Trace Expr} {p q name e}, beside p q → name ∈ p.visited →
    rel (stopped (.cycle name) e) (walkSymbol definitions' budget' exhaustion' g q name e)
  found : ∀ {f g : Place → Expr → Trace Expr} {p q name e d}, beside p q →
    rel (f (p.inside name) d) (g (q.inside name) d) →
    rel (walkFound budget exhaustion f p name e d) (walkFound budget' exhaustion' g q name e d)

section

variable {rel : ∀ {α : Type}, Trace α → Trace α → Prop} {S : String → Prop}
  {beside : Place → Place → Prop} {definitions definitions' : Definitions} {budget budget' : Budget}
  {exhaustion exhaustion' : Exhaustion}

/-- Between places inside of the same names, both walks stop at a name that is not new. -/
theorem seen_of_visited_eq (h : Carries rel) {g : Place → Expr → Trace Expr} {p q : Place}
    {name : String} {e : Expr} (visited : q.visited = p.visited) (seen : name ∈ p.visited) :
    rel (stopped (.cycle name) e) (walkSymbol definitions' budget' exhaustion' g q name e) := by
  rw [walkSymbol_seen (visited ▸ seen)]
  refine h.refl fun hstop => ?_
  cases List.mem_singleton.mp hstop

/-- Walks that start at the same place stay at the same places, so they can come apart only at what
    is found for a new name. -/
theorem abreast_of_same_place (carries : Carries rel) (closed : definitions.Closed S)
    (agree : ∀ {name}, S name → definitions'.expansion name = definitions.expansion name)
    (found : ∀ {f g : Place → Expr → Trace Expr} {p name e d},
      rel (f (p.inside name) d) (g (p.inside name) d) →
      rel (walkFound budget exhaustion f p name e d) (walkFound budget' exhaustion' g p name e d)) :
    Abreast rel S Eq definitions definitions' budget budget' exhaustion exhaustion' where
  carries := carries
  closed := closed
  agree := agree
  below := congrArg Place.below
  inside name := congrArg (Place.inside · name)
  new hpq hnew := hpq ▸ hnew
  seen hpq hseen := seen_of_visited_eq carries (congrArg Place.visited hpq.symm) hseen
  found := by
    rintro f g p _ name e d rfl hwalk
    exact found hwalk

theorem carries_walkItems (h : Carries rel) {f g : Expr → Trace Expr} {cs : List Expr}
    (hcs : ∀ c ∈ cs, rel (f c) (g c)) : rel (walkItems f cs) (walkItems g cs) := by
  induction cs with
  | nil => exact h.silent rfl
  | cons c cs ih =>
    obtain ⟨hc, hcs⟩ := List.forall_mem_cons.mp hcs
    exact h.bind hc fun _ _ => h.bind (ih hcs) fun _ _ => h.silent rfl

/-- **Walks that go abreast are related.** -/
theorem Abreast.walk
    (h : Abreast rel S beside definitions definitions' budget budget' exhaustion exhaustion')
    (n : Nat) {p q : Place} (hpq : beside p q) {e : Expr} (he : e.Confined S) :
    rel (walk definitions budget exhaustion n p e)
      (walk definitions' budget' exhaustion' n q e) := by
  -- on the nesting: the relation is kept by sequencing, and the names met are among the agreed ones
  induction n generalizing p q e with
  | zero => exact h.carries.silent rfl
  | succ n ih =>
    cases e using shape_induction with
    | symbol e name hname =>
      have hin : S name := (confined_of_name? hname).mp he
      rw [walk_symbol hname, walk_symbol hname]
      by_cases hv : name ∈ p.visited
      · rw [walkSymbol_seen hv]
        exact h.seen hpq hv
      · rw [walkSymbol_new hv, walkSymbol_new (h.new hpq hv), h.agree hin]
        refine h.carries.bind (h.carries.silent (ofExcept_stops _)) fun found hfound => ?_
        cases found with
        | none => exact h.carries.silent rfl
        | some d =>
          have hd : d.Confined S :=
            .of_definition h.closed (ofExcept_outcome_eq_value_iff.mp hfound) hin
          exact h.found hpq (ih (h.inside name hpq) hd)
    | member target field =>
      have htarget : target.Confined S := he.child (List.mem_singleton_self _)
      rw [walk_member, walk_member]
      refine h.carries.bind (ih (h.below hpq) htarget) fun t ht => ?_
      refine h.carries.bind (h.carries.silent (ofExcept_stops _)) fun picked hpick => ?_
      cases picked with
      | none => exact h.carries.silent rfl
      | some picked =>
        -- what is picked is part of a result, and results mention agreed names only
        have hchild : picked ∈ t.children :=
          mem_children_of_select (ofExcept_outcome_eq_value_iff.mp hpick)
        exact ih hpq ((confined_of_walk h.closed htarget ht).child hchild)
    | foreign shown => exact h.carries.silent rfl
    | plain e hplain =>
      rw [walk_plain hplain, walk_plain hplain]
      refine h.carries.bind (carries_walkItems h.carries fun c hc => ?_) fun _ _ =>
        h.carries.silent rfl
      exact ih (h.below hpq) (he.child hc)

end

end Expr

end Sigil
