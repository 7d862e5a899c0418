import Sigil.Proofs.Resolve.Flat
import Sigil.Proofs.Resolve.Trace
import Sigil.Resolve.Basic

/-!
# Deep resolution is the fixed point of flat resolution

The two ways of resolving never meet on the way: an access picks early in flat resolution, and
in deep resolution only from a target that is expanded to the end. They meet in the tree that
comes out. A tree is inert when neither way has anything left to do in it, and a walk that
never had to stop ends in an inert tree which flat resolution reaches after some steps
(`Settled`, `settled_of_walk`).
-/

namespace Sigil.Expr

open Trace

variable {definitions : Definitions} {budget : Budget} {exhaustion : Exhaustion}

/-! ## 1. Inert trees -/

/-- Nothing is left to do at this node: a symbol has no definition, and what an access should pick
    from is still symbolic. -/
def Still (definitions : Definitions) : Expr → Prop
  | .reference name => definitions.expansion name = .ok none
  | .action name => definitions.expansion name = .ok none
  | .member target _ => target.isSymbolic = true
  | .foreign _ => False
  | _ => True

/-- Nothing is left to do anywhere in the tree. -/
def Inert (definitions : Definitions) (e : Expr) : Prop := e.Every (Still definitions)

theorem inert_symbol_iff {e : Expr} {name : String} (h : e.name? = some name) :
    e.Inert definitions ↔ definitions.expansion name = .ok none := by
  unfold Inert
  rw [every_iff, children_of_name? h]
  rcases eq_symbol_of_name? h with rfl | rfl <;> simp [Still]

theorem inert_member_iff {target : Expr} {field : String} :
    (member target field).Inert definitions ↔
      target.isSymbolic = true ∧ target.Inert definitions := by
  unfold Inert
  rw [every_iff]
  simp [Still, children]

theorem inert_plain_iff {e : Expr} (h : e.isPlain = true) :
    e.Inert definitions ↔ ∀ c ∈ e.children, c.Inert definitions := by
  have hs : Still definitions e := by cases e <;> trivial
  exact every_iff.trans (and_iff_right hs)

theorem not_inert_foreign (shown : String) : ¬ (foreign shown).Inert definitions :=
  fun h => h.self

/-- Flat resolution leaves an inert tree alone. -/
theorem flat_of_inert {e : Expr} (h : e.Inert definitions) : e.flat definitions = .ok e := by
  induction e using shape_induction with
  | symbol e name hn =>
    rw [flat_symbol hn, (inert_symbol_iff hn).mp h]
    rfl
  | member target field ih =>
    obtain ⟨hs, ht⟩ := inert_member_iff.mp h
    rw [flat_member, ih ht, ok_bind, select_eq_none_iff.mpr hs]
    rfl
  | foreign shown => exact absurd h (not_inert_foreign shown)
  | plain e he ih =>
    have hc := (inert_plain_iff he).mp h
    refine (flat_plain_eq_ok_iff he).mpr ⟨e.children, ?_, (rebuild_children e).symm⟩
    exact List.forall₂_same.mpr fun c hm => ih c hm (hc c hm)

/-- All names that a place stands inside of have definitions. -/
def Place.Grounded (definitions : Definitions) (p : Place) : Prop :=
  ∀ name ∈ p.visited, definitions.expansion name ≠ .ok none

theorem grounded_root : Place.root.Grounded definitions := fun _ h => absurd h List.not_mem_nil

theorem Place.Grounded.below {p : Place} (h : p.Grounded definitions) :
    p.below.Grounded definitions := h

theorem Place.Grounded.inside {p : Place} (h : p.Grounded definitions) {name : String} {d : Expr}
    (hd : definitions.expansion name = .ok (some d)) : (p.inside name).Grounded definitions := by
  intro other ho
  rcases List.mem_cons.mp ho with rfl | ho
  · rw [hd]
    simp
  · exact h other ho

/-- A walk leaves an inert tree alone, at any place, if it may nest as deep as the tree is high. -/
theorem walk_of_inert {n : Nat} {p : Place} (hp : p.Grounded definitions) {e : Expr}
    (h : e.Inert definitions) (hn : e.height < n) :
    walk definitions budget exhaustion n p e = value e := by
  -- on the nesting, which the height of the tree bounds from below
  induction n generalizing p e with
  | zero => omega
  | succ n ih =>
    have hc : ∀ c ∈ e.children, c.Inert definitions →
        walk definitions budget exhaustion n p.below c = value c := fun c hm hi =>
      ih hp.below hi (Nat.lt_of_lt_of_le (height_lt_of_child hm) (Nat.le_of_lt_succ hn))
    cases e using shape_induction with
    | symbol e name hname =>
      have hund := (inert_symbol_iff hname).mp h
      -- a grounded place is inside of defined names only, so an undefined one is no cycle
      have hnew : name ∉ p.visited := fun hv => hp name hv hund
      rw [walk_symbol hname]
      simp [walkSymbol, hnew, hund, Trace.ofExcept]
    | member target field =>
      obtain ⟨hs, ht⟩ := inert_member_iff.mp h
      rw [walk_member, hc target (List.mem_singleton_self _) ht, value_bind,
        select_eq_none_iff.mpr hs]
      simp [Trace.ofExcept]
    | foreign shown => exact absurd h (not_inert_foreign shown)
    | plain e he =>
      have hi := (inert_plain_iff he).mp h
      have hrow : walkItems (walk definitions budget exhaustion n p.below) e.children =
          value e.children :=
        walkItems_eq_value_iff.mpr (List.forall₂_same.mpr fun c hm => hc c hm (hi c hm))
      rw [walk_plain he, hrow, value_bind, rebuild_children]

/-! ## 2. Walks without a stop -/

/-- What a walk without a stop makes of a tree, nested at most `n` times. -/
structure Settled (definitions : Definitions) (n : Nat) (e r : Expr) : Prop where
  inert : r.Inert definitions
  height_lt : r.height < n
  reached : ∃ K, ∀ k, K ≤ k → flatTimes definitions k e = .ok r

theorem Settled.undefined {n : Nat} {e : Expr} {name : String} (hname : e.name? = some name)
    (h : definitions.expansion name = .ok none) : Settled definitions (n + 1) e e where
  inert := (inert_symbol_iff hname).mpr h
  height_lt := by rcases eq_symbol_of_name? hname with rfl | rfl <;> exact Nat.succ_pos n
  reached :=
    ⟨0, fun k _ => flatTimes_of_flat_eq_self (flat_of_inert ((inert_symbol_iff hname).mpr h)) k⟩

theorem Settled.expanded {n : Nat} {e d r : Expr} {name : String} (hname : e.name? = some name)
    (hd : definitions.expansion name = .ok (some d)) (h : Settled definitions n d r) :
    Settled definitions (n + 1) e r where
  inert := h.inert
  height_lt := Nat.lt_succ_of_lt h.height_lt
  reached := by
    obtain ⟨K, hK⟩ := h.reached
    refine ⟨K + 1, fun k hk => ?_⟩
    obtain ⟨k, rfl⟩ : ∃ j, k = j + 1 := ⟨k - 1, by omega⟩
    refine flatTimes_succ_eq_ok_iff.mpr ⟨d, ?_, hK k (by omega)⟩
    rw [flat_symbol hname, hd]
    rfl

theorem Settled.access {n : Nat} {target t : Expr} {field : String}
    (h : Settled definitions n target t) (hs : t.isSymbolic = true) :
    Settled definitions (n + 1) (.member target field) (.member t field) where
  inert := inert_member_iff.mpr ⟨hs, h.inert⟩
  height_lt := Nat.succ_lt_succ h.height_lt
  reached := by
    obtain ⟨K, hK⟩ := h.reached
    exact ⟨K, fun k hk => flatTimes_member_symbolic field (hK k hk) hs⟩

/-- What is picked from a settled object is settled. -/
theorem Settled.picked {n : Nat} {target t r : Expr} {field : String}
    (h : Settled definitions n target t) (hr : t.select field = .ok (some r)) :
    Settled definitions (n + 1) (.member target field) r where
  inert := h.inert.child (mem_children_of_select hr)
  height_lt := by
    have := height_lt_of_child (mem_children_of_select hr)
    have := h.height_lt
    omega
  reached := by
    obtain ⟨K, hK⟩ := h.reached
    obtain ⟨fields, rfl, hf⟩ := select_eq_some_iff.mp hr
    refine ⟨K + 1, fun k hk => ?_⟩
    obtain ⟨k, rfl⟩ : ∃ j, k = j + 1 := ⟨k - 1, by omega⟩
    exact flatTimes_member_object (hK (k + 1) (by omega)) hf

theorem Settled.plain {n : Nat} {e : Expr} (he : e.isPlain = true) {cs : List Expr}
    (h : List.Forall₂ (Settled definitions n) e.children cs) :
    Settled definitions (n + 1) e (e.rebuild cs) where
  inert := by
    rw [inert_plain_iff (isPlain_rebuild he h.length_eq.symm), children_rebuild h.length_eq.symm]
    exact fun c hc => (forall_mem_of_forall₂ h c hc).elim fun _ hs => hs.2.inert
  height_lt := by
    refine Nat.lt_succ_of_le (height_le_iff.mpr ?_)
    rw [children_rebuild h.length_eq.symm]
    exact fun c hc => (forall_mem_of_forall₂ h c hc).elim fun _ hs => hs.2.height_lt
  reached := by
    obtain ⟨K, hK⟩ := forall₂_from (h.imp fun _ _ hc => hc.reached)
    exact ⟨K, fun k hk => (flatTimes_plain_iff he).mpr ⟨cs, hK k hk, rfl⟩⟩

/-- A walk that ends in a value without a stop ends in an inert tree that flat
    resolution reaches. -/
theorem settled_of_walk {n : Nat} {p : Place} (hp : p.Grounded definitions) {e r : Expr}
    (h : walk definitions budget exhaustion n p e = value r) : Settled definitions n e r := by
  induction n generalizing p e r with
  | zero => cases h
  | succ n ih =>
    cases e using shape_induction with
    | symbol e name hname =>
      -- a silent walk leaves two of the seven ways through a symbol
      rw [walk_symbol hname] at h
      cases walkSymbol_step h with
      | undefined _ hd hr =>
        cases value_injective hr
        exact .undefined hname hd
      | expanded d _ hd _ _ hr => exact .expanded hname hd (ih (hp.inside hd) hr.symm)
      | cycle _ hr => cases hr
      | broken _ _ _ hr => cases hr
      | spent _ _ _ _ _ hr => cases hr
      | kept _ _ _ _ _ hr => cases hr
      | tooDeep _ _ _ _ _ hr => cases hr
    | member target field =>
      obtain ⟨t, ht, ⟨hs, rfl⟩ | ⟨picked, hpick, hr⟩⟩ := walk_member_eq_value_iff.mp h
      · exact (ih hp.below ht).access hs
      · -- what is picked is inert already, so the second walk changes nothing
        have settled : Settled definitions n target t := ih hp.below ht
        have hinert : picked.Inert definitions :=
          settled.inert.child (mem_children_of_select hpick)
        have hheight : picked.height < n :=
          Nat.lt_trans (height_lt_of_child (mem_children_of_select hpick)) settled.height_lt
        rw [walk_of_inert hp hinert hheight] at hr
        cases value_injective hr
        exact settled.picked hpick
    | foreign shown => cases h
    | plain e he =>
      obtain ⟨cs, hcs, rfl⟩ := (walk_plain_eq_value_iff he).mp h
      exact .plain he (hcs.imp fun _ _ hc => ih hp.below hc)

/-! ## 3. Deep resolution -/

/-- A walk without a stop reports nothing. -/
theorem resolveDeep_eq_of_stops_eq_nil {n : Nat} {settings : Settings} {e : Expr}
    (h : (walk definitions settings.budget settings.exhaustion n .root e).stops = []) :
    e.resolveDeep n definitions settings =
      ⟨[], (walk definitions settings.budget settings.exhaustion n .root e).outcome⟩ := by
  unfold resolveDeep
  simp only [Resolution.warningsOf, h, Resolution.cycles, List.map_nil, List.nil_append,
    List.not_mem_nil, if_false]
  cases (walk definitions settings.budget settings.exhaustion n .root e).outcome <;> rfl

/-- An inert tree is resolved to itself in either mode, and nothing is reported. -/
theorem resolve_of_inert {n : Nat} {registry : Registry} {settings : Settings} {r : Expr}
    (h : r.Inert registry.definitions) (hn : r.height < n) :
    r.resolve n registry settings = ⟨[], .value r⟩ := by
  unfold resolve
  cases settings.mode with
  | flat =>
    simp only [resolveFlat]
    rw [flat_of_inert h]
  | deep =>
    have hw : walk registry.definitions settings.budget settings.exhaustion n .root r = value r :=
      walk_of_inert grounded_root h hn
    have hs :
        (walk registry.definitions settings.budget settings.exhaustion n .root r).stops = [] := by
      rw [hw]
      rfl
    show r.resolveDeep n registry.definitions settings = _
    rw [resolveDeep_eq_of_stops_eq_nil hs, hw]
    rfl

/-- **Deep resolution is the fixed point of flat resolution**: a deep resolution that ends in a tree
    and never stopped at a cycle or for want of budget ends in the tree that flat resolution,
    repeated often enough, comes to without a fault and stays at; and that tree is its own
    resolution, in either mode and under all settings, with nothing to report. -/
theorem resolveDeep_is_flat_fixed_point {n : Nat} {registry : Registry} {settings : Settings}
    {e r : Expr} (value : (e.resolveDeep n registry.definitions settings).outcome = .value r)
    (unstopped :
      (walk registry.definitions settings.budget settings.exhaustion n .root e).stops = []) :
    (∃ K, ∀ k, K ≤ k → flatTimes registry.definitions k e = .ok r) ∧
      ∀ again : Settings, r.resolve n registry again = ⟨[], .value r⟩ := by
  rw [resolveDeep_eq_of_stops_eq_nil unstopped] at value
  have hwalk : walk registry.definitions settings.budget settings.exhaustion n .root e =
      Trace.value r := eq_value_iff.mpr ⟨unstopped, value⟩
  have settled : Settled registry.definitions n e r := settled_of_walk grounded_root hwalk
  exact ⟨settled.reached, fun again => resolve_of_inert settled.inert settled.height_lt⟩

/-- An access to a definition that holds an access to another one. -/
theorem access_is_flat_fixed_point :
    let registry : Registry :=
      ⟨[("a", "\x7b\"x\": $b.y, \"z\": $free\x7d"), ("b", "\x7b\"y\": [$c, true]\x7d"), ("c", "?")],
        by decide⟩
    let settings : Settings := {}
    let e : Expr := .binary .product (.member (.reference "a") "x") (.reference "a")
    let picked : Expr := .array [.existence, .bool true]
    let r : Expr := .binary .product picked (.object [("x", picked), ("z", .reference "free")])
    (e.resolveDeep 10 registry.definitions settings).outcome = .value r ∧
      (walk registry.definitions settings.budget settings.exhaustion 10 .root e).stops = [] ∧
      (∃ K, ∀ k, K ≤ k → flatTimes registry.definitions k e = .ok r) ∧
      ∀ again : Settings, r.resolve 10 registry again = ⟨[], .value r⟩ := by
  intro registry settings e picked r
  have hwalk :
      walk registry.definitions settings.budget settings.exhaustion 10 .root e = value r := by
    rfl
  obtain ⟨hstops, hend⟩ := eq_value_iff.mp hwalk
  have hvalue : (e.resolveDeep 10 registry.definitions settings).outcome = .value r := by
    rw [resolveDeep_eq_of_stops_eq_nil hstops]
    exact hend
  exact ⟨hvalue, hstops, resolveDeep_is_flat_fixed_point hvalue hstops⟩

end Sigil.Expr
