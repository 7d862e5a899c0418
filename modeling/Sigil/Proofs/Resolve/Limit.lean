import Sigil.Proofs.Expr.Image
import Sigil.Proofs.Expr.Limit
import Sigil.Proofs.Resolve.Layers

/-!
# Where the limit of a result is met

Without accesses, a walk goes down a tree and into definitions, and each place that it comes to is a
place of the result: `Comes` follows it there and counts the nodes passed, which are the ones above
that place in the result. A definition is needed where a walk comes to a symbol that has one, which
is not on a cycle and within the budget (`Needs`).

* What becomes of a needed definition depends on the number of nodes above it, and on nothing else:
  it is walked if these are fewer than `maxResultNesting`, and a fault if not (`Needs.walk_eq`).
* A walk that ends in a tree has put in every definition that is needed (`Needs.of_value`), so no
  one is needed as deep as that.
* A walk that is at fault for being too deep has come to one that is (`exists_needs_of_tooDeep`).
-/

namespace Sigil.Expr

open Trace

variable {definitions : Definitions} {budget : Budget} {exhaustion : Exhaustion}

/-! ## 1. Places of the result -/

/-- The subtree under so many choices of a child, from the root on. -/
def at? : List Nat → Expr → Option Expr
  | [], e => some e
  | i :: path, e => (e.children[i]?).bind (at? path)

/-- A walk at the one place and tree comes to the other, if no limit stops it: down through the
    nodes of the path, and into the definitions of symbols that are new. -/
inductive Comes (definitions : Definitions) : Place → Expr → List Nat → Place → Expr → Prop where
  | here {p : Place} {e : Expr} : Comes definitions p e [] p e
  | down {p q : Place} {e c x : Expr} {i : Nat} {path : List Nat} (plain : e.isPlain = true)
      (child : e.children[i]? = some c) (onward : Comes definitions p.below c path q x) :
      Comes definitions p e (i :: path) q x
  | into {p q : Place} {e d x : Expr} {name : String} {path : List Nat}
      (symbol : e.name? = some name) (new : name ∉ p.visited)
      (expansion : definitions.expansion name = .ok (some d))
      (onward : Comes definitions (p.inside name) d path q x) : Comes definitions p e path q x

section

variable {p q r : Place} {e x y : Expr} {path onward : List Nat}

/-- Each node that is passed is one more level. -/
theorem Comes.level_eq (h : Comes definitions p e path q x) : q.level = p.level + path.length := by
  induction h with
  | here => rfl
  | down _ _ _ ih => rw [ih, List.length_cons, Place.below, Nat.add_assoc, Nat.add_comm 1]
  | into _ _ _ _ ih => exact ih

/-- Each definition that is entered counts against the budget. -/
theorem Comes.depth_le (h : Comes definitions p e path q x) : p.depth ≤ q.depth := by
  induction h with
  | here => exact Nat.le_refl _
  | down _ _ _ ih => exact ih
  | into _ _ _ _ ih => exact Nat.le_trans (Nat.le_succ _) ih

theorem Comes.trans (h : Comes definitions p e path q x) (h' : Comes definitions q x onward r y) :
    Comes definitions p e (path ++ onward) r y := by
  induction h with
  | here => exact h'
  | down plain child _ ih => exact .down plain child (ih h')
  | into symbol new expansion _ ih => exact .into symbol new expansion (ih h')

end

/-- On the way down from the root, the walk comes to a symbol whose definition it has to put in. -/
structure Needs (definitions : Definitions) (budget : Budget) (e : Expr)
    (path : List Nat) (q : Place) (symbol : Expr) (name : String) (d : Expr) : Prop where
  comes : Comes definitions .root e path q symbol
  named : symbol.name? = some name
  new : name ∉ q.visited
  expansion : definitions.expansion name = .ok (some d)
  affordable : q.depth < budget.passes

/-! ## 2. What becomes of a needed definition -/

section

variable {e symbol d : Expr} {path : List Nat} {q : Place} {name : String}

/-- A needed definition is walked where fewer nodes than the limit stand above it. -/
theorem Needs.walk_eq (h : Needs definitions budget e path q symbol name d)
    (exhaustion : Exhaustion) (n : Nat) :
    walk definitions budget exhaustion (n + 1) q symbol =
      if path.length < maxResultNesting then walk definitions budget exhaustion n (q.inside name) d
      else error .tooDeep := by
  have hlevel : q.level = path.length := h.comes.level_eq.trans (Nat.zero_add _)
  rw [walk_symbol h.named, ← hlevel]
  split
  · next hless => exact (SymbolStep.expanded d h.new h.expansion h.affordable hless rfl).eq
  · next hmore =>
      exact (SymbolStep.tooDeep d h.new h.expansion h.affordable (Nat.le_of_not_lt hmore) rfl).eq

/-- Where a walk ends in a tree, what it comes to within the budget ends in the
    subtree at that place. -/
theorem Comes.of_value {p : Place} {x : Expr} (h : Comes definitions p e path q x)
    (affordable : q.depth < budget.passes) {n : Nat} {r : Expr}
    (hwalk : (walk definitions budget exhaustion n p e).outcome = .value r) :
    ∃ m r', r.at? path = some r' ∧
      (walk definitions budget exhaustion m q x).outcome = .value r' := by
  induction h generalizing n r with
  | here => exact ⟨n, r, rfl, hwalk⟩
  | @down p q e c x i path plain child _ ih =>
    cases n with
    | zero => cases hwalk
    | succ n =>
      obtain ⟨rs, hrs, rfl⟩ := (walk_plain_outcome_iff plain).mp hwalk
      obtain ⟨hi, rfl⟩ := List.getElem?_eq_some_iff.mp child
      have hir : i < rs.length := hrs.length_eq ▸ hi
      obtain ⟨m, r', hat, hend⟩ := ih affordable (hrs.get hi hir)
      refine ⟨m, r', ?_, hend⟩
      rw [at?, children_rebuild hrs.length_eq.symm, List.getElem?_eq_getElem hir]
      exact hat
  | @into p q e d x name path named new expansion onward ih =>
    cases n with
    | zero => cases hwalk
    | succ n =>
      -- the place aimed at is no less deep than this one, so this one is affordable too
      have hdepth : p.depth < budget.passes := by
        have hinside : p.depth + 1 ≤ q.depth := onward.depth_le
        omega
      cases symbolValue_of_walk named hwalk with
      | cycle seen => exact absurd seen new
      | undefined _ missing => cases missing.symm.trans expansion
      | kept _ _ _ spent => exact absurd hdepth (Nat.not_lt_of_le spent)
      | expanded d' _ expansion' _ _ inside =>
        cases expansion'.symm.trans expansion
        exact ih affordable inside

/-- A walk that ends in a tree has put in each definition that is needed, at its place. -/
theorem Needs.of_value (h : Needs definitions budget e path q symbol name d) {n : Nat} {r : Expr}
    (hwalk : (walk definitions budget exhaustion n .root e).outcome = .value r) :
    path.length < maxResultNesting ∧ ∃ m r', r.at? path = some r' ∧
      (walk definitions budget exhaustion m (q.inside name) d).outcome = .value r' := by
  obtain ⟨m, r', hat, hend⟩ := h.comes.of_value h.affordable hwalk
  cases m with
  | zero => cases hend
  | succ m =>
    rw [h.walk_eq] at hend
    split at hend
    · next hless => exact ⟨hless, m, r', hat, hend⟩
    · cases hend

end

/-! ## 3. Faults of the limit -/

/-- What is known on the way down: the walk has come here, and neither the tree nor the definitions
    that can be reached hold an access. -/
structure Place.OnWay (definitions : Definitions) (root : Expr) (p : Place) (e : Expr) : Prop where
  comes : ∃ path, Comes definitions .root root path p e
  accessFree : e.AccessFree
  reachable : e.Confined (definitions.Reachable root)

/-- Of a tree without accesses, only a plain node has children. -/
theorem isPlain_of_child {e c : Expr} (h : e.AccessFree) (hc : c ∈ e.children) :
    e.isPlain = true := by
  cases e with
  | member target field => cases h.self
  | reference name => cases hc
  | action name => cases hc
  | foreign shown => cases hc
  | _ => rfl

theorem carried_onWay {root : Expr}
    (accessFree : ∀ name d, definitions.Reachable root name →
      definitions.expansion name = .ok (some d) → d.AccessFree)
    (budget : Budget) (exhaustion : Exhaustion) :
    Carried definitions budget exhaustion (Place.OnWay definitions root) where
  child hp hc := by
    obtain ⟨path, hcomes⟩ := hp.comes
    obtain ⟨i, hi⟩ := List.getElem?_of_mem hc
    exact ⟨⟨_, hcomes.trans (.down (isPlain_of_child hp.accessFree hc) hi .here)⟩,
      hp.accessFree.child hc, hp.reachable.child hc⟩
  definition hp hname new hd := by
    obtain ⟨path, hcomes⟩ := hp.comes
    have hreached := (confined_of_name? hname).mp hp.reachable
    exact ⟨⟨_, hcomes.trans (.into hname new hd .here)⟩, accessFree _ _ hreached hd,
      .of_definition (definitions.closed_reachable root) hd hreached⟩
  picked hp _ _ := Bool.noConfusion hp.accessFree.self

/-- A walk that is at fault for being too deep has come to a definition that is needed too deep. -/
theorem exists_needs_of_tooDeep {e : Expr} (accessFree : e.AccessFree)
    (definitionsFree : ∀ name d, definitions.Reachable e name →
      definitions.expansion name = .ok (some d) → d.AccessFree) {n : Nat}
    (h : (walk definitions budget exhaustion n .root e).outcome = .error .tooDeep) :
    ∃ path q symbol name d, Needs definitions budget e path q symbol name d ∧
      maxResultNesting ≤ path.length := by
  have hallows : (walk definitions budget exhaustion n .root e).Allows (fun _ => True)
      (fun fault => fault = .tooDeep → ∃ path q symbol name d,
        Needs definitions budget e path q symbol name d ∧ maxResultNesting ≤ path.length) := by
    refine (carried_onWay definitionsFree budget exhaustion).allows ?cycle ?spent ?tooDeep ?other n
      ⟨⟨[], .here⟩, accessFree, confined_reachable definitions e⟩
    case cycle => exact fun _ _ _ => trivial
    case spent => exact fun _ _ _ _ _ => ⟨trivial, fun h => ResolveError.noConfusion h⟩
    case tooDeep =>
      intro q symbol name d hq hname new hd affordable level _
      -- the path and the level count the same brackets
      obtain ⟨path, hcomes⟩ := hq.comes
      have hlevel : q.level = path.length := hcomes.level_eq.trans (Nat.zero_add _)
      exact ⟨path, q, symbol, name, d, ⟨hcomes, hname, new, hd, affordable⟩, hlevel ▸ level⟩
    case other =>
      rintro fault hfault rfl
      cases hfault.ofExpression
  exact hallows.error _ h rfl

/-! ## 4. A chain of definitions in brackets -/

/-- A place so many levels further down. -/
def Place.down (p : Place) (n : Nat) : Place := { p with level := p.level + n }

theorem Place.below_down (p : Place) (n : Nat) : p.below.down n = p.down (n + 1) := by
  unfold below down
  rw [Nat.add_right_comm, ← Nat.add_assoc]

/-- Brackets are rebuilt over what they hold. -/
theorem walk_in_brackets (core : Expr) (n k : Nat) (p : Place) :
    walk definitions budget exhaustion (n + k) p (nested core k) =
      walk definitions budget exhaustion n (p.down k) core >>= fun r => value (nested r k) := by
  induction k generalizing p with
  | zero => exact (bind_value _).symm
  | succ k ih =>
    have hstep : walk definitions budget exhaustion (n + k + 1) p (nested core (k + 1)) =
        walk definitions budget exhaustion (n + k) p.below (nested core k) >>= fun r =>
          value (.similarity r) := rfl
    rw [← Nat.add_assoc, hstep, ih, Place.below_down]
    simp [nested]

theorem comes_in_brackets (core : Expr) (k : Nat) (p : Place) :
    Comes definitions p (nested core k) (List.replicate k 0) (p.down k) core := by
  induction k generalizing p with
  | zero => exact .here
  | succ k ih => exact .down rfl rfl (p.below_down k ▸ ih p.below)

/-- To a symbol in brackets a walk comes through all of them. -/
theorem Comes.of_brackets {core x : Expr} {k : Nat} {p q : Place} {path : List Nat} {name : String}
    (h : Comes definitions p (nested core k) path q x) (symbol : x.name? = some name) :
    ∃ onward, path = List.replicate k 0 ++ onward ∧
      Comes definitions (p.down k) core onward q x := by
  -- each bracket is one step of the path, and a symbol stands only inside the last
  induction k generalizing p path with
  | zero => exact ⟨path, rfl, h⟩
  | succ k ih =>
    cases h with
    | here => cases symbol
    | @down _ _ _ c _ i path plain child onward =>
      cases i with
      | zero =>
        cases child
        obtain ⟨rest, rfl, hrest⟩ := ih onward
        exact ⟨rest, rfl, p.below_down k ▸ hrest⟩
      | succ i => cases child
    | into named => cases named

/-- From a symbol that stands for something in brackets, a walk comes to what these hold. -/
theorem Comes.of_reference {core d x : Expr} {k : Nat} {p q : Place} {path : List Nat}
    {name other : String} (h : Comes definitions p (.reference name) path q x)
    (symbol : x.name? = some other) (expansion : definitions.expansion name = .ok (some d))
    (brackets : d = nested core k) :
    path = [] ∨ ∃ p' onward, path = List.replicate k 0 ++ onward ∧
      Comes definitions p' core onward q x := by
  cases h with
  | here => exact .inl rfl
  | down plain => cases plain
  | into named _ expansion' inside =>
    cases named
    cases expansion.symm.trans expansion'
    obtain ⟨onward, hpath, hcore⟩ := (brackets ▸ inside).of_brackets symbol
    exact .inr ⟨_, onward, hpath, hcore⟩

theorem accessFree_nested {core : Expr} (h : core.AccessFree) (k : Nat) :
    (nested core k).AccessFree := by
  induction k with
  | zero => exact h
  | succ k ih => exact every_iff.mpr ⟨rfl, List.forall_mem_singleton.mpr ih⟩

theorem spellableWord_nestedWord {w : List Lexeme} (h : SpellableWord w) (n : Nat) :
    SpellableWord (nestedWord w n) := by
  induction n with
  | zero => exact h
  | succ n ih => exact spellableWord_bracketed.mpr ih

/-- A reference in as many brackets as an expression may have. -/
def bracketed (name : String) : String :=
  String.ofList (Lexeme.written (nestedWord [.symbol .dollar, .name name] 64))

theorem ofText_bracketed {name : String} (free : Lexeme.isFreeName name = true) :
    ofText (bracketed name) = .ok (nested (.reference name) 64) := by
  have hreference : Derives 0 loosest [.symbol .dollar, .name name] (.reference name) :=
    (Derives.reference name).lower_le (by decide)
  have hspellable : SpellableWord [.symbol .dollar, .name name] := by
    simpa [SpellableWord, Lexeme.isSpellable] using free
  exact ofText_written (hreference.nested 64) (spellableWord_nestedWord hspellable 64)

/-- A definition in brackets that refers to another one, which refers to a third one. -/
def chain : Registry := ⟨[("a", bracketed "b"), ("b", bracketed "c"), ("c", "null")], by decide⟩

theorem chain_a : chain.definitions.expansion "a" = .ok (some (nested (.reference "b") 64)) :=
  Registry.expansion_eq_some_iff.mpr ⟨bracketed "b", rfl, ofText_bracketed (by decide)⟩

theorem chain_b : chain.definitions.expansion "b" = .ok (some (nested (.reference "c") 64)) :=
  Registry.expansion_eq_some_iff.mpr ⟨bracketed "c", rfl, ofText_bracketed (by decide)⟩

theorem chain_c : chain.definitions.expansion "c" = .ok (some .null) :=
  Registry.expansion_eq_some_iff.mpr ⟨"null", rfl, rfl⟩

theorem chain_accessFree {name : String} {d : Expr}
    (h : chain.definitions.expansion name = .ok (some d)) : d.AccessFree := by
  obtain ⟨text, hfind, -⟩ := Registry.expansion_eq_some_iff.mp h
  have hmem : (name, text) ∈ chain.entries := Entries.mem_of_find? hfind
  have hnames : name ∈ chain.entries.map Prod.fst := List.mem_map_of_mem hmem
  have hname : name ∈ ["a", "b", "c"] := hnames
  rcases List.mem_cons.mp hname with rfl | hname
  · cases chain_a.symm.trans h
    exact accessFree_nested (by decide) 64
  rcases List.mem_cons.mp hname with rfl | hname
  · cases chain_b.symm.trans h
    exact accessFree_nested (by decide) 64
  · cases List.mem_singleton.mp hname
    cases chain_c.symm.trans h
    decide

theorem chain_needs_b : Needs chain.definitions .standard (.reference "a") (List.replicate 64 0)
    ((Place.root.inside "a").down 64) (.reference "b") "b" (nested (.reference "c") 64) where
  comes := .into rfl (by decide) chain_a (comes_in_brackets _ 64 _)
  named := rfl
  new := by decide
  expansion := chain_b
  affordable := by decide

theorem chain_needs_c : Needs chain.definitions .standard (.reference "a")
    (List.replicate 64 0 ++ List.replicate 64 0)
    ((((Place.root.inside "a").down 64).inside "b").down 64) (.reference "c") "c" .null where
  comes := chain_needs_b.comes.trans (.into rfl (by decide) chain_b (comes_in_brackets _ 64 _))
  named := rfl
  new := by decide
  expansion := chain_c
  affordable := by decide

/-- The walk comes to the last definition of the chain, and ends there. -/
theorem walk_chain (n : Nat) :
    walk chain.definitions .standard exhaustion (n + 131) .root (.reference "a") =
      error .tooDeep := by
  have hneedsA : Needs chain.definitions .standard (.reference "a") [] .root (.reference "a") "a"
      (nested (.reference "b") 64) := ⟨.here, rfl, by decide, chain_a, by decide⟩
  have ha := hneedsA.walk_eq exhaustion (n + 66 + 64)
  have hb := chain_needs_b.walk_eq exhaustion (n + 1 + 64)
  have hc := chain_needs_c.walk_eq exhaustion n
  rw [if_pos (by decide), walk_in_brackets] at ha
  rw [if_pos (by rw [List.length_replicate]; decide), walk_in_brackets] at hb
  rw [if_neg (by rw [List.length_append, List.length_replicate]; decide)] at hc
  rw [hc] at hb
  rw [hb] at ha
  exact ha

theorem resolve_chain : ((reference "a").resolve 131 chain {}).outcome = .error .tooDeep := by
  have hwalk : walk chain.definitions ({} : Settings).budget ({} : Settings).exhaustion 131 .root
      (reference "a") = error .tooDeep := walk_chain 0
  rw [resolve_eq_report rfl, hwalk]
  rfl

/-- The places of the chain at which a definition is needed are at most 128 nodes down. -/
theorem chain_needs_le {path : List Nat} {q : Place} {symbol d : Expr} {name : String}
    (h : Needs chain.definitions .standard (.reference "a") path q symbol name d) :
    path.length ≤ 128 := by
  -- three symbols can be met, and two of them stand behind sixty-four brackets each
  rcases h.comes.of_reference h.named chain_a rfl with rfl | ⟨_, path, rfl, hb⟩
  · exact Nat.zero_le _
  rw [List.length_append, List.length_replicate]
  rcases hb.of_reference h.named chain_b rfl with rfl | ⟨_, path, rfl, hc⟩
  · decide
  rw [List.length_append, List.length_replicate]
  rcases hc.of_reference h.named chain_c (show .null = nested .null 0 from rfl) with
    rfl | ⟨_, path, rfl, hnull⟩
  · decide
  · cases hnull with
    | here => cases h.named
    | down _ child => cases child
    | into named => cases named

/-! ## 5. The limit itself -/

/-- **Deep resolution nests too deep exactly from the limit on.** Of a tree without accesses in it
    or in its definitions: if a resolution is at fault for that, it came to a definition with at
    least 128 nodes above it; if it ends in a tree, each definition that is needed has fewer above
    it, and the tree has its expansion there. Wherever a definition is needed, it is walked if fewer
    than 128 nodes are above it, and the fault if not. -/
theorem nesting_is_refused_from_the_limit_on {n : Nat} {registry : Registry} {settings : Settings}
    {e : Expr} (deep : settings.mode = .deep) (accessFree : e.AccessFree)
    (definitionsFree : ∀ name d, registry.definitions.Reachable e name →
      registry.definitions.expansion name = .ok (some d) → d.AccessFree) :
    ((e.resolve n registry settings).outcome = .error .tooDeep →
      ∃ path q symbol name d, Needs registry.definitions settings.budget e path q symbol name d ∧
        128 ≤ path.length) ∧
    ∀ path q symbol name d, Needs registry.definitions settings.budget e path q symbol name d →
      (∀ r, (e.resolve n registry settings).outcome = .value r →
        path.length < 128 ∧ ∃ m r', r.at? path = some r' ∧
          (walk registry.definitions settings.budget settings.exhaustion m
            (q.inside name) d).outcome = .value r') ∧
      ∀ m, walk registry.definitions settings.budget settings.exhaustion (m + 1) q symbol =
        if path.length < 128 then
          walk registry.definitions settings.budget settings.exhaustion m (q.inside name) d
        else error .tooDeep := by
  constructor
  · intro h
    -- an error of the whole is an error of the walk here, since no warning speaks of nesting
    rw [resolve_eq_report deep] at h
    rcases Resolution.fault_of_report _ h with hwalk | ⟨w, _, hw⟩
    · exact exists_needs_of_tooDeep accessFree definitionsFree hwalk
    · cases hw
  · intro path q symbol name d hneeds
    exact ⟨fun r h => hneeds.of_value ((resolve_outcome_eq_value_iff deep).mp h).1,
      hneeds.walk_eq settings.exhaustion⟩

/-- The chain is refused for a definition with 128 nodes above it; without its first definition it
    is not, and has the last one in 64 brackets. -/
theorem chain_is_refused_at_its_end :
    let e : Expr := .reference "a"
    let inner : Expr := .reference "b"
    (({} : Settings).mode = .deep ∧ e.AccessFree ∧ ∀ name d, chain.definitions.Reachable e name →
      chain.definitions.expansion name = .ok (some d) → d.AccessFree) ∧
    (e.resolve 131 chain {}).outcome = .error .tooDeep ∧
    (∃ path q symbol name d, Needs chain.definitions .standard e path q symbol name d ∧
      128 ≤ path.length) ∧
    (inner.resolve 67 chain {}).outcome = .value (nested .null 64) ∧
    ∃ path q d, Needs chain.definitions .standard inner path q (.reference "c") "c" d ∧
      path.length < 128 ∧ ∃ m r', (nested .null 64).at? path = some r' ∧
        (walk chain.definitions .standard .keep m (q.inside "c") d).outcome = .value r' := by
  intro e inner
  have hfree : ∀ (root : Expr) name d, chain.definitions.Reachable root name →
      chain.definitions.expansion name = .ok (some d) → d.AccessFree :=
        fun _ _ _ _ => chain_accessFree
  have hneedsB :
      Needs chain.definitions .standard inner [] .root inner "b" (nested (.reference "c") 64) :=
    ⟨.here, rfl, by decide, chain_b, by decide⟩
  have hneedsC : Needs chain.definitions .standard inner (List.replicate 64 0)
      ((Place.root.inside "b").down 64) (.reference "c") "c" .null :=
    ⟨.into rfl (by decide) chain_b (comes_in_brackets _ 64 _), rfl, by decide, chain_c, by decide⟩
  have hwalk : walk chain.definitions .standard .keep 67 .root inner = value (nested .null 64) := by
    have hb := hneedsB.walk_eq .keep (2 + 64)
    have hc := hneedsC.walk_eq .keep 1
    rw [if_pos (by decide), walk_in_brackets] at hb
    rw [if_pos (by rw [List.length_replicate]; decide)] at hc
    rw [hc] at hb
    exact hb
  have hresolve : inner.resolve 67 chain {} = ⟨[], .value (nested .null 64)⟩ :=
    resolve_of_walk_eq_value rfl hwalk
  have hinner : (inner.resolve 67 chain {}).outcome = .value (nested .null 64) := by rw [hresolve]
  have hlimit := @nesting_is_refused_from_the_limit_on 131 chain {} e rfl (by decide) (hfree e)
  have hlimitInner :=
    @nesting_is_refused_from_the_limit_on 67 chain {} inner rfl (by decide) (hfree inner)
  exact ⟨⟨rfl, by decide, hfree e⟩, resolve_chain, hlimit.1 resolve_chain, hinner,
    _, _, _, hneedsC, (hlimitInner.2 _ _ _ _ _ hneedsC).1 _ hinner⟩

/-- A definition that is needed with exactly 128 nodes above it is refused, though no definition is
    needed deeper than that. -/
theorem definition_at_the_limit_is_refused :
    let e : Expr := .reference "a"
    (e.AccessFree ∧ ∀ name d, chain.definitions.Reachable e name →
      chain.definitions.expansion name = .ok (some d) → d.AccessFree) ∧
    (e.resolve 131 chain {}).outcome = .error .tooDeep ∧
    (∃ path q symbol name d, Needs chain.definitions .standard e path q symbol name d ∧
      path.length = 128) ∧
    ∀ path q symbol name d, Needs chain.definitions .standard e path q symbol name d →
      path.length ≤ 128 := by
  exact ⟨⟨by decide, fun _ _ _ => chain_accessFree⟩, resolve_chain,
    ⟨_, _, _, _, _, chain_needs_c, by simp⟩, fun _ _ _ _ _ => chain_needs_le⟩

end Sigil.Expr
