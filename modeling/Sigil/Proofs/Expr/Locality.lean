import Mathlib.Order.Filter.AtTopBot.Basic
import Sigil.Proofs.Expr.Completeness

/-!
# What the reader has read, whatever follows

The reader looks at one token behind what it takes and at none after that. So what it read it reads
again in front of any other continuation of that token (`exists_reads`), and what it refused it
refuses again (`Refuses`). Both are said of all rooms from some one on, as a word may need more room
than was there when its first tokens were refused.
-/

namespace Sigil.Expr

open Filter (atTop)

/-! ## 1. Failure -/

/-- No result, for whatever reason. -/
def Fails {α : Type} (x : Except SyntaxError α) : Prop := ∃ e, x = .error e

theorem Fails.bind {α β : Type} {x : Except SyntaxError α} (h : Fails x)
    (f : α → Except SyntaxError β) :
    Fails (x >>= f) := by
  obtain ⟨e, rfl⟩ := h
  exact ⟨e, rfl⟩

theorem expect_eq_error_iff {wanted : Symbol} {t : Token} {after : List Token} {e : SyntaxError} :
    expect wanted (t :: after) = .error e ↔ t.lexeme ≠ .symbol wanted ∧ e = .missing wanted t := by
  by_cases h : t.lexeme = .symbol wanted <;> simp [expect, h, eq_comm]

@[simp] theorem error_bind {ε α β : Type} (e : ε) (f : α → Except ε β) :
    (.error e : Except ε α) >>= f = .error e := rfl

/-! ## 2. Readings in all rooms from some one on -/

/-- What holds a room higher up from some room on holds from some room on. -/
theorem eventually_of_succ {P : Nat → Prop} (h : ∀ᶠ room in atTop, P (room + 1)) :
    ∀ᶠ room in atTop, P room := by
  rw [← Filter.map_add_atTop_eq_nat 1]
  exact h

/-- No room that is large enough has the tokens read. -/
def Refuses (least : Nat) (tokens : List Token) : Prop :=
  ∀ᶠ room in atTop, Fails (expression room least tokens)

/-- Every room that is large enough has the tokens read like this. -/
def Reads (least : Nat) (tokens : List Token) (out : Reading) : Prop :=
  ∀ᶠ room in atTop, expression room least tokens = .ok out

theorem Reads.not_refuses {least : Nat} {tokens : List Token} {out : Reading}
    (h : Reads least tokens out) :
    ¬ Refuses least tokens := by
  intro hfails
  obtain ⟨room, hok, e, herror⟩ := (h.and hfails).exists
  rw [hok] at herror
  cases herror

/-- The readings of large rooms agree. -/
theorem Reads.unique {least : Nat} {tokens : List Token} {out out' : Reading}
    (h : Reads least tokens out) (h' : Reads least tokens out') : out = out' := by
  obtain ⟨room, hok, hok'⟩ := (h.and h').exists
  exact Except.ok.inj (hok.symm.trans hok')

/-- A derived word is passed by the loop over operators where nothing more tight goes on. -/
theorem passes_of_derives {d q : Nat} {word : List Token} {e : Expr}
    (h : Derives d q (lexemes word) e) {least : Nat} (hq : least ≤ q) {t : Token}
    {after : List Token} (hstops : Stops (q + 1) (t :: after)) :
    ∀ᶠ room in atTop, Passes room least (word ++ t :: after) ⟨e, e.height, t :: after⟩ :=
  (Filter.eventually_ge_atTop d).mono fun room hroom =>
    readsAt_of_derives h room least word t after hroom hq rfl hstops

/-- A derived word is read where nothing goes on that binds tightly enough. -/
theorem reads_of_derives {d q : Nat} {word : List Token} {e : Expr}
    (h : Derives d q (lexemes word) e) {least : Nat} (hq : least ≤ q) {t : Token}
    {after : List Token} (hstops : Stops least (t :: after)) :
    Reads least (word ++ t :: after) ⟨e, e.height, t :: after⟩ :=
  eventually_of_succ <| (passes_of_derives h hq (hstops.mono (Nat.le_succ_of_le hq))).mono
    fun _ hpasses => expression_of_passes hpasses (List.cons_ne_nil _ _) hstops

/-- Tokens that are refused where the loop over operators has passed what stands before. -/
theorem refuses_of_passes {least : Nat} {tokens : List Token} {left : Reading}
    (hpasses : ∀ᶠ room in atTop, Passes room least tokens left)
    (hfails : ∀ᶠ room in atTop, ∀ n, Fails (operators (expression room) room least (n + 1) left)) :
    Refuses least tokens := by
  refine eventually_of_succ ?_
  filter_upwards [hpasses, hfails] with room ⟨first, k, hatom, hlength, hloop⟩ hstep
  obtain ⟨n, hn⟩ : ∃ n, first.rest.length + 1 = n + 1 + k := ⟨first.rest.length - k, by omega⟩
  show Fails (atom (expression room) tokens >>= fun left =>
    operators (expression room) room least (left.rest.length + 1) left)
  rw [hatom, ok_bind, hn, hloop]
  exact hstep n

/-- An atom is refused. -/
def RefusesAtom (tokens : List Token) : Prop :=
  ∀ᶠ room in atTop, Fails (atom (expression room) tokens)

theorem RefusesAtom.refuses {tokens : List Token} (h : RefusesAtom tokens) (least : Nat) :
    Refuses least tokens :=
  eventually_of_succ <| h.mono fun _ hfails => hfails.bind _

/-! ## 3. Words that may stand in a place -/

/-- The word is an expression that binds at least as tightly as required. -/
def Stands (least : Nat) (w : List Lexeme) : Prop :=
  ∃ d q e, least ≤ q ∧ loosest ≤ q ∧ Derives d q w e

theorem Stands.spells {least : Nat} {w : List Lexeme} (h : Stands least w) : ∃ e, Spells w e := by
  obtain ⟨d, q, e, _, hq, hd⟩ := h
  exact ⟨e, hd.spells hq⟩

theorem Stands.derives {least : Nat} {w : List Lexeme} (h : Stands least w) :
    ∃ d e, Derives d least w e := by
  obtain ⟨d, q, e, hq, _, hd⟩ := h
  exact ⟨d, e, hd.lower_le hq⟩

theorem stands_of_atom {d : Nat} {w : List Lexeme} {e : Expr} (h : Derives d atomLevel w e) :
    Stands atomLevel w :=
  ⟨d, atomLevel, e, Nat.le_refl _, by decide, h⟩

theorem Stands.mono {least more : Nat} {w : List Lexeme} (h : Stands more w) (hle : least ≤ more) :
    Stands least w := by
  obtain ⟨d, q, e, hq, hloosest, hd⟩ := h
  exact ⟨d, q, e, Nat.le_trans hle hq, hloosest, hd⟩

/-- **What was read, and the token that ended it.** The same is read in front of any other
    continuation of that token. -/
theorem exists_reads {room least : Nat} (hleast : least ≤ accessLevel) {tokens : List Token}
    (hfinish : .finish ∈ lexemes tokens) {out : Reading}
    (h : expression room least tokens = .ok out) :
    ∃ word t after, tokens = word ++ t :: after ∧ out.rest = t :: after ∧
      .finish ∉ lexemes word ∧ .finish ∈ lexemes (t :: after) ∧ Stands least (lexemes word) ∧
      ∀ after', Reads least (word ++ t :: after') ⟨out.expr, out.height, t :: after'⟩ := by
  obtain ⟨⟨⟨word, d, q, rfl, hq, hloosest, hd, _⟩, hheight⟩, hstops⟩ :=
    expression_sound room least hleast tokens out h
  have hinside : .finish ∉ lexemes word := hd.finish_not_mem
  rw [lexemes_append, List.mem_append] at hfinish
  have hrest : .finish ∈ lexemes out.rest := hfinish.resolve_left hinside
  obtain ⟨t, after, hcons⟩ : ∃ t after, out.rest = t :: after :=
    List.exists_cons_of_ne_nil fun hnil => by rw [hnil] at hrest; cases hrest
  rw [hcons] at hstops hrest
  refine ⟨word, t, after, by rw [hcons], hcons, hinside, hrest, ⟨d, q, _, hq, hloosest, hd⟩,
    fun after' => ?_⟩
  rw [hheight]
  exact reads_of_derives hd hq (stops_cons_iff.mpr (stops_cons_iff.mp hstops))

end Sigil.Expr
