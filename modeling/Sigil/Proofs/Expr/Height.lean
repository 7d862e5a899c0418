import Sigil.Proofs.Expr.Soundness

/-!
# No reading is higher than its room

Each reading keeps its height below the room that it was given: atoms take it from what they hold,
which was read with less room, and every round of operators checks it anew. So whole tokens are read
as a tree of at most `maxNesting` levels.
-/

namespace Sigil.Expr

/-- What such an operand returns is lower than the room. -/
def OperandLow (operand : Operand) (room : Nat) : Prop :=
  ∀ least tokens out, operand least tokens = .ok out → out.height < room

variable {operand : Operand} {room : Nat}

theorem items_height_lt (ho : OperandLow operand room) {rounds : Nat} {tokens rest : List Token}
    {es : List Expr} {height : Nat} (h : items operand rounds tokens = .ok (es, height, rest)) :
    height < room := by
  induction rounds generalizing tokens es height with
  | zero => cases h
  | succ rounds ih =>
    cases items_eq_ok_iff.mp h with
    | last first c read rest_eq close items_eq height_eq => exact height_eq ▸ ho _ _ _ read
    | more first c after others highest read rest_eq comma next items_eq height_eq =>
      exact height_eq ▸ Nat.max_lt.mpr ⟨ho _ _ _ read, ih next⟩

theorem fields_height_lt (ho : OperandLow operand room) {rounds : Nat} {seen : List String}
    {tokens rest : List Token} {entries : List (String × Expr)} {height : Nat}
    (h : fields operand rounds seen tokens = .ok (entries, height, rest)) : height < room := by
  induction rounds generalizing seen tokens entries height with
  | zero => cases h
  | succ rounds ih =>
    cases fields_eq_ok_iff.mp h with
    | last k colon key valueTokens value c tokens_eq string new symbol read rest_eq close entries_eq
        height_eq => exact height_eq ▸ ho _ _ _ read
    | more k colon key valueTokens value c after others highest tokens_eq string new symbol read
        rest_eq comma next entries_eq height_eq =>
      exact height_eq ▸ Nat.max_lt.mpr ⟨ho _ _ _ read, ih next⟩

/-- An atom is at most one level higher than what it holds. -/
theorem atom_height_le (ho : OperandLow operand room) {tokens : List Token} {out : Reading}
    (h : atom operand tokens = .ok out) : out.height ≤ room := by
  cases step_of_atom h with
  | leaf | named | emptyArray | emptyObject => exact Nat.zero_le _
  | group _ _ tokens _ inner _ read => exact Nat.le_of_lt (ho 0 tokens inner read)
  | array _ _ _ _ _ _ _ _ _ read => exact items_height_lt ho read
  | similarity _ _ _ _ _ inner _ _ _ read => exact ho _ _ _ read
  | object _ _ _ _ _ _ _ _ read => exact fields_height_lt ho read
  | difference _ _ _ _ _ inner _ _ _ read => exact ho _ _ _ read

/-- A round of operators makes no tree that is higher than the room. -/
theorem operators_height_le {least rounds : Nat} {left out : Reading} (hleft : left.height ≤ room)
    (h : operators operand room least rounds left = .ok out) : out.height ≤ room := by
  induction rounds generalizing left with
  | zero => cases h
  | succ rounds ih =>
    cases operators_eq_ok_iff.mp h with
    | stop _ _ _ _ result => exact result ▸ hleft
    | member t f rest field rest_eq dot binds name fits next =>
      exact ih (Nat.succ_le_of_lt fits) next
    | binary t after op right rest_eq symbol binds read fits next =>
      exact ih (Nat.succ_le_of_lt fits) next

/-- **Every reading is lower than its room.** -/
theorem expression_height_lt (room : Nat) : OperandLow (expression room) room := by
  induction room with
  | zero =>
    intro least tokens out h
    cases tokens <;> cases h
  | succ room ih =>
    intro least tokens out h
    obtain ⟨left, hatom, hops⟩ := bind_eq_ok_iff.mp h
    exact Nat.lt_succ_of_le (operators_height_le (atom_height_le ih hatom) hops)

/-- A tree that tokens are read as has no more levels than the nesting limit. -/
theorem height_le_of_ofTokens {tokens : List Token} {e : Expr} (h : ofTokens tokens = .ok e) :
    e.height ≤ maxNesting := by
  unfold ofTokens at h
  split at h
  · cases h
  · split at h
    · obtain ⟨whole, hread, hend⟩ := bind_eq_ok_iff.mp h
      have hheight : whole.height = whole.expr.height := ((expression_sound _).inner hread).2
      split at hend
      · cases hend
      · split at hend
        · cases hend
          exact hheight ▸ Nat.le_of_lt_succ (expression_height_lt _ _ _ _ hread)
        · cases hend
    · cases h

theorem height_le_of_ofText {s : String} {e : Expr} (h : ofText s = .ok e) :
    e.height ≤ maxNesting := by
  obtain ⟨_, _, hread⟩ := ofText_eq_ok_iff.mp h
  exact height_le_of_ofTokens hread

end Sigil.Expr
