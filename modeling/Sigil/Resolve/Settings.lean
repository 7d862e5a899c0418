import Sigil.Warning

/-!
# Settings of resolution

How far to expand, how many expansions may nest along one branch, what to do when that budget runs
out, and what to do with warnings.
-/

namespace Sigil

/-- Expand one level, or until nothing changes. -/
inductive Mode where
  | flat
  | deep
  deriving DecidableEq, Repr

/-- What to do when the budget runs out: return what there is, or fail. -/
inductive Exhaustion where
  | keep
  | fail
  deriving DecidableEq, Repr

def maxBudget : Nat := 128

/-- How many expansions may nest along one branch. -/
structure Budget where
  passes : Nat
  one_le : 1 ≤ passes := by decide
  le_max : passes ≤ maxBudget := by decide
  deriving DecidableEq

/-- The budget of so many expansions, if there is one. -/
def Budget.ofNat? (n : Nat) : Option Budget :=
  if h : 1 ≤ n ∧ n ≤ maxBudget then some ⟨n, h.1, h.2⟩ else none

def Budget.standard : Budget := { passes := 100 }

structure Settings where
  mode : Mode := .deep
  budget : Budget := .standard
  exhaustion : Exhaustion := .keep
  policy : Option Policy := none

def Settings.verdict (settings : Settings) : Code → Verdict := Policy.verdictUnder settings.policy

end Sigil
