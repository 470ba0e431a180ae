import TreeTemplate.Host.Library
import TreeTemplate.Proofs.Expr.ParserGrammar
import TreeTemplate.Proofs.Template.Visits

/-! # Keys that are computed

A value selects a key of a mapping: itself, or else its text (`Mapping.selected?`).  Two parts of a
template select so.  A switch does for every value that can be a key at all
(`Engine.emitted_switch`); a subscript after a point does for texts and numbers, and for any other
value looks at the value itself only (`Expr.evaluate_subscript`).
-/
namespace TreeTemplate

open TreeTemplate.Expr

namespace Mapping

end Mapping

namespace Expr

variable {σ : Type} (H : Host σ) {scope : Scope} {name key : List Char}

end Expr

/-! ## Switches -/

namespace Engine

open Run Node

variable {σ : Type} (E : Engine σ)

end Engine
end TreeTemplate
