import TreeTemplate.Failure
import TreeTemplate.Value.Basic

/-! # Expressions

The syntax of the expression language.  Expressions come from text, or from data in
which someone stored one; the last three forms stand for parts of stored data that are
no expression, so that they can be refused when they are reached and not before.
-/
namespace TreeTemplate

/-- The operators of a chain.  A stored chain may name any other operator, which acts
like `whenFalse`. -/
inductive ChainOp where
  /-- Go on from a true value. -/
  | whenTrue
  /-- Go on from a false value. -/
  | whenFalse
  | other (name : Value)

/-- Whether a step of a chain is taken from a value. -/
def ChainOp.taken (op : ChainOp) (v : Value) : Bool :=
  match op with
  | .whenTrue => v.truthy
  | _ => !v.truthy

/-- An expression. -/
inductive Expr where
  | literal (v : Value)
  /-- The value of a variable whose name an expression gives. -/
  | lookup (name : Expr)
  /-- An expression in parentheses. -/
  | group (inner : Expr)
  /-- Selections from a base value, one after another. -/
  | dot (base : Expr) (selectors : List Expr)
  | call (callee : Expr) (args : List Expr)
  /-- A method call, which makes sense as a selector only. -/
  | method (name : Value) (args : List Expr)
  | not (operand : Expr)
  | chain (first : Expr) (steps : List (ChainOp × Expr))
  /-- Stored data that is no expression. -/
  | malformed (tree : Value)
  /-- A stored node with more parts than its kind has. -/
  | surplus (node : Expr) (tree : Value)
  /-- A part that cannot be taken out of stored data. -/
  | broken (cause : Fault)

namespace Expr

instance : Inhabited Expr := ⟨.literal .null⟩

/-- The variable with a given name. -/
def named (name : List Char) : Expr := .lookup (.literal (.str (String.ofList name)))

/-- A chain; without steps it is its first operand. -/
def ofChain (first : Expr) (steps : List (ChainOp × Expr)) : Expr :=
  if steps.isEmpty then first else .chain first steps

/-- A selection; without selectors it is its base. -/
def ofDot (base : Expr) (selectors : List Expr) : Expr :=
  if selectors.isEmpty then base else .dot base selectors

@[simp] theorem ofChain_nil (first : Expr) : ofChain first [] = first := rfl

@[simp] theorem ofDot_nil (base : Expr) : ofDot base [] = base := rfl

end Expr
end TreeTemplate
