import TreeTemplate.Expr.Basic

/-! # Stored expressions

An expression can be kept as plain data: a node is a row of its tag and its parts.
`toValue` writes nodes as tuples; `ofValue` reads nodes from tuples and lists alike, as
a document format may have turned the one into the other.  Reading never fails; what is
no node becomes a part that is refused when the expression is used.
-/
namespace TreeTemplate

namespace ChainOp

/-- The operator under which a step is stored. -/
def toValue : ChainOp → Value
  | .whenTrue => .str "?"
  | .whenFalse => .str ":"
  | .other v => v

/-- The operator of a stored step. -/
def ofValue : Value → ChainOp
  | .str "?" => .whenTrue
  | .str ":" => .whenFalse
  | v => .other v

@[simp] theorem ofValue_toValue_whenTrue : ofValue (toValue .whenTrue) = .whenTrue := rfl

@[simp] theorem ofValue_toValue_whenFalse : ofValue (toValue .whenFalse) = .whenFalse := rfl

end ChainOp

namespace Expr

/-- A node with the given tag and parts. -/
def node (tag : String) (parts : List Value) : Value := .tuple (.str tag :: parts)

mutual

/-- An expression as data. -/
def toValue : Expr → Value
  | .literal v => node "literal" [v]
  | .lookup name => node "env" [toValue name]
  | .group inner => node "indirect" [toValue inner]
  | .dot base selectors => node "dot" [toValue base, .tuple (toValues selectors)]
  | .call callee args => node "funccall" [toValue callee, .tuple (toValues args)]
  | .method name args => node "methcall" [name, .tuple (toValues args)]
  | .not operand => node "not" [toValue operand]
  | .chain first steps => node "expression" [toValue first, .tuple (stepValues steps)]
  | .malformed tree => tree
  | .surplus _ tree => tree
  | .broken _ => .null

/-- A row of expressions as data. -/
def toValues : List Expr → List Value
  | [] => []
  | e :: es => toValue e :: toValues es

/-- The steps of a chain as data. -/
def stepValues : List (ChainOp × Expr) → List Value
  | [] => []
  | (op, e) :: rest => .tuple [op.toValue, toValue e] :: stepValues rest

end

/-- The parts of a scalar that can be taken apart, or the fault of trying to. -/
def partsOfScalar : Value → List Expr
  | .str s => s.toList.map fun c => .malformed (.str (String.singleton c))
  | .bytes bs => bs.map fun b => .malformed (.int b.toNat)
  | v => [.broken (.notIterable v.typeName)]

/-- Steps that fail whatever the value before them is. -/
def failingStep (cause : Fault) : List (ChainOp × Expr) :=
  [(.whenTrue, .broken cause), (.whenFalse, .broken cause)]

/-- The fault of taking `got` parts for the two of a step. -/
def stepArity (got : Nat) : Fault :=
  if got < 2 then .tooFewParts 2 got else .tooManyParts 2

/-- A step stored as a scalar: a text of two characters has two parts. -/
def stepOfScalar : Value → List (ChainOp × Expr)
  | .str s =>
    match s.toList with
    | [op, c] =>
      [(.ofValue (.str (String.singleton op)), .malformed (.str (String.singleton c)))]
    | cs => failingStep (stepArity cs.length)
  | .bytes [op, b] => [(.other (.int op.toNat), .malformed (.int b.toNat))]
  | .bytes bs => failingStep (stepArity bs.length)
  | v =>
    failingStep (.raised "TypeError" ("cannot unpack non-iterable " ++ v.typeName ++ " object"))

mutual

/-- Data read as an expression. -/
def ofValue : Value → Expr
  | .list parts => ofNode (.list parts) parts
  | .tuple parts => ofNode (.tuple parts) parts
  | v => .malformed v

/-- A node read from its parts. -/
def ofNode (whole : Value) : List Value → Expr
  | [.str "literal", v] => .literal v
  | [.str "env", name] => .lookup (ofValue name)
  | [.str "indirect", inner] => .group (ofValue inner)
  | [.str "not", operand] => .not (ofValue operand)
  | [.str "dot", base, selectors] => .dot (ofValue base) (ofRow selectors)
  | [.str "funccall", callee, args] => .call (ofValue callee) (ofRow args)
  | [.str "methcall", name, args] => .method name (ofRow args)
  | [.str "expression", first, steps] => .chain (ofValue first) (ofSteps steps)
  | .str "literal" :: v :: _ :: _ => .surplus (.literal v) whole
  | .str "env" :: name :: _ :: _ => .surplus (.lookup (ofValue name)) whole
  | .str "indirect" :: inner :: _ :: _ => .surplus (.group (ofValue inner)) whole
  | .str "not" :: operand :: _ :: _ => .surplus (.not (ofValue operand)) whole
  | _ => .malformed whole

/-- A row of expressions read from whatever stands for it. -/
def ofRow : Value → List Expr
  | .list items => ofValues items
  | .tuple items => ofValues items
  | .map entries => ofKeys entries
  | v => partsOfScalar v

/-- Expressions read one by one. -/
def ofValues : List Value → List Expr
  | [] => []
  | v :: vs => ofValue v :: ofValues vs

/-- Expressions read from the keys of a mapping. -/
def ofKeys : List (Value × Value) → List Expr
  | [] => []
  | (k, _) :: rest => ofValue k :: ofKeys rest

/-- The steps of a chain read from whatever stands for them. -/
def ofSteps : Value → List (ChainOp × Expr)
  | .list items => ofStepItems items
  | .tuple items => ofStepItems items
  | .map entries => ofStepKeys entries
  | .str s => s.toList.flatMap fun c => stepOfScalar (.str (String.singleton c))
  | .bytes bs => bs.flatMap fun b => stepOfScalar (.int b.toNat)
  | v => failingStep (.notIterable v.typeName)

/-- Steps read one by one. -/
def ofStepItems : List Value → List (ChainOp × Expr)
  | [] => []
  | v :: vs => ofStep v ++ ofStepItems vs

/-- Steps read from the keys of a mapping. -/
def ofStepKeys : List (Value × Value) → List (ChainOp × Expr)
  | [] => []
  | (k, _) :: rest => ofStep k ++ ofStepKeys rest

/-- One step read from its two parts. -/
def ofStep : Value → List (ChainOp × Expr)
  | .list [op, operand] => [(.ofValue op, ofValue operand)]
  | .tuple [op, operand] => [(.ofValue op, ofValue operand)]
  | .map [(op, _), (operand, _)] => [(.ofValue op, ofValue operand)]
  | .list parts => failingStep (stepArity parts.length)
  | .tuple parts => failingStep (stepArity parts.length)
  | .map entries => failingStep (stepArity entries.length)
  | v => stepOfScalar v

end

end Expr
end TreeTemplate
