import TreeTemplate.Expr.Parser
import TreeTemplate.Expr.Printer
import TreeTemplate.Host
import TreeTemplate.Scope
import TreeTemplate.Value.Index

/-! # Evaluating expressions

An expression has one value in a scope.  Operands are evaluated from left to right; a
step of a chain that is not taken is not evaluated, and neither are the arguments of a
callee that cannot be called.  A selector means what the value before it makes of it: a
name of an object, a key of a mapping, a position in a list.
-/
namespace TreeTemplate.Expr

variable {σ : Type} (H : Host σ)

/-- Ends with the error that a method stands where no object does. -/
def failMethod {α : Type} (name : Value) : Run σ α := do
  let shown ← H.shown name
  Run.fail (.engine (.methodWithoutObject shown) none)

/-- Ends with the error that a selector follows a scalar. -/
def failScalar {α : Type} (selector : Expr) (v : Value) : Run σ α := do
  let s ← Run.state
  match selector.toText (H.shows s) with
  | .error cause => Run.fail (.fault cause)
  | .ok text => Run.fail (.engine (.selectOnScalar text v.typeName (v.shown (H.shows s))) none)

/-- The value that a key selects from a mapping. -/
def selectFromMapping (entries : Mapping.Entries) (key : Value) : Run σ Value := do
  let s ← Run.state
  pure (Value.selectEntry (H.shows s) entries key)

/-- The value that a key selects from a list. -/
def selectFromList (items : List Value) (key : Value) : Run σ Value :=
  Run.ofExcept ((Value.selectItem items key).mapError .fault)

/-- The part of a moment that a name selects, which takes no arguments. -/
def selectFromMoment (m : Moment) (name : Value) (args : List Value) : Run σ Value :=
  match name.part? m with
  | none => do
    let shown ← H.shown name
    Run.fail (.engine (.unknownMethod m.typeName shown) none)
  | some n => if args.isEmpty then pure (.int n) else H.failNotCallable (.int n) none

/-- What a selector that is no method call does with the value before it, given how to
evaluate the selector. -/
def selectBy (selector : Expr) (key : Run σ Value) : Value → Run σ Value
  | .host (.object c i) => do
    let name ← key
    H.select (.object c i) name []
  | .moment m => do selectFromMoment H m (← key) []
  | .map entries => do selectFromMapping H entries (← key)
  | .list items => do selectFromList items (← key)
  | .tuple items => do selectFromList items (← key)
  | v => failScalar H selector v

/-- What a method call does with the value before it, given how to evaluate its
arguments. -/
def selectMethod (name : Value) (args : List Expr) (values : Run σ (List Value)) :
    Value → Run σ Value
  | .host (.object c i) => do
    let vs ← values
    H.select (.object c i) name vs
  | .moment m => do selectFromMoment H m name (← values)
  | .map _ | .list _ | .tuple _ => failMethod H name
  | v => failScalar H (.method name args) v

mutual

/-- The value of an expression in a scope. -/
def eval (scope : Scope) : Expr → Run σ Value
  | .literal v => pure v
  | .lookup name => do
    let key ← eval scope name
    pure (scope.get key)
  | .group inner => eval scope inner
  | .dot base selectors => do
    let v ← eval scope base
    evalSelectors scope selectors v
  | .call callee args => do
    let f ← eval scope callee
    if H.canCall f then
      let vs ← evalAll scope args
      H.apply f vs
    else H.failNotCallable f none
  | .method name _ => failMethod H name
  | .not operand => do
    let v ← eval scope operand
    pure (.bool !v.truthy)
  | .chain first steps => do
    let v ← eval scope first
    evalSteps scope steps v
  | .malformed tree => do
    let shown ← H.shown tree
    Run.fail (.engine (.malformedTree shown) none)
  | .surplus _ tree => do
    let shown ← H.shown tree
    Run.fail (.engine (.malformedTree shown) none)
  | .broken cause => Run.fail (.fault cause)

/-- The values of a row of expressions, in order. -/
def evalAll (scope : Scope) : List Expr → Run σ (List Value)
  | [] => pure []
  | e :: es => do
    let v ← eval scope e
    let vs ← evalAll scope es
    pure (v :: vs)

/-- The value that selectors lead to from a value. -/
def evalSelectors (scope : Scope) : List Expr → Value → Run σ Value
  | [], v => pure v
  | .method name args :: rest, v => do
    let w ← selectMethod H name args (evalAll scope args) v
    evalSelectors scope rest w
  | selector :: rest, v => do
    let w ← selectBy H selector (eval scope selector) v
    evalSelectors scope rest w

/-- The value that the steps of a chain lead to from a value. -/
def evalSteps (scope : Scope) : List (ChainOp × Expr) → Value → Run σ Value
  | [], v => pure v
  | (op, operand) :: rest, v =>
    if op.taken v then do
      let w ← eval scope operand
      evalSteps scope rest w
    else evalSteps scope rest v

end

/-- The value of an expression text in a scope. -/
def evaluate (scope : Scope) (text : String) : Run σ Value := do
  Run.emit (.clause text)
  match parse? text with
  | some e => eval H scope e
  | none => Run.fail (.engine (.grammar text) (some text))

end TreeTemplate.Expr
