import TreeTemplate.Expr.Basic
import TreeTemplate.Expr.Token
import TreeTemplate.Value.Key
import TreeTemplate.Value.Shown

/-! # Printing expressions

The text of an expression, which reads back as the same expression when it came from
text.  A string is put between the first delimiter it does not hold, a selector that is
an identifier or an integer stands bare, and a chain inside a chain or after `!` gets
parentheses.  Stored data that is no expression is shown as the value it is.
-/
namespace TreeTemplate

/-- The name under which the operator of a step is printed. -/
def ChainOp.text (host : HostRef → String) : ChainOp → List Char
  | .whenTrue => ['?']
  | .whenFalse => [':']
  | .other v => (v.text host).toList

namespace Expr

/-- The text under construction, or the fault of a part that has none. -/
abbrev Printed := Except Fault (List Char)

/-- A string literal between delimiters. -/
def printString (s : String) : Printed :=
  match Token.delimiters.find? fun d => !s.toList.contains d with
  | some d => .ok (d :: s.toList ++ [d])
  | none => .error (.unquotable (Text.quote s))

/-- A literal. -/
def printLiteral (host : HostRef → String) : Value → Printed
  | .str s => printString s
  | v => .ok (v.shownChars host)

/-- What the fault of indexing a value says about it. -/
def unindexable : Value → Fault
  | .host (.type name) => .raised "TypeError" ("type '" ++ name ++ "' is not subscriptable")
  | v => .notSubscriptable v.typeName

/-- The part of stored data at a position. -/
def partAt (v : Value) (i : Nat) : Except Fault Value :=
  match v with
  | .list items => (items[i]?.map .ok).getD (.error (.outOfRange "list index"))
  | .tuple items => (items[i]?.map .ok).getD (.error (.outOfRange "tuple index"))
  | .str s =>
    (s.toList[i]?.map fun c => .ok (.str (String.singleton c))).getD
      (.error (.outOfRange "string index"))
  | .bytes bs => (bs[i]?.map fun b => .ok (.int b.toNat)).getD (.error (.outOfRange "index"))
  | .map entries =>
    ((Value.map entries).entries?.bind fun es =>
      (es.find? fun entry => entry.1.sameKey (.int i)).map fun entry => Except.ok entry.2).getD
      (.error (.raised "KeyError" (String.ofList (Text.showInt i))))
  | v => .error (unindexable v)

/-- Whether stored data that is no node is marked with a tag all the same. -/
def hasTag (tree : Value) (tag : String) : Except Fault Bool := do
  match ← partAt tree 0 with
  | .str s => pure (s == tag)
  | _ => pure false

/-- The value of a part that is marked as a literal. -/
def literalValue? : Expr → Except Fault (Option Value)
  | .literal v => .ok (some v)
  | .surplus (.literal v) _ => .ok (some v)
  | .malformed tree => do
    if ← hasTag tree "literal" then some <$> partAt tree 1 else pure none
  | .broken cause => .error cause
  | _ => .ok none

/-- Whether a part is marked as a chain. -/
def isChain : Expr → Except Fault Bool
  | .chain _ _ => .ok true
  | .malformed tree => hasTag tree "expression"
  | .broken cause => .error cause
  | _ => .ok false

/-- The bare form of a name or selector, if its value has one. -/
def bareName? : Option Value → Option (List Char)
  | some (.str s) => if Text.isIdentifier s.toList then some s.toList else none
  | _ => none

/-- The bare form of a selector, if its value has one. -/
def bareSelector? : Option Value → Option (List Char)
  | some (.int n) => some (Text.showInt n)
  | v => bareName? v

/-- The tags of nodes with a single part. -/
def unaryTags : List String := ["literal", "env", "indirect", "not"]

/-- The tags of nodes with two parts. -/
def binaryTags : List String := ["dot", "funccall", "methcall", "expression"]

/-- Stored data that is no expression: a known tag with too few or too many parts is a
fault, and everything else is shown as a value. -/
def printMalformed (host : HostRef → String) (tree : Value) : Printed :=
  match tree.items? with
  | some (tag :: parts) =>
    match tag.key? with
    | .error typeName => .error (.unhashable typeName)
    | .ok key =>
      match key with
      | .str s =>
        if s ∈ unaryTags then (partAt tree 1).map fun v => v.shownChars host
        else if s ∈ binaryTags then
          .error (if parts.length < 2 then .tooFewParts 3 (parts.length + 1) else .tooManyParts 3)
        else .ok (tree.shownChars host)
      | _ => .ok (tree.shownChars host)
  | _ => .ok (tree.shownChars host)

/-- Parentheses around a text. -/
def parenthesised (cs : List Char) : List Char := '(' :: cs ++ [')']

mutual

/-- The characters of an expression. -/
def print (host : HostRef → String) : Expr → Printed
  | .literal v => printLiteral host v
  | .lookup name => do
    match bareName? (← literalValue? name) with
    | some cs => pure cs
    | none => pure ('$' :: (← print host name))
  | .group inner => do pure (parenthesised (← print host inner))
  | .dot base selectors => do
    let first ← print host base
    pure (first ++ (← printSelectors host selectors))
  | .call callee args => do
    let name ← print host callee
    pure (name ++ parenthesised (← printArguments host args))
  | .method name args => do
    pure ((name.text host).toList ++ parenthesised (← printArguments host args))
  | .not operand => do
    let chain ← isChain operand
    let cs ← print host operand
    pure ('!' :: if chain then parenthesised cs else cs)
  | .chain first steps => do
    let chain ← isChain first
    let cs ← print host first
    pure ((if chain then parenthesised cs else cs) ++ (← printSteps host steps))
  | .malformed tree => printMalformed host tree
  | .surplus node _ => print host node
  | .broken cause => .error cause

/-- The selectors of a selection, each after its point. -/
def printSelectors (host : HostRef → String) : List Expr → Printed
  | [] => .ok []
  | selector :: rest => do
    let cs ← match bareSelector? (← literalValue? selector) with
      | some cs => .ok cs
      | none => print host selector
    pure ('.' :: cs ++ (← printSelectors host rest))

/-- The arguments of a call, with commas between them. -/
def printArguments (host : HostRef → String) : List Expr → Printed
  | [] => .ok []
  | arg :: rest => do
    let cs ← print host arg
    pure (cs ++ (← printMoreArguments host rest))

/-- The arguments of a call after one of them. -/
def printMoreArguments (host : HostRef → String) : List Expr → Printed
  | [] => .ok []
  | arg :: rest => do
    let cs ← print host arg
    pure (',' :: ' ' :: cs ++ (← printMoreArguments host rest))

/-- The steps of a chain, each after its operator. -/
def printSteps (host : HostRef → String) : List (ChainOp × Expr) → Printed
  | [] => .ok []
  | (op, operand) :: rest => do
    let chain ← isChain operand
    let cs ← print host operand
    let step := ' ' :: op.text host ++ ' ' :: if chain then parenthesised cs else cs
    pure (step ++ (← printSteps host rest))

end

/-- The text of an expression. -/
def toText (host : HostRef → String) (e : Expr) : Except Fault String :=
  (print host e).map String.ofList

end Expr
end TreeTemplate
