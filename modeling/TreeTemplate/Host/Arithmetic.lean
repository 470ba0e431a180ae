import TreeTemplate.Failure
import TreeTemplate.Value.Basic

/-! # Arithmetic on values

The sums and products that host methods need: exact on integers, rounded once on
doubles, and repetition for a row and a count.
-/
namespace TreeTemplate.Value

/-- A number of any type. -/
inductive Number where
  | int (n : Int)
  | float (x : Binary64)

namespace Number

/-- A number as a double, if it is not too large for one. -/
def toFloat? : Number → Option Binary64
  | .float x => some x
  | .int n =>
    match Binary64.ofInt n with
    | .infinite _ => none
    | x => some x

/-- A number as a value. -/
def toValue : Number → Value
  | .int n => .int n
  | .float x => .float x

end Number

/-- The number that a value is. -/
def number? : Value → Option Number
  | .bool b => some (.int (if b then 1 else 0))
  | .int n => some (.int n)
  | .float x => some (.float x)
  | _ => none

/-- The fault of an integer that no double is near. -/
def tooLarge : Fault := .raised "OverflowError" "int too large to convert to float"

/-- Combines two numbers, as integers if both are. -/
def combine (onInts : Int → Int → Int) (onFloats : Binary64 → Binary64 → Binary64)
    (x y : Number) : Except Fault Value :=
  match x, y with
  | .int m, .int n => .ok (.int (onInts m n))
  | x, y =>
    match x.toFloat?, y.toFloat? with
    | some a, some b => .ok (.float (onFloats a b))
    | _, _ => .error tooLarge

/-- `n` copies of a row, one after another. -/
def repeated {α : Type} (n : Int) (xs : List α) : List α :=
  (List.replicate n.toNat xs).flatten

/-- A row repeated, if the value is a row. -/
def repeat? (n : Int) : Value → Option Value
  | .str s => some (.str (String.ofList (repeated n s.toList)))
  | .bytes bs => some (.bytes (repeated n bs))
  | .list items => some (.list (repeated n items))
  | .tuple items => some (.tuple (repeated n items))
  | _ => none

/-- Whether a value can be repeated. -/
def isRow (v : Value) : Bool := (v.repeat? 0).isSome

/-- The fault of an operator that does not apply to two values. -/
def unsupported (op : String) (x y : Value) : Fault :=
  .raised "TypeError" ("unsupported operand type(s) for " ++ op ++ ": '" ++ x.typeName ++
    "' and '" ++ y.typeName ++ "'")

/-- The fault of a row repeated by something that is no integer. -/
def badCount (count : Value) : Fault :=
  .raised "TypeError" ("can't multiply sequence by non-int of type '" ++ count.typeName ++ "'")

/-- The product of two values; one that is no number has the payload. -/
def times (payload : Payload) (x y : Value) : Except Fault Value :=
  match x.number?, y.number? with
  | some a, some b => combine (· * ·) (Binary64.mul payload) a b
  | some (.int n), none => ((y.repeat? n).map .ok).getD (.error (unsupported "*" x y))
  | none, some (.int n) => ((x.repeat? n).map .ok).getD (.error (unsupported "*" x y))
  | _, _ =>
    if x.isRow then .error (badCount y)
    else if y.isRow then .error (badCount x)
    else .error (unsupported "*" x y)

/-- The sum of a value and an integer; one that is no number has the payload. -/
def plus (payload : Payload) (x : Value) (n : Int) : Except Fault Value :=
  match x.number? with
  | some a => combine (· + ·) (Binary64.add payload) a (.int n)
  | none =>
    match x with
    | .str _ | .list _ | .tuple _ =>
      .error (.raised "TypeError"
        ("can only concatenate " ++ x.typeName ++ " (not \"int\") to " ++ x.typeName))
    | .bytes _ => .error (.raised "TypeError" "can't concat int to bytes")
    | x => .error (unsupported "+=" x (.int n))

end TreeTemplate.Value
