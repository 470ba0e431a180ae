import TreeTemplate.Binary64.Text
import TreeTemplate.Moment.Text

/-! # Values

The data that templates are made of and turn into: scalars, moments, lists, tuples,
mappings in insertion order, and references to things that the host program lends to a run.
-/
namespace TreeTemplate

/-- Something of the host program that a value can stand for: a function or a class
by its name, or an object by the name of its class and a number of its own. -/
inductive HostRef where
  | function (name : String)
  | type (name : String)
  | object (className : String) (id : Nat)
  deriving DecidableEq, Repr

/-- A value. -/
inductive Value where
  | null
  | bool (b : Bool)
  | int (n : Int)
  | float (x : Binary64)
  | str (s : String)
  | bytes (bs : List UInt8)
  | moment (m : Moment)
  | list (items : List Value)
  | tuple (items : List Value)
  | map (entries : List (Value × Value))
  | host (r : HostRef)
  deriving Repr

namespace Value

instance : Inhabited Value := ⟨.null⟩

/-- The name of a value's type. -/
def typeName : Value → String
  | .null => "NoneType"
  | .bool _ => "bool"
  | .int _ => "int"
  | .float _ => "float"
  | .str _ => "str"
  | .bytes _ => "bytes"
  | .moment m => m.typeName
  | .list _ => "list"
  | .tuple _ => "tuple"
  | .map _ => "dict"
  | .host (.function _) => "function"
  | .host (.type _) => "type"
  | .host (.object className _) => className

/-- The items of a list or tuple. -/
def items? : Value → Option (List Value)
  | .list items => some items
  | .tuple items => some items
  | _ => none

/-- The entries of a mapping. -/
def entries? : Value → Option (List (Value × Value))
  | .map entries => some entries
  | _ => none

/-- Whether what is selected from a value is a name of it. -/
def isObject : Value → Bool
  | .moment _ => true
  | .host (.object _ _) => true
  | _ => false

/-- Truth: nothing, zero, and empty texts and containers are false; moments and whatever
the host lends are true. -/
def truthy : Value → Bool
  | .null => false
  | .bool b => b
  | .int n => n ≠ 0
  | .float x => !x.isZero
  | .str s => !s.isEmpty
  | .bytes bs => !bs.isEmpty
  | .moment _ => true
  | .list items => !items.isEmpty
  | .tuple items => !items.isEmpty
  | .map entries => !entries.isEmpty
  | .host _ => true

@[simp] theorem items?_list (items : List Value) : (Value.list items).items? = some items := rfl

@[simp] theorem items?_tuple (items : List Value) : (Value.tuple items).items? = some items := rfl

@[simp] theorem entries?_map (entries : List (Value × Value)) :
    (Value.map entries).entries? = some entries := rfl

end Value
end TreeTemplate
