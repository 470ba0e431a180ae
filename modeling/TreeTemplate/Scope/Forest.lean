import TreeTemplate.Scope.Path

/-! # Forests of environments

Environments are numbered in the order in which they are made, and the parent of an
environment is older than itself, so every chain of parents ends.  An environment's
scope is the row of data along its chain.  Writing touches the data of one environment;
whoever has that environment on its chain sees the write, unless a nearer environment
binds the key.
-/
namespace TreeTemplate

/-- An environment: its own data, whether that may be written, and its parent. -/
structure Environment where
  data : Value
  immutable : Bool
  parent : Option Nat

namespace Environment

/-- The keys that an environment binds itself, in order. -/
def keys (e : Environment) : List Value := (e.data.entries?.getD []).map (·.1)

/-- An environment shown with the texts of its keys; the name of its parent is given. -/
def shown (text : Value → String) (parentName : String) (e : Environment) : String :=
  "<Environment bindings=[" ++ ", ".intercalate (e.keys.map text) ++ "]" ++
    (if e.immutable then " immutable" else "") ++
    (if e.parent.isSome then ", parent=#" ++ parentName else "") ++ ">"

end Environment

/-- The position in a list that may be written: any position there is, counted from the
end when negative. -/
def Value.assignPosition? (items : List Value) : Value → Except Fault Nat
  | .bool b => at_ (if b then 1 else 0)
  | .int n => at_ n
  | key => .error (.listIndexType key.typeName)
where
  /-- The position that an integer stands for. -/
  at_ (n : Int) : Except Fault Nat :=
    if 0x8000000000000000 ≤ n ∨ n < -0x8000000000000000 then
      .error (.raised "IndexError" "cannot fit 'int' into an index-sized integer")
    else
      let i := if n < 0 then n + items.length else n
      if 0 ≤ i ∧ i < items.length then .ok i.toNat
      else .error (.outOfRange "list assignment index")

/-- Data with a key written. -/
def Value.assign (data key value : Value) : Except Fault Value :=
  match data with
  | .map entries =>
    match key.key? with
    | .ok _ => .ok (.map (Mapping.insert entries key value))
    | .error typeName => .error (.unhashable typeName)
  | .list items => (Value.assignPosition? items key).map fun i => .list (items.set i value)
  | data => .error (.notAssignable data.typeName)

/-- The environments made so far, the newest first. -/
abbrev Forest := List Environment

namespace Forest

/-- The environment with a number. -/
def find? : Forest → Nat → Option Environment
  | [], _ => none
  | e :: older, id => if id = older.length then some e else find? older id

/-- An environment and its ancestors, nearest first. -/
def chain : Forest → Nat → List Environment
  | [], _ => []
  | e :: older, id =>
    if id = older.length then
      match e.parent with
      | none => [e]
      | some parent => e :: chain older parent
    else chain older id

/-- The scope that an environment stands for. -/
def scope (F : Forest) (id : Nat) : Scope := (F.chain id).map (·.data)

/-- A new environment, with its number; no data is a mapping without entries. -/
def make (F : Forest) (data : Value) (immutable : Bool) (parent : Option Nat) : Nat × Forest :=
  let data := if data matches .null then .map [] else data
  (F.length, ⟨data, immutable, parent⟩ :: F)

/-- A new environment inside another one; it can be written. -/
def makeChild (F : Forest) (parent : Nat) (data : Value) : Nat × Forest :=
  F.make data false (some parent)

/-- Changes the data of the environment with a number. -/
def modify : Forest → Nat → Value → Forest
  | [], _, _ => []
  | e :: older, id, data =>
    if id = older.length then { e with data := data } :: older else e :: modify older id data

/-- Writes a key of an environment's own data. -/
def set (F : Forest) (id : Nat) (shownKey : String) (key value : Value) :
    Except Failure Forest :=
  match F.find? id with
  | none => .ok F
  | some e =>
    if e.immutable then .error (.engine (.immutableWrite shownKey) none)
    else
      match e.data.assign key value with
      | .ok data => .ok (F.modify id data)
      | .error cause => .error (.fault cause)

@[simp] theorem length_modify (F : Forest) (id : Nat) (data : Value) :
    (F.modify id data).length = F.length := by
  induction F with
  | nil => rfl
  | cons e older ih => by_cases h : id = older.length <;> simp [modify, h, ih]

/-- A chain has at most as many environments as were made. -/
theorem length_chain_le (F : Forest) (id : Nat) : (F.chain id).length ≤ F.length := by
  induction F generalizing id with
  | nil => simp [chain]
  | cons e older ih =>
    by_cases h : id = older.length
    · cases hp : e.parent with
      | none => simp [chain, h, hp]
      | some parent => simpa [chain, h, hp] using ih parent
    · simpa [chain, h] using Nat.le_succ_of_le (ih id)

end Forest
end TreeTemplate
