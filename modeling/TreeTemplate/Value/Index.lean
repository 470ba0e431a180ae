import TreeTemplate.Value.Mapping
import TreeTemplate.Value.Shown
import TreeTemplate.Failure

/-! # Selecting from containers

How a selector picks an item of a list or an entry of a mapping.  A list takes
whatever can be read as an integer, counted from the end when negative.  A mapping
takes a key as it is, and a number also by its text, since documents have text keys
only.
-/
namespace TreeTemplate.Value

/-- The integer that a value selects a list item by, if it can be read as one. -/
def position? : Value → Except Fault (Option Int)
  | .bool b => .ok (some (if b then 1 else 0))
  | .int n => .ok (some n)
  | .float (.infinite _) => .error .infiniteIndex
  | .float x => .ok x.truncate?
  | .str s => .ok (Text.readInt? s.toList)
  | .bytes bs => .ok (Text.readIntBytes? bs)
  | _ => .ok none

/-- The item at a position, counted from the end when negative. -/
def itemAt? (items : List Value) (i : Int) : Option Value :=
  if 0 ≤ i then items[i.toNat]?
  else if -i ≤ items.length then items[(items.length + i).toNat]?
  else none

/-- The item of a list that a key selects, or nothing. -/
def selectItem (items : List Value) (key : Value) : Except Fault Value :=
  match key.position? with
  | .error e => .error e
  | .ok none => .ok .null
  | .ok (some i) => .ok ((itemAt? items i).getD .null)

/-- The text under which a number that is no key itself is looked up. -/
def numberText? (host : HostRef → String) : Value → Option Value
  | .int n => some (.str (shown host (.int n)))
  | .float x => some (.str (shown host (.float x)))
  | _ => none

/-- The number that a moment has under a name. -/
def part? (name : Value) (m : Moment) : Option Nat :=
  match name with
  | .str s => m.part? s
  | _ => none

/-- The entry of a mapping that a key selects, or nothing. -/
def selectEntry (host : HostRef → String) (entries : Mapping.Entries) (key : Value) : Value :=
  match Mapping.find? entries key with
  | some v => v
  | none =>
    match numberText? host key with
    | some k => (Mapping.find? entries k).getD .null
    | none => .null

example : selectItem [.int 7, .int 8] (.int (-1)) = .ok (.int 8) ∧
    selectItem [.int 7, .int 8] (.str " 1") = .ok (.int 8) ∧
    selectItem [.int 7, .int 8] (.int (-3)) = .ok .null := by
  refine ⟨rfl, ?_, rfl⟩
  have h : (Value.str " 1").position? = .ok (some 1) := by cbv
  simp [selectItem, h, itemAt?]

end TreeTemplate.Value
