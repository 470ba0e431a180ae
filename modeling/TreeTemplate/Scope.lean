import TreeTemplate.Value.Mapping

/-! # Scopes

A scope is a row of frames, innermost first.  A name is looked up in the first frame
that binds it, even to nothing; a frame whose data is not a mapping binds nothing.
-/
namespace TreeTemplate

/-- The data of the frames of a scope, innermost first. -/
abbrev Scope := List Value

namespace Scope

/-- The value that a frame binds to a key. -/
def ownValue? (frame key : Value) : Option Value :=
  frame.entries?.bind fun entries => Mapping.find? entries key

/-- The value bound to a key in the nearest frame that binds it. -/
def find? : Scope → Value → Option Value
  | [], _ => none
  | frame :: outer, key =>
    match ownValue? frame key with
    | some v => some v
    | none => find? outer key

/-- The value of a key; an unbound key has no value, which is nothing. -/
def get (scope : Scope) (key : Value) : Value := (scope.find? key).getD .null

/-- The scope inside a frame that binds a single name. -/
def bind (scope : Scope) (name : String) (value : Value) : Scope :=
  .map [(.str name, value)] :: scope

/-- The scope of one round of a loop: a mapping is the round's frame, anything else
is bound to `_`. -/
def enter (scope : Scope) (item : Value) : Scope :=
  match item with
  | .map _ => item :: scope
  | _ => scope.bind "_" item

@[simp] theorem find?_nil (key : Value) : find? [] key = none := rfl

/-- The innermost frame that has the key answers. -/
theorem find?_cons (frame : Value) (outer : Scope) (key : Value) :
    find? (frame :: outer) key = (ownValue? frame key).or (find? outer key) := by
  simp only [find?]
  cases ownValue? frame key <;> rfl

end Scope
end TreeTemplate
