import TreeTemplate.Scope
import TreeTemplate.Value.Index

/-! # Paths into a scope

A path is a text with points: a name, then one step for each further part.  A step
selects an item of a list by its position or an entry of a mapping by its text, and
anything else has nothing to select.
-/
namespace TreeTemplate.Scope

/-- One step of a path. -/
def stepInto (container : Value) (part : String) : Value :=
  match container with
  | .list items => (Value.selectItem items (.str part)).toOption.getD .null
  | .tuple items => (Value.selectItem items (.str part)).toOption.getD .null
  | .map entries => (Mapping.find? entries (.str part)).getD .null
  | _ => .null

/-- The value at the end of the parts of a path, the first of which is a name. -/
def resolveParts (scope : Scope) : List String → Value
  | [] => .null
  | name :: parts => parts.foldl stepInto (scope.get (.str name))

/-- The parts of a path. -/
def parts (path : String) : List String := (path.toList.splitOn '.').map String.ofList

/-- The value at the end of a path.  A path that is no text is taken by its text if that
has a point, and is a key as it is otherwise. -/
def resolve (shows : HostRef → String) (scope : Scope) (path : Value) : Value :=
  let text := path.text shows
  if '.' ∈ text.toList then scope.resolveParts (parts text) else scope.get path

/-- A row of parts is resolved one part at a time. -/
theorem resolveParts_append (scope : Scope) (name : String) (before after : List String) :
    scope.resolveParts (name :: (before ++ after)) =
      after.foldl stepInto (scope.resolveParts (name :: before)) := by
  simp [resolveParts, List.foldl_append]

end TreeTemplate.Scope
