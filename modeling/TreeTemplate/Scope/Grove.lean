import TreeTemplate.Scope.Forest

/-! # Groves

Environments that go by names.  A name may be given again, to a newer environment; the older
one stays as it is, and remains the parent of its children.  Whoever works with a grove makes
environments, writes into them and reads from them, one step at a time.
-/
namespace TreeTemplate

/-- Environments, and the names given to them, the latest first. -/
structure Grove where
  forest : Forest := []
  names : List (String × Nat) := []

namespace Grove

/-- What is done with the environments of a grove. -/
inductive Step where
  /-- Make an environment, with a parent if `parent` is the name of one. -/
  | new (name : String) (data : Value) (immutable : Bool) (parent : String)
  | child (parent name : String) (data : Value)
  | set (name : String) (key value : Value)
  | get (name : String) (key default : Value)
  | contains (name : String) (key : Value)
  | keys (name : String)
  | resolve (name : String) (path : Value)

/-- The number of the environment that goes by a name. -/
def id? (G : Grove) (name : String) : Option Nat := G.names.lookup name

/-- A grove with a new environment under a name.  The answer says whether the environment is
immutable and whether it has a parent. -/
def add (G : Grove) (name : String) (data : Value) (immutable : Bool) (parent : Option Nat) :
    Except Failure Value × Grove :=
  let made := G.forest.make data immutable parent
  (.ok (.list [.bool immutable, .bool parent.isSome]), ⟨made.2, (name, made.1) :: G.names⟩)

/-- A key written into an environment; the answer is the value. -/
def write (shows : HostRef → String) (G : Grove) (id : Nat) (key value : Value) :
    Except Failure Value × Grove :=
  match G.forest.set id (key.shown shows) key value with
  | .ok forest => (.ok value, { G with forest := forest })
  | .error e => (.error e, G)

/-- The answer to a step and the grove after it.  There is no such step on a name that no
environment has. -/
def step (shows : HostRef → String) (G : Grove) : Step → Option (Except Failure Value × Grove)
  | .new name data immutable parent => some (G.add name data immutable (G.id? parent))
  | .child parent name data => (G.id? parent).map fun id => G.add name data false (some id)
  | .set name key value => (G.id? name).map fun id => G.write shows id key value
  | .get name key default => (G.id? name).map fun id =>
    (.ok (((G.forest.scope id).find? key).getD default), G)
  | .contains name key => (G.id? name).map fun id =>
    (.ok (.bool ((G.forest.scope id).find? key).isSome), G)
  | .keys name => (G.id? name).map fun id =>
    (.ok (.list (((G.forest.find? id).map Environment.keys).getD [])), G)
  | .resolve name path => (G.id? name).map fun id =>
    (.ok ((G.forest.scope id).resolve shows path), G)

end Grove
end TreeTemplate
