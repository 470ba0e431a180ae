import TreeTemplate.Document.Yaml.Node
import TreeTemplate.Document.Yaml.Scalar
import TreeTemplate.Value.Mapping

/-! # Values of YAML nodes

The value that a tree of nodes stands for.  A scalar is read at once, a collection is filled
one turn later, and so a tree is valued level by level: of two refusals the one at the earlier
turn counts, and of two at the same turn the first one.

The entries of other mappings can be merged into a mapping.  They come before its own, so its
own win.  A set is the mapping that its members are the keys of.
-/
namespace TreeTemplate.Document.Yaml

/-- A refusal, and the turn at which it is met. -/
structure TimedRefusal where
  turn : Nat
  cause : Refusal

/-- The value of a part of a tree. -/
abbrev Valued := Except TimedRefusal

namespace Valued

variable {α β γ : Type}

/-- What is found at a turn. -/
def atTurn (turn : Nat) (found : Attempt α) : Valued α := found.mapError (⟨turn, ·⟩)

/-- Refuses what is not written well at a turn. -/
def refuse (turn : Nat) : Valued α := .error ⟨turn, .malformed⟩

/-- Two parts together.  If both are refused, the earlier refusal counts, or else the first. -/
def both (f : α → β → γ) : Valued α → Valued β → Valued γ
  | .ok a, .ok b => .ok (f a b)
  | .ok _, .error e => .error e
  | .error e, .ok _ => .error e
  | .error e, .error e' => .error (if e'.turn < e.turn then e' else e)

@[simp] theorem both_ok (f : α → β → γ) (a : α) (b : β) :
    both f (.ok a) (.ok b) = .ok (f a b) := rfl

/-- Parts together have a value only if each of them has one. -/
theorem both_eq_ok_iff {f : α → β → γ} {x : Valued α} {y : Valued β} {c : γ} :
    both f x y = .ok c ↔ ∃ a b, x = .ok a ∧ y = .ok b ∧ f a b = c := by
  cases x <;> cases y <;> simp [both]

end Valued

namespace Node

/-- Entries of a mapping. -/
abbrev Row := List (Value × Value)

mutual

/-- The text of a node, and its place.  That of a mapping is the text of the value whose key
stands for `=`. -/
def text : Node → Attempt (List Char × Nat)
  | .scalar _ cs place => .ok (cs, place)
  | .sequence _ _ => refuse
  | .mapping _ entries => textOfEntries entries

/-- The text of the first value whose key stands for `=`. -/
def textOfEntries : List (Node × Node) → Attempt (List Char × Nat)
  | [] => refuse
  | (key, node) :: rest => if key.tag = .equals then node.text else textOfEntries rest

end

/-- The value of the text of a node. -/
def textValue (tag : Tag) (node : Node) : Attempt Value := do
  let (cs, place) ← node.text
  tag.value (.spelled place) cs

/-- The value of a key, which is no collection. -/
def keyValue (key : Node) : Attempt Value :=
  key.textValue (if key.tag = .equals then .text else key.tag)

mutual

/-- Whether the entries of a node can be merged into a mapping: it is a mapping, or a sequence
of mappings. -/
def isMergeable : Node → Bool
  | .scalar _ _ _ => false
  | .sequence _ items => areMergeable items
  | .mapping _ entries => mergesWell entries

/-- Whether nodes are mappings whose entries can be merged into another one. -/
def areMergeable : List Node → Bool
  | [] => true
  | .mapping _ entries :: rest => mergesWell entries && areMergeable rest
  | _ :: _ => false

/-- Whether all that entries merge into their mapping can be merged. -/
def mergesWell : List (Node × Node) → Bool
  | [] => true
  | (key, node) :: rest => (key.tag ≠ .merge || node.isMergeable) && mergesWell rest

end

mutual

/-- The value of a node that is met at a turn. -/
def value (turn : Nat) : Node → Valued Value
  | .scalar tag cs place =>
    if tag.isCollection then Valued.refuse (turn + 1)
    else Valued.atTurn turn (tag.value (.spelled place) cs)
  | .sequence tag items =>
    if tag = .list then (values (turn + 1) items).map .list
    else if tag = .entries then (pairs (turn + 1) items).map .list
    else Valued.refuse (if tag.isCollection then turn + 1 else turn)
  | .mapping tag entries =>
    if (tag = .mapping ∨ tag = .set) ∧ mergesWell entries then
      let (merged, own) := rows (turn + 1) entries
      Valued.both (fun merged own => .map (Mapping.ofPairs (merged ++ own))) merged own
    else if tag.isCollection then Valued.refuse (turn + 1)
    else Valued.atTurn turn (textValue tag (.mapping tag entries))

/-- The values of nodes. -/
def values (turn : Nat) : List Node → Valued (List Value)
  | [] => .ok []
  | node :: rest => Valued.both (· :: ·) (node.value turn) (values turn rest)

/-- The only entry of each of several mappings. -/
def pairs (turn : Nat) : List Node → Valued (List Value)
  | [] => .ok []
  | .mapping _ [(key, node)] :: rest =>
    Valued.both (· :: ·)
      (Valued.both (fun k v => .tuple [k, v]) (key.value turn) (node.value turn))
      (pairs turn rest)
  | _ :: _ => Valued.refuse turn

/-- The entries that a mapping takes from others, and its own. -/
def rows (turn : Nat) : List (Node × Node) → Valued Row × Valued Row
  | [] => (.ok [], .ok [])
  | (key, node) :: rest =>
    let (merged, own) := rows turn rest
    if key.tag = .merge then (Valued.both (· ++ ·) (node.given turn) merged, own)
    else
      let k := if key.tag.isCollection then Valued.refuse turn else Valued.atTurn turn key.keyValue
      (merged, Valued.both (· :: ·) (Valued.both Prod.mk k (node.value turn)) own)

/-- The entries that a mapping, or a sequence of mappings, gives to another one. -/
def given (turn : Nat) : Node → Valued Row
  | .scalar _ _ _ => Valued.refuse turn
  | .sequence _ items => givenByAll turn items
  | .mapping _ entries =>
    let (merged, own) := rows turn entries
    Valued.both (· ++ ·) merged own

/-- The entries that several mappings give; those of the first come last and so win. -/
def givenByAll (turn : Nat) : List Node → Valued Row
  | [] => .ok []
  | node :: rest => Valued.both (· ++ ·) (givenByAll turn rest) (node.given turn)

end

/-- The value of the tree below a node. -/
def treeValue (node : Node) : Attempt Value := (node.value 0).mapError (·.cause)

end Node
end TreeTemplate.Document.Yaml
