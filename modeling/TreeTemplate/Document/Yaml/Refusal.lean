import TreeTemplate.Failure

/-! # Refusals of YAML

Why a text is no document: it is not written well, or a part that is written well stands for
nothing, which is a fault of its own kind.
-/
namespace TreeTemplate.Document.Yaml

/-- Why a text is no document. -/
inductive Refusal where
  | malformed
  | fault (cause : Fault)
  deriving DecidableEq, Repr

/-- A part of the reading of a document. -/
abbrev Attempt := Except Refusal

/-- Refuses a text that is not written well. -/
def refuse {α : Type} : Attempt α := .error .malformed

/-- What was found, if something was. -/
def orRefuse {α : Type} (found : Option α) : Attempt α := found.elim refuse .ok

/-- Refuses a part that stands for nothing. -/
def refuseFault {α : Type} (kind message : String) : Attempt α :=
  .error (.fault (.raised kind message))

@[simp] theorem orRefuse_some {α : Type} (a : α) : orRefuse (some a) = .ok a := rfl

@[simp] theorem orRefuse_none {α : Type} :
    orRefuse (none : Option α) = .error .malformed := rfl

end TreeTemplate.Document.Yaml
