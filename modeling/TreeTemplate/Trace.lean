import TreeTemplate.Run
import TreeTemplate.Text.Quoted

/-! # Traces

What a run reports while it is being traced: a line for every directive that it
recognises and for every path that it tries.  Calls and clauses leave no line.
-/
namespace TreeTemplate

namespace Directive

/-- How a trace names a directive. -/
def traceName : Directive → String
  | .direct => "text directive _text_direct"
  | .string => "text directive _text_string"
  | .comment => "text directive _text_comment"
  | .«include» => "text directive _text_include"
  | .call => "text directive _text_call"
  | .loop => "list directive _list_loop"
  | .condition => "list directive _list_condition"
  | .hash => "hash construct"
  | .switch => "switch construct"

end Directive

namespace Event

/-- The line that an event leaves in a trace. -/
def traceLine? : Event → Option String
  | .directive kind source => some ("[DBG] " ++ kind.traceName ++ " " ++ Text.quote source)
  | .probe filename path found =>
    some ("[DBG] include " ++ Text.quote filename ++ ": " ++ (if found then "found " else "no ") ++
      Text.quote path)
  | .call _ | .clause _ => none

end Event

/-- The trace of a row of events. -/
def traceOf (events : List Event) : List String := events.filterMap Event.traceLine?

@[simp] theorem traceOf_nil : traceOf [] = [] := rfl

/-- The trace of one run after another is the one trace after the other. -/
theorem traceOf_append (before after : List Event) :
    traceOf (before ++ after) = traceOf before ++ traceOf after := by
  simp [traceOf]

end TreeTemplate
