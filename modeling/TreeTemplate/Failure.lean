import TreeTemplate.Text.Quoted

/-! # Failures

What can end a run early.  An engine error names a cause of the expression language or
the template engine and may carry the clause at which it arose; a fault is an error of
the data itself or of a host function; a run that nests includes too deeply stops
unfinished.  The words of each cause are in `message` and nowhere else.
-/
namespace TreeTemplate

/-- The errors of the expression language and the template engine.  Values appear in
the form in which the message shows them. -/
inductive EngineError where
  | grammar (text : String)
  | malformedTree (shown : String)
  | methodWithoutObject (name : String)
  | immutableWrite (key : String)
  | selectOnScalar (selector typeName shown : String)
  | unknownMethod (typeName name : String)
  | notCallable (typeName shown : String)
  | loopOver (typeName : String)
  | switchCases (typeName : String)
  | includeNotFound (filename : String) (paths : List String)
  | includeDecode (path detail : String)
  | commentedValue (key value : String)
  | notMapping (what typeName : String)
  /-- An engine error without a kind of its own, raised by a host function. -/
  | other (message : String)
  deriving DecidableEq, Repr

namespace EngineError

/-- The name under which a cause is reported. -/
def kind : EngineError → String
  | .grammar _ => "GrammarError"
  | .malformedTree _ | .methodWithoutObject _ => "ExpressionError"
  | .immutableWrite _ => "ImmutableWriteError"
  | .selectOnScalar _ _ _ => "SubselectOnScalarError"
  | .unknownMethod _ _ => "UnknownMethodError"
  | .notCallable _ _ => "NotCallableError"
  | .loopOver _ | .switchCases _ => "TemplateError"
  | .includeNotFound _ _ => "IncludeNotFoundError"
  | .includeDecode _ _ => "IncludeDecodeError"
  | .commentedValue _ _ => "CommentedValueError"
  | .notMapping _ _ => "HashConstructTypeError"
  | .other _ => "PlaitError"

/-- The words of a cause. -/
def message : EngineError → String
  | .grammar text => "cannot parse expression " ++ Text.quote text
  | .malformedTree shown => "malformed expression tree: " ++ shown
  | .methodWithoutObject name => "method " ++ name ++ " called on a value that is not an object"
  | .immutableWrite key => "immutable environment being changed (key " ++ key ++ ")"
  | .selectOnScalar selector typeName shown =>
    "asked to subselect " ++ selector ++ " on a scalar (" ++ typeName ++ ": " ++ shown ++ ")"
  | .unknownMethod typeName name => typeName ++ " object has no method " ++ name
  | .notCallable typeName shown => "value is not callable (" ++ typeName ++ ": " ++ shown ++ ")"
  | .loopOver typeName => "loop over " ++ typeName ++ ", expected a list"
  | .switchCases typeName => "switch cases must be a mapping, not " ++ typeName
  | .includeNotFound filename paths =>
    "can't find template " ++ Text.quote filename ++ " in " ++ ":".intercalate paths
  | .includeDecode path detail =>
    "cannot decode included file " ++ Text.quote path ++
      if detail.isEmpty then "" else ": " ++ detail
  | .commentedValue key value =>
    "cannot comment out a value (key " ++ key ++ ", value " ++ value ++ ")"
  | .notMapping what typeName => what ++ " must be a mapping, not " ++ typeName
  | .other message => message

end EngineError

/-- Errors of the data and of host functions. -/
inductive Fault where
  /-- A list or mapping was used as a key. -/
  | unhashable (typeName : String)
  /-- A list was selected with an infinite number. -/
  | infiniteIndex
  /-- A string literal holds every delimiter. -/
  | unquotable (shown : String)
  /-- A position outside a row of the named kind was asked for. -/
  | outOfRange (what : String)
  /-- A value of the named type was taken apart like a list. -/
  | notIterable (typeName : String)
  /-- A value of the named type was indexed. -/
  | notSubscriptable (typeName : String)
  /-- A value of the named type was written into. -/
  | notAssignable (typeName : String)
  /-- A list was indexed with a value of the named type. -/
  | listIndexType (typeName : String)
  /-- A node of a tree has fewer parts than its kind has. -/
  | tooFewParts (expected got : Nat)
  /-- A node of a tree has more parts than its kind has. -/
  | tooManyParts (expected : Nat)
  /-- Any other error, by its kind and words. -/
  | raised (kind message : String)
  deriving DecidableEq, Repr

namespace Fault

/-- The name under which a fault is reported. -/
def kind : Fault → String
  | .unhashable _ | .notIterable _ | .notSubscriptable _ | .notAssignable _
  | .listIndexType _ => "TypeError"
  | .infiniteIndex => "OverflowError"
  | .unquotable _ | .tooFewParts _ _ | .tooManyParts _ => "ValueError"
  | .outOfRange _ => "IndexError"
  | .raised kind _ => kind

/-- The words of a fault. -/
def message : Fault → String
  | .unhashable typeName => "unhashable type: '" ++ typeName ++ "'"
  | .infiniteIndex => "cannot convert float infinity to integer"
  | .unquotable shown =>
    "string " ++ shown ++ " contains every string delimiter and cannot be printed"
  | .outOfRange what => what ++ " out of range"
  | .notIterable typeName => "'" ++ typeName ++ "' object is not iterable"
  | .notSubscriptable typeName => "'" ++ typeName ++ "' object is not subscriptable"
  | .notAssignable typeName => "'" ++ typeName ++ "' object does not support item assignment"
  | .listIndexType typeName => "list indices must be integers or slices, not " ++ typeName
  | .tooFewParts expected got =>
    "not enough values to unpack (expected " ++ toString expected ++ ", got " ++
      toString got ++ ")"
  | .tooManyParts expected => "too many values to unpack (expected " ++ toString expected ++ ")"
  | .raised _ message => message

end Fault

/-- What ends a run early. -/
inductive Failure where
  | engine (cause : EngineError) (clause : Option String)
  | fault (cause : Fault)
  /-- Includes are nested more deeply than the run allows. -/
  | unfinished
  deriving DecidableEq, Repr

namespace Failure

/-- The name under which a failure is reported. -/
def kind : Failure → String
  | .engine cause _ => cause.kind
  | .fault cause => cause.kind
  | .unfinished => "RecursionError"

/-- The words of a failure. -/
def message : Failure → String
  | .engine cause _ => cause.message
  | .fault cause => cause.message
  | .unfinished => "maximum recursion depth exceeded"

/-- The clause at which an engine error arose, if it is known. -/
def clause : Failure → Option String
  | .engine _ clause => clause
  | _ => none

/-- Names `text` as the failing clause of an engine error that names none yet. -/
def atClause (text : String) : Failure → Failure
  | .engine cause none => .engine cause (some text)
  | failure => failure

@[simp] theorem atClause_fault (text : String) (cause : Fault) :
    (Failure.fault cause).atClause text = .fault cause := rfl

@[simp] theorem atClause_engine (text : String) (cause : EngineError) (clause : Option String) :
    (Failure.engine cause clause).atClause text =
      .engine cause (some (clause.getD text)) := by
  cases clause <;> rfl

end Failure
end TreeTemplate
