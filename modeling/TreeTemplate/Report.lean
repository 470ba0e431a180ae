import TreeTemplate.Files.Disk
import TreeTemplate.Run

/-! # Reports

What is told about a run once it is over: a value, or an error with its kind, its words
and the clause that failed.  An engine error always becomes a report; a fault of the data
or of a host function does not, and is passed on.
-/
namespace TreeTemplate

/-- What is told about an error; any part of it may be unknown. -/
structure ErrorReport where
  kind : Option String
  message : Option String
  clause : Option String
  deriving DecidableEq, Repr

namespace ErrorReport

/-- The words of an error; an error without words is an unknown one. -/
def words (e : ErrorReport) : String :=
  match e.message with
  | none | some "" => "Unknown error"
  | some message => message

/-- The words of an error after its kind, unless they begin with it. -/
def named (e : ErrorReport) : String :=
  match e.kind with
  | none | some "" => e.words
  | some kind =>
    let start := kind ++ ":"
    if start.toList.isPrefixOf e.words.toList then e.words else start ++ " " ++ e.words

/-- The text of an error, with a line for its clause when that is known. -/
def text (e : ErrorReport) : String :=
  match e.clause with
  | none => e.named
  | some clause => e.named ++ "\nIn clause: " ++ clause

end ErrorReport

/-- What is told about a run. -/
structure Report where
  value : Value := .null
  error : Option ErrorReport := none

namespace Report

/-- The text of the error of a run, if there is one. -/
def errorText (r : Report) : String := (r.error.map ErrorReport.text).getD ""

/-- The report of a run that came to a value. -/
def success (v : Value) : Report := { value := v }

/-- The report of an error of a known kind. -/
def failure (kind message : String) (clause : Option String) : Report :=
  { error := some ⟨some kind, some message, clause⟩ }

/-- The report of a failed run.  The clause of a text that cannot be parsed is in the
message already; a failure that is no engine error has no report. -/
def ofFailure? : Failure → Option Report
  | .engine (.grammar text) _ =>
    some (failure (EngineError.grammar text).kind (EngineError.grammar text).message none)
  | .engine cause clause => some (failure cause.kind cause.message clause)
  | .fault _ | .unfinished => none

/-- The report of a document that was not loaded; a fault of its data is passed on. -/
def ofLoadFault : Files.LoadFault → Except Failure Report
  | .undecodable (.fault cause) => .error (.fault cause)
  | e => .ok (failure e.kind e.message none)

end Report

/-- A run whose failures become values where `f` has one for them. -/
def Run.recover {σ α : Type} (f : Failure → Option α) (x : Run σ α) : Run σ α := fun s =>
  let o := x s
  match o.result with
  | .ok a => ⟨.ok a, o.events, o.state⟩
  | .error e => ⟨(f e).elim (.error e) .ok, o.events, o.state⟩

end TreeTemplate
