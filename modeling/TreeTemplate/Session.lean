import TreeTemplate.Report
import TreeTemplate.Template.Engine

/-! # Sessions

An engine in use: its search paths may grow, and the host remembers what was done to it.
A template that is run from a file is searched for includes in its own folder first,
during that run only.
-/
namespace TreeTemplate

namespace Engine

variable {σ : Type} (E : Engine σ)

/-- What is told about a run of a template. -/
def report (template : Value) (scope : Scope) : Run σ Report :=
  Run.recover Report.ofFailure? (Report.success <$> E.process template scope)

end Engine

/-- An engine with the state of its host. -/
structure Session (σ : Type) where
  engine : Engine σ
  state : σ

/-- What a step of a session shows: its result and what was observed. -/
structure Shown (α : Type) where
  result : Except Failure α
  events : List Event

namespace Session

variable {σ α : Type} (S : Session σ)

/-- The session with other search paths. -/
def withPaths (paths : List String) : Session σ :=
  { S with engine := { S.engine with includePaths := paths } }

/-- The session with further search paths after the ones it has. -/
def addPaths (paths : List String) : Session σ :=
  S.withPaths (S.engine.includePaths ++ paths)

/-- A run of the engine, after which the host has a new state. -/
def run (f : Engine σ → Run σ α) : Shown α × Session σ :=
  let o := f S.engine S.state
  (⟨o.result, o.events⟩, { S with state := o.state })

/-- The documents of a template and of its data; without a path there is no data. -/
def load (disk : Files.Disk) (template : String) (data : Option String) :
    Except Files.LoadFault (Value × Value) := do
  let doc ← disk.load template
  match data with
  | none | some "" => pure (doc, .null)
  | some path => pure (doc, ← disk.load path)

/-- Runs the template at a path with the data at another one.  The template's folder is
searched first, unless it is searched anyway, and is taken out again afterwards, however
the run ends. -/
def runFiles (disk : Files.Disk) (template : String) (data : Option String) :
    Shown Report × Session σ :=
  match load disk template data with
  | .error e => (⟨Report.ofLoadFault e, []⟩, S)
  | .ok (doc, value) =>
    let folder := Files.folder template
    let before := S.engine.includePaths
    if before.contains folder then S.run fun E => E.report doc [value]
    else
      let (shown, after) := (S.withPaths (folder :: before)).run fun E => E.report doc [value]
      (shown, after.withPaths (after.engine.includePaths.erase folder))

/-- A run of the engine keeps the search paths. -/
@[simp] theorem includePaths_run (f : Engine σ → Run σ α) :
    (S.run f).2.engine.includePaths = S.engine.includePaths := rfl

end Session
end TreeTemplate
