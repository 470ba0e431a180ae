import TreeTemplate.Failure
import TreeTemplate.Value.Basic

/-! # Runs

A run takes the state of the host to a result or a failure, the state after it, and
the row of events that an observer sees on the way.  Events are an output only: what
a run does never depends on the events before it.  Sequencing is lawful, so runs can be
rearranged like any other monadic program.
-/
namespace TreeTemplate

/-- A call into the host: of a function, class or callable object, or of a name on an
object. -/
inductive HostCall where
  | function (callee : HostRef) (args : List Value)
  | method (object : HostRef) (name : Value) (args : List Value)
  deriving Repr

/-- The kinds of template directives that a trace reports. -/
inductive Directive where
  | direct | string | comment | «include» | call | loop | condition | hash | switch
  deriving DecidableEq, Repr

/-- What an observer of a run sees. -/
inductive Event where
  | call (c : HostCall)
  /-- An expression text was handed to the parser. -/
  | clause (text : String)
  /-- A directive was recognised in a text of the template. -/
  | directive (kind : Directive) (source : String)
  /-- A path was tried for an included file. -/
  | probe (filename path : String) (found : Bool)
  deriving Repr

/-- What a run comes to. -/
structure Outcome (σ α : Type) where
  result : Except Failure α
  events : List Event
  state : σ

/-- A program that may call the host, whose state has type `σ`. -/
def Run (σ α : Type) : Type := σ → Outcome σ α

namespace Run

variable {σ α β : Type}

/-- Ends at once with a value. -/
protected def pure (a : α) : Run σ α := fun s => ⟨.ok a, [], s⟩

/-- Goes on after a value; a failure ends the run. -/
protected def bind (x : Run σ α) (f : α → Run σ β) : Run σ β := fun s =>
  let o := x s
  match o.result with
  | .ok a => let p := f a o.state; ⟨p.result, o.events ++ p.events, p.state⟩
  | .error e => ⟨.error e, o.events, o.state⟩

/-- One run after another: the events of the second follow those of the first. -/
instance : Monad (Run σ) where
  pure := Run.pure
  bind := Run.bind

/-- Ends at once with a failure. -/
def fail (e : Failure) : Run σ α := fun s => ⟨.error e, [], s⟩

/-- Reports an event. -/
def emit (e : Event) : Run σ Unit := fun s => ⟨.ok (), [e], s⟩

/-- The state of the host. -/
def state : Run σ σ := fun s => ⟨.ok s, [], s⟩

/-- A step of the host, which changes its state whether or not it fails. -/
def step (f : σ → Except Failure α × σ) : Run σ α := fun s =>
  let (result, t) := f s
  ⟨result, [], t⟩

/-- A result that needs no host. -/
def ofExcept (r : Except Failure α) : Run σ α := fun s => ⟨r, [], s⟩

/-- Changes the failure that a run ends with. -/
def mapFailure (f : Failure → Failure) (x : Run σ α) : Run σ α := fun s =>
  let o := x s
  match o.result with
  | .ok a => ⟨.ok a, o.events, o.state⟩
  | .error e => ⟨.error (f e), o.events, o.state⟩

/-- The calls into the host that a row of events reports. -/
def callsOf (events : List Event) : List HostCall :=
  events.filterMap fun
    | .call c => some c
    | _ => none

theorem pure_def (a : α) : (pure a : Run σ α) = fun s => ⟨.ok a, [], s⟩ := rfl

theorem bind_def (x : Run σ α) (f : α → Run σ β) : x >>= f = Run.bind x f := rfl

@[simp] theorem pure_apply (a : α) (s : σ) : (pure a : Run σ α) s = ⟨.ok a, [], s⟩ := rfl

@[simp] theorem fail_apply (e : Failure) (s : σ) :
    (fail e : Run σ α) s = ⟨.error e, [], s⟩ := rfl

/-- A run that ends with a result goes on, in the state that it leaves. -/
theorem bind_apply_ok {x : Run σ α} {f : α → Run σ β} {s : σ} {a : α}
    (h : (x s).result = .ok a) :
    (x >>= f) s =
      ⟨(f a (x s).state).result, (x s).events ++ (f a (x s).state).events,
        (f a (x s).state).state⟩ := by
  simp [bind_def, Run.bind, h]

/-- A run that fails does not go on. -/
theorem bind_apply_error {x : Run σ α} {f : α → Run σ β} {s : σ} {e : Failure}
    (h : (x s).result = .error e) :
    (x >>= f) s = ⟨.error e, (x s).events, (x s).state⟩ := by
  simp [bind_def, Run.bind, h]

@[simp] theorem fail_bind (e : Failure) (f : α → Run σ β) : fail e >>= f = fail e := rfl

theorem run_id_map (x : Run σ α) : id <$> x = x := by
  funext s
  show Run.bind x (fun a => Run.pure a) s = x s
  unfold Run.bind
  rcases h : x s with ⟨_ | a, es, t⟩ <;> simp [Run.pure]

theorem run_pure_bind (a : α) (f : α → Run σ β) : pure a >>= f = f a := by
  funext s
  show Run.bind (Run.pure a) f s = f a s
  simp [Run.bind, Run.pure]

theorem run_bind_assoc {γ : Type} (x : Run σ α) (f : α → Run σ β) (g : β → Run σ γ) :
    x >>= f >>= g = x >>= fun a => f a >>= g := by
  funext s
  show Run.bind (Run.bind x f) g s = Run.bind x (fun a => Run.bind (f a) g) s
  unfold Run.bind
  rcases x s with ⟨_ | a, es, t⟩
  · rfl
  · rcases hf : f a t with ⟨_ | b, es', t'⟩ <;> simp [hf]

instance : LawfulMonad (Run σ) :=
  LawfulMonad.mk' (Run σ) run_id_map run_pure_bind run_bind_assoc

end Run
end TreeTemplate
