import TreeTemplate.Run
import TreeTemplate.Value.Shown

/-! # The host interface

What the library asks of the program around it: how the things it lends are shown and
which of them can be called, and the calls themselves.  An object is reached by name
only.  Either it takes every name as a message, or it has members of its own: methods,
and attributes whose value is handed out.  Everything above is written against this
interface and holds for every host.
-/
namespace TreeTemplate

/-- What an object has under a name. -/
inductive Member where
  | method
  | attribute (value : Value)

/-- A host whose state has type `σ`. -/
structure Host (σ : Type) where
  /-- How something lent is shown. -/
  shows : σ → HostRef → String
  /-- Whether something lent can be called like a function. -/
  callable : HostRef → Bool
  /-- Calls something lent. -/
  call : HostRef → List Value → σ → Except Failure Value × σ
  /-- Whether an object takes every name as a message. -/
  takesMessages : HostRef → Bool
  /-- Sends an object a message. -/
  send : HostRef → Value → List Value → σ → Except Failure Value × σ
  /-- What an object that takes no messages has under a name. -/
  member? : σ → HostRef → String → Option Member
  /-- Calls a method of an object. -/
  invoke : HostRef → String → List Value → σ → Except Failure Value × σ

namespace Host

variable {σ : Type} (H : Host σ)

/-- The unambiguous form of a value, as things stand. -/
def shown (v : Value) : Run σ String := do
  let s ← Run.state
  pure (v.shown (H.shows s))

/-- The form of a value that a template inserts, as things stand. -/
def textOf (v : Value) : Run σ String := do
  let s ← Run.state
  pure (v.text (H.shows s))

/-- Whether a value can be called like a function. -/
def canCall : Value → Bool
  | .host r => H.callable r
  | _ => false

/-- Ends with the error that a value cannot be called. -/
def failNotCallable {α : Type} (v : Value) (clause : Option String) : Run σ α := do
  let shown ← H.shown v
  Run.fail (.engine (.notCallable v.typeName shown) clause)

/-- Calls a value with arguments. -/
def apply (f : Value) (args : List Value) : Run σ Value :=
  match f with
  | .host r => do
    Run.emit (.call (.function r args))
    Run.step (H.call r args)
  | v => H.failNotCallable v none

/-- Reaches the member `name` of an object that takes no messages: a method is called,
an attribute that can be called is called as well, and any other attribute is the
result by itself. -/
def reach (r : HostRef) (name : String) (args : List Value) : Run σ Value := do
  let s ← Run.state
  match H.member? s r name with
  | none =>
    let shown ← H.shown (.str name)
    Run.fail (.engine (.unknownMethod (Value.host r).typeName shown) none)
  | some .method => Run.step (H.invoke r name args)
  | some (.attribute v) =>
    match v with
    | .host f =>
      if H.callable f then Run.step (H.call f args)
      else if args.isEmpty then pure v
      else H.failNotCallable v none
    | v => if args.isEmpty then pure v else H.failNotCallable v none

/-- Selects a name of an object, with arguments or without. -/
def select (r : HostRef) (name : Value) (args : List Value) : Run σ Value := do
  Run.emit (.call (.method r name args))
  if H.takesMessages r then Run.step (H.send r name args)
  else
    match name with
    | .str s => H.reach r s args
    | v =>
      let shown ← H.shown v
      Run.fail (.engine (.unknownMethod (Value.host r).typeName shown) none)

end Host
end TreeTemplate
