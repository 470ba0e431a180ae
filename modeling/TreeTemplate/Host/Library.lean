import TreeTemplate.Host
import TreeTemplate.Host.Arithmetic
import TreeTemplate.Value.Mapping

/-! # A host library

A host with a handful of functions, two classes and three kinds of objects, enough to
reach every way in which a template can call out.  Objects are numbered in the order in
which they are made, so what an object holds is older than the object itself.
-/
namespace TreeTemplate.Library

/-- What an object holds. -/
inductive Object where
  /-- Answers every message with the message itself. -/
  | recorder
  | point (x y : Value)
  /-- Counts the calls made to it. -/
  | counter (n : Value)

/-- The state of the library: the objects made so far, newest first, the arguments of the
calls of `seen`, latest first, and how many payloads were given out. -/
structure State where
  objects : List Object := []
  seen : List (List Value) := []
  payloads : Nat := 0

instance : Inhabited State := ⟨{}⟩

namespace Object

/-- The name of an object's class. -/
def className : Object → String
  | .recorder => "Recorder"
  | .point _ _ => "Point"
  | .counter _ => "Counter"

end Object

/-- The object with a number, and the objects older than it. -/
def find? : List Object → Nat → Option (Object × List Object)
  | [], _ => none
  | o :: older, id => if id = older.length then some (o, older) else find? older id

/-- How functions and classes are shown. -/
def showsName : HostRef → String
  | .function name => "<function " ++ name ++ ">"
  | .type name => "<class 'host." ++ name ++ "'>"
  | .object className _ => "<" ++ className ++ ">"

/-- How something lent is shown, given the objects made so far. -/
def shows : List Object → HostRef → String
  | [], r => showsName r
  | o :: older, .object className id =>
    if id = older.length then
      match o with
      | .recorder => "Recorder()"
      | .point x y => "Point(" ++ x.shown (shows older) ++ ", " ++ y.shown (shows older) ++ ")"
      | .counter n => "Counter(" ++ n.shown (shows older) ++ ")"
    else shows older (.object className id)
  | _, r => showsName r

/-- Replaces the object with a number. -/
def replace : List Object → Nat → Object → List Object
  | [], _, _ => []
  | o :: older, id, new =>
    if id = older.length then new :: older else o :: replace older id new

/-- Makes an object. -/
def State.make (s : State) (o : Object) : Value × State :=
  (.host (.object o.className s.objects.length), { s with objects := o :: s.objects })

/-- The payload of the next NaN. -/
def State.payload (s : State) : Payload := .made s.payloads

/-- The state when the next payload is given out. -/
def State.afterPayload (s : State) : State := { s with payloads := s.payloads + 1 }

/-- The names of the functions. -/
def functionNames : List String :=
  ["now", "none", "pair", "pair0", "ident", "args", "tup", "wrap", "kv", "mk", "getfn", "join",
    "add", "seen", "fail", "failp", "failc"]

/-- The names of the classes. -/
def typeNames : List String := ["Point", "Counter"]

/-- An error of a function, with its kind and words. -/
def raised {α : Type} (kind message : String) : Except Failure α :=
  .error (.fault (.raised kind message))

/-- An argument by its position; a missing one is nothing. -/
def arg (args : List Value) (i : Nat) : Value := args[i]?.getD .null

/-- The sum of two integers, or else the two texts one after the other. -/
def sumOf (shows : HostRef → String) (x y : Value) : Value :=
  match x, y with
  | .int m, .int n => .int (m + n)
  | x, y => .str (x.text shows ++ y.text shows)

/-- What a function gives for its arguments. -/
def callFunction (name : String) (args : List Value) (s : State) : Except Failure Value :=
  let first := arg args 0
  match name with
  | "now" => .ok (.str "tick")
  | "pair" => .ok (.list [first, first])
  | "pair0" => .ok (.list [.int 1, .int 2])
  | "ident" => .ok first
  | "args" => .ok (.list args)
  | "tup" => .ok (.tuple args)
  | "wrap" => .ok (.map [(.str "wrapped", first)])
  | "kv" =>
    match first.key? with
    | .ok _ => .ok (.map [(first, arg args 1)])
    | .error typeName => .error (.fault (.unhashable typeName))
  | "mk" => .ok (.map [(.str "x", .list [.int 1, .int 2])])
  | "getfn" =>
    match first.key? with
    | .error typeName => .error (.fault (.unhashable typeName))
    | .ok _ =>
      match first with
      | .str name =>
        .ok (if name ∈ functionNames then .host (.function name) else .null)
      | _ => .ok .null
  | "join" =>
    match first.items? with
    | some items => .ok (.str ("-".intercalate (items.map (Value.text (shows s.objects)))))
    | none => .ok (.str (first.text (shows s.objects)))
  | "add" => .ok (sumOf (shows s.objects) first (arg args 1))
  | "seen" => .ok first
  | "fail" => raised "ValueError" "boom"
  | "failp" => .error (.engine (.other "plait boom") none)
  | "failc" => .error (.engine (.other "plait boom") (some "own clause"))
  | _ => .ok .null

/-- The state after a function was called. -/
def afterFunction (name : String) (args : List Value) (s : State) : State :=
  if name = "seen" then { s with seen := args :: s.seen } else s

/-- The object that a class makes of its arguments. -/
def construct? (name : String) (args : List Value) : Option Object :=
  match name with
  | "Point" => some (.point (arg args 0) (arg args 1))
  | "Counter" =>
    match arg args 0 with
    | .null => some (.counter (.int 0))
    | n => some (.counter n)
  | _ => none

/-- Adds to a counter. -/
def State.count (s : State) (id : Nat) (by_ : Int) : Except Failure Value × State :=
  match find? s.objects id with
  | some (.counter n, _) =>
    match n.plus s.payload by_ with
    | .ok m => (.ok m, { s.afterPayload with objects := replace s.objects id (.counter m) })
    | .error cause => (.error (.fault cause), s)
  | _ => (.ok .null, s)

/-- Calls a function, a class or a counter. -/
def call (r : HostRef) (args : List Value) (s : State) : Except Failure Value × State :=
  match r with
  | .function name => (callFunction name args s, afterFunction name args s)
  | .type name =>
    match construct? name args with
    | some o => let (v, t) := s.make o; (.ok v, t)
    | none => (.ok .null, s)
  | .object _ id =>
    match s.count id 10 with
    | (.ok n, t) => (.ok (.list (n :: args)), t)
    | (.error e, t) => (.error e, t)

/-- Sends an object a message. -/
def send (_ : HostRef) (name : Value) (args : List Value) (s : State) :
    Except Failure Value × State :=
  (.ok (.tuple [name, .list args]), s)

/-- The methods of an object. -/
def methodNames : Object → List String
  | .recorder => []
  | .point _ _ => ["scaled", "as_list", "boom", "inner"]
  | .counter _ => ["next"]

/-- The attributes of an object. -/
def attributes : Object → List (String × Value)
  | .recorder => []
  | .point x y => [("x", x), ("y", y)]
  | .counter n => [("n", n)]

/-- The object that a reference stands for. -/
def State.object? (s : State) : HostRef → Option Object
  | .object _ id => (find? s.objects id).map (·.1)
  | _ => none

/-- What an object has under a name. -/
def member? (s : State) (r : HostRef) (name : String) : Option Member :=
  match s.object? r with
  | none => none
  | some o =>
    if name ∈ methodNames o then some .method
    else ((attributes o).lookup name).map .attribute

/-- A point with both coordinates multiplied. -/
def State.scaled (s : State) (x y f : Value) : Except Failure Value × State :=
  let t := s.afterPayload
  match x.times s.payload f, y.times t.payload f with
  | .error cause, _ => (.error (.fault cause), s)
  | _, .error cause => (.error (.fault cause), s)
  | .ok a, .ok b => let (v, u) := t.afterPayload.make (.point a b); (.ok v, u)

/-- Calls a method of an object. -/
def invoke (r : HostRef) (name : String) (args : List Value) (s : State) :
    Except Failure Value × State :=
  match r, s.object? r with
  | .object _ id, some (.counter _) => s.count id 1
  | _, some (.point x y) =>
    match name with
    | "scaled" => s.scaled x y (arg args 0)
    | "as_list" => (.ok (.list [x, y]), s)
    | "boom" => (raised "ValueError" "boom", s)
    | _ => (raised "AttributeError" "inner", s)
  | _, _ => (.ok .null, s)

/-- Functions, classes and counters can be called. -/
def callable : HostRef → Bool
  | .function _ => true
  | .type _ => true
  | .object className _ => className = "Counter"

/-- Recorders take every message. -/
def takesMessages : HostRef → Bool
  | .object className _ => className = "Recorder"
  | _ => false

/-- The library as a host. -/
def host : Host State where
  shows := fun s => shows s.objects
  callable := callable
  call := call
  takesMessages := takesMessages
  send := send
  member? := member?
  invoke := invoke

end TreeTemplate.Library
