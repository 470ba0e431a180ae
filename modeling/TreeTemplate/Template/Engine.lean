import TreeTemplate.Expr.Eval
import TreeTemplate.Files.Search
import TreeTemplate.Template.Node

/-! # Processing templates

A node of a template emits a row of values into the place where it stands: a list
collects all of them, and any other place takes the first.  The same node emits the
same values everywhere, except that a comment vanishes in lists and merges and that a
produced list is spliced into a list on request.

Included documents are templates in turn.  `Node.run` takes what happens to them as an
argument, and `Engine.run` ties the knot for includes nested up to a given depth.
-/
namespace TreeTemplate

/-- What a run needs besides the template: a host, the files, where to search for them,
and how to decode them; decoding fails with the words of an error. -/
structure Engine (σ : Type) where
  host : Host σ
  includePaths : List String
  file? : Files.Loader
  decode : String → List UInt8 → Except String Value

/-- The kind of place in which a node stands. -/
inductive Context where
  | single
  | list
  | mapping
  deriving DecidableEq, Repr

namespace Context

/-- The values that a produced value is in a place: a list is spliced into a list on
request, and any other value is itself. -/
def place (context : Context) (splice : Bool) (v : Value) : List Value :=
  if splice && context = .list then v.items?.getD [v] else [v]

end Context

/-- The value that a single place takes from the values emitted into it. -/
def single (emitted : List Value) : Value := emitted.head?.getD .null

namespace Run

variable {σ α β : Type}

/-- Everything that a list makes, one item after another. -/
def collect (f : α → Run σ (List β)) : List α → Run σ (List β)
  | [] => pure []
  | a :: rest => do
    let bs ← f a
    let more ← collect f rest
    pure (bs ++ more)

/-- A value carried through a list, one item after another. -/
def carry (f : β → α → Run σ β) : β → List α → Run σ β
  | b, [] => pure b
  | b, a :: rest => do
    let c ← f b a
    carry f c rest

end Run

/-- What becomes of an included document in a place. -/
abbrev Includer (σ : Type) := Value → Scope → Context → Bool → Run σ (List Value)

namespace Engine

variable {σ : Type} (E : Engine σ)

/-- The value of a clause; an error in it names the clause. -/
def evaluate (scope : Scope) (clause : String) : Run σ Value :=
  (Expr.evaluate E.host scope clause).mapFailure (Failure.atClause clause)

/-- The value of a clause, which must be something that can be called. -/
def callee (scope : Scope) (clause : String) : Run σ Value := do
  let f ← E.evaluate scope clause
  if E.host.canCall f then pure f else E.host.failNotCallable f (some clause)

/-- The text that a value inserts; nothing inserts nothing. -/
def insertion (v : Value) : Run σ String :=
  match v with
  | .null => pure ""
  | v => E.host.textOf v

/-- The text that the value of a clause inserts. -/
def insert (scope : Scope) (clause : String) : Run σ String := do
  let v ← E.evaluate scope clause
  E.insertion v

/-- The entries of a value that must be a mapping. -/
def entriesOf (what clause : String) (v : Value) : Run σ Mapping.Entries :=
  match v with
  | .map entries => pure entries
  | v => Run.fail (.engine (.notMapping what v.typeName) (some clause))

/-- A plain text with its inserted values. -/
def plainText (scope : Scope) : List Inline.Segment → Run σ String
  | [] => pure ""
  | .literal cs :: rest => do
    let more ← plainText scope rest
    pure (String.ofList cs ++ more)
  | .value clause :: rest => do
    let s ← E.insert scope (String.ofList clause)
    let more ← plainText scope rest
    pure (s ++ more)

/-- The document of an included file. -/
def document (scope : Scope) (clause : String) : Run σ Value := do
  let filename ← E.insert scope clause
  let found ← Files.search (fun path => (E.file? path).isSome) filename E.includePaths
  match found with
  | none => Run.fail (.engine (.includeNotFound filename E.includePaths) none)
  | some path =>
    match E.decode path ((E.file? path).getD []) with
    | .ok doc => pure doc
    | .error detail => Run.fail (.engine (.includeDecode path detail) none)

/-- The directive that a leaf reports, if it is one. -/
def leafDirective? : Leaf → Option Directive
  | .direct _ _ => some .direct
  | .string _ => some .string
  | .comment _ => some .comment
  | .«include» _ _ => some .«include»
  | .call _ _ => some .call
  | .plain _ => none

/-- What a leaf emits. -/
def leaf (include_ : Includer σ) (scope : Scope) (context : Context) (splice : Bool) :
    Leaf → Run σ (List Value)
  | .direct dash clause => do
    let v ← E.evaluate scope clause
    pure (context.place (splice || dash) v)
  | .string clause => do
    let s ← E.insert scope clause
    pure [.str s]
  | .comment keep => pure (if context ≠ .single && !keep then [] else [.str ""])
  | .«include» dash clause => do
    let doc ← E.document scope clause
    include_ doc scope context (splice || dash)
  | .call dash clause => do
    let f ← E.callee scope clause
    let v ← E.host.apply f []
    pure (context.place (splice || dash) v)
  | .plain segments => do
    let s ← E.plainText scope segments
    pure [.str s]

/-- The items that a loop runs over. -/
def loopItems (clause : String) (v : Value) : Run σ (List Value) :=
  match v with
  | .null => pure []
  | .list items => pure items
  | .tuple items => pure items
  | v => Run.fail (.engine (.loopOver v.typeName) (some clause))

/-- The key of the case that a value selects: its own, else that of its text, else the
default case. -/
def chooseCase (keys : List Value) (value : Value) : Run σ (Option Value) := do
  let text ← E.host.textOf value
  let has := fun key => keys.any (Value.sameKey · key)
  pure (
    if value matches .null then if has (.str "?") then some (.str "?") else none
    else if has value then some value
    else if value.isHashable && has (.str text) then some (.str text)
    else if has (.str "?") then some (.str "?")
    else none)

/-- The effects pending between the elements of a plain list. -/
structure Pending where
  skip : Bool
  capture : Option Value
  splice : Bool

/-- No effect is pending. -/
def Pending.nothing : Pending := ⟨false, none, false⟩

/-- What is emitted at the end of a plain list: a function that still waits for its
argument is called without one. -/
def finish (pending : Pending) : Run σ (List Value) :=
  match pending.capture with
  | none => pure []
  | some f => do
    let v ← E.host.apply f []
    pure (Context.list.place pending.splice v)

/-- Binds a key to a value; the value was computed before the key is refused. -/
def put (entries : Mapping.Entries) (key value : Value) : Run σ Mapping.Entries :=
  match key.key? with
  | .ok _ => pure (Mapping.insert entries key value)
  | .error typeName => Run.fail (.fault (.unhashable typeName))

/-- Binds the entries of a value that must be a mapping. -/
def mergeInto (what clause : String) (entries : Mapping.Entries) (v : Value) :
    Run σ Mapping.Entries := do
  let part ← entriesOf what clause v
  pure (Mapping.update entries part)

end Engine

namespace Node

variable {σ : Type} (E : Engine σ) (include_ : Includer σ)

mutual

/-- The values that a node emits where it stands. -/
def run : Node → Scope → Context → Bool → Run σ (List Value)
  | .verbatim v, _, _, _ => pure [v]
  | .leaf source content, scope, context, splice => do
    match Engine.leafDirective? content with
    | some directive => Run.emit (.directive directive source)
    | none => pure ()
    E.leaf include_ scope context splice content
  | .loop source dash clause body, scope, context, splice => do
    Run.emit (.directive .loop source)
    let v ← E.evaluate scope clause
    let items ← Engine.loopItems clause v
    let result ← Run.collect (fun item => runAll body (scope.enter item)) items
    pure (context.place (splice || dash) (.list result))
  | .condition source dash clause yes no, scope, context, splice => do
    Run.emit (.directive .condition source)
    let v ← E.evaluate scope clause
    if v.truthy then runBranch yes scope context (splice || dash)
    else runBranch no scope context (splice || dash)
  | .elements forced parts, scope, context, splice => do
    let result ← runElements parts scope .nothing
    pure (context.place (splice || forced) (.list result))
  | .each key clause body, scope, context, splice => do
    Run.emit (.directive .hash key)
    let v ← E.evaluate scope clause
    let source ← Engine.entriesOf ("result of expression " ++ Text.quote clause) clause v
    let result ← Run.carry (fun entries (entry : Value × Value) => do
      let frame := Value.map [(.str "key", entry.1), (.str "value", entry.2)]
      let content ← run body (frame :: scope) .single false
      Engine.mergeInto "content of % construct" key entries (single content)) [] source
    pure (context.place splice (.map result))
  | .switch key clause cases, scope, context, splice => do
    Run.emit (.directive .switch key)
    let v ← E.evaluate scope clause
    let chosen ← E.chooseCase (cases.map (·.1)) v
    match chosen with
    | none => pure []
    | some case => runCase cases case scope context splice
  | .badSwitch key typeName, _, _, _ => do
    Run.emit (.directive .switch key)
    Run.fail (.engine (.switchCases typeName) (some key))
  | .merge entries, scope, context, splice => do
    let result ← runEntries entries scope []
    pure (context.place splice (.map result))
  | .mapping given, scope, context, splice => do
    let s ← Run.state
    run (given (Value.text (E.host.shows s))) scope context splice

/-- The values that nodes emit into a list, one after another. -/
def runAll : List Node → Scope → Run σ (List Value)
  | [], _ => pure []
  | node :: rest, scope => do
    let emitted ← run node scope .list false
    let more ← runAll rest scope
    pure (emitted ++ more)

/-- The values of a branch; an absent branch emits nothing. -/
def runBranch : Option Node → Scope → Context → Bool → Run σ (List Value)
  | none, _, _, _ => pure []
  | some node, scope, context, splice => run node scope context splice

/-- The values of the case with a given key. -/
def runCase : List (Value × Node) → Value → Scope → Context → Bool → Run σ (List Value)
  | [], _, _, _, _ => pure []
  | (key, node) :: rest, case, scope, context, splice =>
    if key.sameKey case then run node scope context splice
    else runCase rest case scope context splice

/-- The values that the elements of a plain list emit, given the pending effects. -/
def runElements : List Element → Scope → Engine.Pending → Run σ (List Value)
  | [], _, pending => E.finish pending
  | .skip :: rest, scope, pending => runElements rest scope { pending with skip := true }
  | .capture clause :: rest, scope, pending => do
    let f ← E.callee scope clause
    runElements rest scope { pending with capture := some f }
  | .splice :: rest, scope, pending => runElements rest scope { pending with splice := true }
  | .item node :: rest, scope, pending =>
    if pending.skip then runElements rest scope { pending with skip := false }
    else do
      let emitted ← match pending.capture with
        | some f => do
          let argument ← run node scope .single false
          let v ← E.host.apply f [single argument]
          pure (Context.list.place pending.splice v)
        | none => run node scope .list pending.splice
      let more ← runElements rest scope { pending with capture := none, splice := false }
      pure (emitted ++ more)

/-- The entries that the entries of a mapping make, added to those made before. -/
def runEntries : List Entry → Scope → Mapping.Entries → Run σ Mapping.Entries
  | [], _, made => pure made
  | .merge key value :: rest, scope, made => do
    let emitted ← run value scope .mapping true
    let made ← Run.carry (Engine.mergeInto "content of < merge" key) made emitted
    runEntries rest scope made
  | .commented key value :: _, _, _ => do
    let shownKey ← E.host.shown key
    Run.fail (.engine (.commentedValue shownKey (Text.quote value)) none)
  | .apply key clause value :: rest, scope, made => do
    let f ← E.callee scope clause
    let argument ← run value scope .single false
    let produced ← E.host.apply f [single argument]
    let made ← Engine.mergeInto ("result of " ++ Text.quote key) key made produced
    runEntries rest scope made
  | .put key value :: rest, scope, made => do
    let newKey ← run key scope .single false
    let newValue ← run value scope .single false
    let made ← Engine.put made (single newKey) (single newValue)
    runEntries rest scope made

end

end Node

namespace Engine

variable {σ : Type} (E : Engine σ)

/-- Reads a template from data, which needs nothing of the engine. -/
def read (_ : Engine σ) (template : Value) : Run σ Node := pure (Node.ofValue template)

/-- The values that a node emits, with includes nested up to a depth. -/
def run : Nat → Node → Scope → Context → Bool → Run σ (List Value)
  | 0, node => node.run E fun _ _ _ _ => Run.fail .unfinished
  | depth + 1, node => node.run E fun doc scope context splice => do
    let inner ← E.read doc
    run depth inner scope context splice

/-- The values that a template emits where it stands, with includes nested up to a
depth. -/
def emitted (depth : Nat) (template : Value) (scope : Scope) (context : Context)
    (splice : Bool) : Run σ (List Value) := do
  let node ← E.read template
  E.run depth node scope context splice

/-- A document that is included is a template like any other, one level down. -/
theorem run_succ (depth : Nat) (node : Node) :
    E.run (depth + 1) node = node.run E (E.emitted depth) := rfl

/-- What becomes of included documents, with includes nested up to a depth. -/
def includer : Nat → Includer σ
  | 0 => fun _ _ _ _ => Run.fail .unfinished
  | depth + 1 => E.emitted depth

/-- Nodes are run alike at all depths, but for included documents. -/
theorem run_eq (depth : Nat) (node : Node) : E.run depth node = node.run E (E.includer depth) := by
  cases depth <;> rfl

/-- A template is run as the node that it is read as. -/
theorem emitted_eq (depth : Nat) (template : Value) :
    E.emitted depth template = E.run depth (Node.ofValue template) := by
  funext scope context splice
  simp only [emitted, read, pure_bind]

/-- How deeply includes may be nested. -/
def includeDepth : Nat := 400

/-- The value of a template in a scope, with includes nested up to a depth. -/
def processWithin (depth : Nat) (template : Value) (scope : Scope) : Run σ Value :=
  match template with
  | .null => pure .null
  | template => do
    let values ← E.emitted depth template scope .single false
    pure (single values)

/-- No template comes to what it emits as a value that stands for itself. -/
theorem processWithin_eq (depth : Nat) (template : Value) (scope : Scope) :
    E.processWithin depth template scope =
      E.emitted depth template scope .single false >>= fun values => pure (single values) := by
  cases template with
  | null => simp [processWithin, emitted_eq, run_eq, Node.ofValue, Node.run, single]
  | _ => rfl

/-- Every value that a template emits into a list, with includes nested up to a depth;
no template emits nothing. -/
def processAllWithin (depth : Nat) (template : Value) (scope : Scope) : Run σ (List Value) :=
  match template with
  | .null => pure []
  | template => E.emitted depth template scope .list false

/-- The value of a template in a scope. -/
def process (template : Value) (scope : Scope) : Run σ Value :=
  E.processWithin includeDepth template scope

/-- Every value that a template emits into a list. -/
def processAll (template : Value) (scope : Scope) : Run σ (List Value) :=
  E.processAllWithin includeDepth template scope

end Engine
end TreeTemplate
