import Mathlib.Logic.Relation
import TreeTemplate.Proofs.Template.Failing

/-! # Where processing stops

A run of a template passes through points (`Engine.Point`): a node, what remains of a plain list,
or an entry of a mapping, each in a scope, in a state of the host and in the document that is being
processed.  From one point it comes to others, where it goes on with a part of what is to be done
once everything before that part has ended with a result (`Engine.Leads`); an include leads into the
document of its file, one level down.  A point is where processing stops if what is to be done there
by itself fails (`Engine.Halts`), and then it is known what processing was at (`Engine.Stop`).  If
no function of the host fails, a run fails exactly if it comes to a point where it stops
(`Engine.fails_iff_stops`).  One direction follows the points back to the first; the other one is an
induction on the depth of includes and on the node (`Node.induction`).
-/
namespace TreeTemplate

variable {σ : Type}

/-! ## Nodes by their parts -/

/-- The nodes that stand in an entry. -/
def Entry.nodes : Entry → List Node
  | .merge _ value => [value]
  | .commented _ _ => []
  | .apply _ _ value => [value]
  | .put key value => [key, value]

namespace Node

/-- A node stands in another one. -/
inductive PartOf : Node → Node → Prop
  | body {source clause : String} {dash : Bool} {body : List Node} {node : Node} (h : node ∈ body) :
    PartOf node (.loop source dash clause body)
  | yes {source clause : String} {dash : Bool} {node : Node} {yes no : Option Node}
    (h : node ∈ yes) : PartOf node (.condition source dash clause yes no)
  | no {source clause : String} {dash : Bool} {node : Node} {yes no : Option Node}
    (h : node ∈ no) : PartOf node (.condition source dash clause yes no)
  | item {forced : Bool} {parts : List Element} {node : Node} (h : .item node ∈ parts) :
    PartOf node (.elements forced parts)
  | content {key clause : String} {node : Node} : PartOf node (.each key clause node)
  | case {key clause : String} {cases : List (Value × Node)} {case : Value × Node}
    (h : case ∈ cases) : PartOf case.2 (.switch key clause cases)
  | entry {entries : List Entry} {entry : Entry} {node : Node} (he : entry ∈ entries)
    (h : node ∈ entry.nodes) : PartOf node (.merge entries)
  | given {given : (Value → String) → Node} (text : Value → String) :
    PartOf (given text) (.mapping given)

section
variable {motive : Node → Prop}
  (step : ∀ node, (∀ part, PartOf part node → motive part) → motive node)
include step

-- Along the recursion of the nodes.
set_option linter.unusedSectionVars false in
mutual

/-- What holds of every node whose parts it holds of holds of every node. -/
theorem induction : ∀ node, motive node
  | .verbatim _ => step _ nofun
  | .leaf _ _ => step _ nofun
  | .badSwitch _ _ => step _ nofun
  | .loop _ _ _ body => step _ fun part h => by
    cases h with
    | body h => exact inductionAll body part h
  | .condition _ _ _ yes no => step _ fun part h => by
    cases h with
    | yes h => exact inductionBranch yes part h
    | no h => exact inductionBranch no part h
  | .elements _ parts => step _ fun part h => by
    cases h with
    | item h => exact inductionElements parts part h
  | .each _ _ body => step _ fun part h => by
    cases h with
    | content => exact induction body
  | .switch _ _ cases => step _ fun part h => by
    cases h with
    | case h => exact inductionCases cases _ h
  | .merge entries => step _ fun part h => by
    cases h with
    | entry he h => exact inductionEntries entries _ he part h
  | .mapping given => step _ fun part h => by
    cases h with
    | given text => exact induction (given text)

theorem inductionAll : ∀ nodes : List Node, ∀ node ∈ nodes, motive node
  | [] => by simp
  | node :: rest => List.forall_mem_cons.mpr ⟨induction node, inductionAll rest⟩

theorem inductionBranch : ∀ branch : Option Node, ∀ node ∈ branch, motive node
  | none => by simp
  | some node => by simpa using induction node

theorem inductionElements : ∀ parts : List Element, ∀ node, .item node ∈ parts → motive node
  | [] => by simp
  | .item node :: rest => by simpa using ⟨induction node, inductionElements rest⟩
  | .skip :: rest | .capture _ :: rest | .splice :: rest => by
    simpa using inductionElements rest

theorem inductionCases : ∀ cases : List (Value × Node), ∀ case ∈ cases, motive case.2
  | [] => by simp
  | (_, node) :: rest => List.forall_mem_cons.mpr ⟨induction node, inductionCases rest⟩

theorem inductionEntries : ∀ entries : List Entry, ∀ entry ∈ entries, ∀ node ∈ entry.nodes,
    motive node
  | [] => by simp
  | .merge _ value :: rest | .apply _ _ value :: rest =>
    List.forall_mem_cons.mpr ⟨by simpa [Entry.nodes] using induction value, inductionEntries rest⟩
  | .commented _ _ :: rest =>
    List.forall_mem_cons.mpr ⟨by simp [Entry.nodes], inductionEntries rest⟩
  | .put key value :: rest =>
    List.forall_mem_cons.mpr ⟨by simpa [Entry.nodes] using ⟨induction key, induction value⟩,
      inductionEntries rest⟩

end

end

end Node

/-! ## Points of a run -/

namespace Engine

/-- What a run is at: a node, what remains of the elements of a plain list, or an entry of a
mapping with the entries that were made before it. -/
inductive Task where
  | node (node : Node) (context : Context) (splice : Bool)
  | elements (parts : List Element) (pending : Pending)
  | entry (entry : Entry) (made : Mapping.Entries)

/-- The clause that is evaluated at a task before anything else. -/
def Task.clause? : Task → Option String
  | .node (.leaf _ (.direct _ clause)) _ _ => some clause
  | .node (.leaf _ (.string clause)) _ _ => some clause
  | .node (.leaf _ (.«include» _ clause)) _ _ => some clause
  | .node (.loop _ _ clause _) _ _ => some clause
  | .node (.condition _ _ clause _ _) _ _ => some clause
  | .node (.each _ clause _) _ _ => some clause
  | .node (.switch _ clause _) _ _ => some clause
  | _ => none

/-- The clause of the function that is looked up at a task. -/
def Task.callee? : Task → Option String
  | .node (.leaf _ (.call _ clause)) _ _ => some clause
  | .elements (.capture clause :: _) _ => some clause
  | .entry (.apply _ clause _) _ => some clause
  | _ => none

/-- A point that a run comes to, in the document that it has reached and with the number of
includes that may still be nested. -/
structure Point (σ : Type) where
  depth : Nat
  document : Value
  scope : Scope
  task : Task
  state : σ

/-- What remains to be done at a point fails. -/
def Point.Fails (E : Engine σ) (p : Point σ) (e : Failure) : Prop :=
  match p.task with
  | .node node context splice =>
    (node.run E (E.includer p.depth) p.scope context splice).Fails p.state e
  | .elements parts pending =>
    (Node.runElements E (E.includer p.depth) parts p.scope pending).Fails p.state e
  | .entry entry made =>
    (Node.runEntries E (E.includer p.depth) [entry] p.scope made).Fails p.state e

/-- Another task in the same scope of the same document. -/
def Point.goTo (p : Point σ) (task : Task) (t : σ) : Point σ := { p with task := task, state := t }

/-- From one point a run comes to another one, where it goes on with a part of what is to be done:
everything that is done before that part has ended with a result. -/
inductive Leads (E : Engine σ) (p : Point σ) : Point σ → Prop
  | «include» {d : Nat} {source clause : String} {dash splice : Bool} {context : Context}
    {included : Value} {t : σ} (hd : p.depth = d + 1)
    (h : p.task = .node (.leaf source (.«include» dash clause)) context splice)
    (hdoc : (E.document p.scope clause).Ends p.state included t) :
    Leads E p ⟨d, included, p.scope, .node (.ofValue included) context (splice || dash), t⟩
  | loop {source clause : String} {dash splice : Bool} {context : Context} {first rest : List Node}
    {node : Node} {v item : Value} {before after made emitted : List Value} {t u w : σ}
    (h : p.task = .node (.loop source dash clause (first ++ node :: rest)) context splice)
    (hv : (E.evaluate p.scope clause).Ends p.state v t)
    (hitems : v = .list (before ++ item :: after) ∨ v = .tuple (before ++ item :: after))
    (hbefore : (Run.collect (fun item => Node.runAll E (E.includer p.depth)
      (first ++ node :: rest) (p.scope.enter item)) before).Ends t made u)
    (hfirst : (Node.runAll E (E.includer p.depth) first (p.scope.enter item)).Ends u emitted w) :
    Leads E p { p with scope := p.scope.enter item, task := .node node .list false, state := w }
  | condition {source clause : String} {dash splice : Bool} {context : Context}
    {yes no : Option Node} {node : Node} {v : Value} {t : σ}
    (h : p.task = .node (.condition source dash clause yes no) context splice)
    (hv : (E.evaluate p.scope clause).Ends p.state v t)
    (hnode : node ∈ if v.truthy then yes else no) :
    Leads E p (p.goTo (.node node context (splice || dash)) t)
  | elements {forced splice : Bool} {parts : List Element} {context : Context}
    (h : p.task = .node (.elements forced parts) context splice) :
    Leads E p (p.goTo (.elements parts .nothing) p.state)
  | each {key clause : String} {body : Node} {context : Context} {splice : Bool}
    {before after made : Mapping.Entries} {entry : Value × Value} {t u : σ}
    (h : p.task = .node (.each key clause body) context splice)
    (hv : (E.evaluate p.scope clause).Ends p.state (.map (before ++ entry :: after)) t)
    (hbefore : (Run.carry (body.runContent E (E.includer p.depth) key p.scope) [] before).Ends t
      made u) :
    Leads E p { p with
      scope := p.scope.enterEntry entry, task := .node body .single false, state := u }
  | switch {key clause : String} {cases : List (Value × Node)} {case : Value × Node}
    {context : Context} {splice : Bool} {v chosen : Value} {t u : σ}
    (h : p.task = .node (.switch key clause cases) context splice)
    (hv : (E.evaluate p.scope clause).Ends p.state v t)
    (hchosen : (E.chooseCase (cases.map (·.1)) v).Ends t (some chosen) u)
    (hcase : cases.find? (·.1.sameKey chosen) = some case) :
    Leads E p (p.goTo (.node case.2 context splice) u)
  | mapping {given : (Value → String) → Node} {context : Context} {splice : Bool}
    (h : p.task = .node (.mapping given) context splice) :
    Leads E p (p.goTo (.node (given (Value.text (E.host.shows p.state))) context splice) p.state)
  | entry {before after : List Entry} {entry : Entry} {context : Context} {splice : Bool}
    {made : Mapping.Entries} {t : σ}
    (h : p.task = .node (.merge (before ++ entry :: after)) context splice)
    (hbefore : (Node.runEntries E (E.includer p.depth) before p.scope []).Ends p.state made t) :
    Leads E p (p.goTo (.entry entry made) t)
  | merged {key : String} {value : Node} {made : Mapping.Entries}
    (h : p.task = .entry (.merge key value) made) :
    Leads E p (p.goTo (.node value .mapping true) p.state)
  | argument {key clause : String} {value : Node} {made : Mapping.Entries} {f : Value} {t : σ}
    (h : p.task = .entry (.apply key clause value) made)
    (hf : (E.callee p.scope clause).Ends p.state f t) :
    Leads E p (p.goTo (.node value .single false) t)
  | key {key value : Node} {made : Mapping.Entries} (h : p.task = .entry (.put key value) made) :
    Leads E p (p.goTo (.node key .single false) p.state)
  | value {key value : Node} {made : Mapping.Entries} {emitted : List Value} {t : σ}
    (h : p.task = .entry (.put key value) made)
    (hkey : (key.run E (E.includer p.depth) p.scope .single false).Ends p.state emitted t) :
    Leads E p (p.goTo (.node value .single false) t)
  | skip {rest : List Element} {pending : Pending}
    (h : p.task = .elements (.skip :: rest) pending) :
    Leads E p (p.goTo (.elements rest { pending with skip := true }) p.state)
  | capture {clause : String} {rest : List Element} {pending : Pending} {f : Value} {t : σ}
    (h : p.task = .elements (.capture clause :: rest) pending)
    (hf : (E.callee p.scope clause).Ends p.state f t) :
    Leads E p (p.goTo (.elements rest { pending with capture := some f }) t)
  | splice {rest : List Element} {pending : Pending}
    (h : p.task = .elements (.splice :: rest) pending) :
    Leads E p (p.goTo (.elements rest { pending with splice := true }) p.state)
  | skipped {node : Node} {rest : List Element} {pending : Pending}
    (h : p.task = .elements (.item node :: rest) pending) (hskip : pending.skip = true) :
    Leads E p (p.goTo (.elements rest { pending with skip := false }) p.state)
  | item {node : Node} {rest : List Element} {pending : Pending}
    (h : p.task = .elements (.item node :: rest) pending) (hskip : pending.skip = false)
    (hcapture : pending.capture = none) :
    Leads E p (p.goTo (.node node .list pending.splice) p.state)
  | captured {node : Node} {rest : List Element} {pending : Pending} {f : Value}
    (h : p.task = .elements (.item node :: rest) pending) (hskip : pending.skip = false)
    (hcapture : pending.capture = some f) :
    Leads E p (p.goTo (.node node .single false) p.state)
  | next {node : Node} {rest : List Element} {pending : Pending} {emitted : List Value} {t : σ}
    (h : p.task = .elements (.item node :: rest) pending) (hskip : pending.skip = false)
    (hitem : (node.runItem E (E.includer p.depth) p.scope pending).Ends p.state emitted t) :
    Leads E p (p.goTo (.elements rest { pending with capture := none, splice := false }) t)

/-- What processing is at when it stops. -/
inductive Stop where
  /-- The clause of a directive. -/
  | clause (text : String)
  /-- The directive that is the key of an entry. -/
  | key (text : String)
  /-- An entry, whatever its key is. -/
  | entry

/-- Processing stops at a point: what fails is no part that it leads to, but what is done at the
point itself, once all that is done before has ended with a result. -/
inductive Halts (E : Engine σ) (p : Point σ) : Stop → Failure → Prop
  | evaluate {clause : String} {e : Failure} (h : p.task.clause? = some clause)
    (hv : (E.evaluate p.scope clause).Fails p.state e) : Halts E p (.clause clause) e
  | callee {clause : String} {e : Failure} (h : p.task.callee? = some clause)
    (hf : (E.callee p.scope clause).Fails p.state e) : Halts E p (.clause clause) e
  | group {source : String} {before after : List Inline.Segment} {clause : List Char}
    {context : Context} {splice : Bool} {text : String} {t : σ} {e : Failure}
    (h : p.task = .node (.leaf source (.plain (before ++ .value clause :: after))) context splice)
    (hbefore : (E.plainText p.scope before).Ends p.state text t)
    (hv : (E.evaluate p.scope (String.ofList clause)).Fails t e) :
    Halts E p (.clause (String.ofList clause)) e
  | file {source clause filename : String} {dash splice : Bool} {context : Context} {t : σ}
    {e : Failure} (h : p.task = .node (.leaf source (.«include» dash clause)) context splice)
    (hname : (E.insert p.scope clause).Ends p.state filename t)
    (hfile : E.contents filename = .error e) : Halts E p (.clause clause) e
  | depth {source clause : String} {dash splice : Bool} {context : Context} {included : Value}
    {t : σ} (h : p.task = .node (.leaf source (.«include» dash clause)) context splice)
    (hd : p.depth = 0) (hdoc : (E.document p.scope clause).Ends p.state included t) :
    Halts E p (.clause clause) .unfinished
  | loop {source clause : String} {dash splice : Bool} {context : Context} {body : List Node}
    {v : Value} {t : σ} {e : Failure}
    (h : p.task = .node (.loop source dash clause body) context splice)
    (hv : (E.evaluate p.scope clause).Ends p.state v t) (hitems : (loopItems clause v).Fails t e) :
    Halts E p (.clause clause) e
  | each {key clause : String} {body : Node} {context : Context} {splice : Bool} {v : Value} {t : σ}
    {e : Failure} (h : p.task = .node (.each key clause body) context splice)
    (hv : (E.evaluate p.scope clause).Ends p.state v t)
    (hentries : (entriesOf ("result of expression " ++ Text.quote clause) clause v).Fails t e) :
    Halts E p (.clause clause) e
  | content {key clause : String} {body : Node} {context : Context} {splice : Bool}
    {before after made : Mapping.Entries} {entry : Value × Value} {emitted : List Value}
    {t u w : σ} {e : Failure} (h : p.task = .node (.each key clause body) context splice)
    (hv : (E.evaluate p.scope clause).Ends p.state (.map (before ++ entry :: after)) t)
    (hbefore : (Run.carry (body.runContent E (E.includer p.depth) key p.scope) [] before).Ends t
      made u)
    (hcontent : (body.run E (E.includer p.depth) (p.scope.enterEntry entry) .single false).Ends u
      emitted w)
    (hmerge : (mergeInto "content of % construct" key made (single emitted)).Fails w e) :
    Halts E p (.key key) e
  | badSwitch {key typeName : String} {context : Context} {splice : Bool}
    (h : p.task = .node (.badSwitch key typeName) context splice) :
    Halts E p (.key key) (.engine (.switchCases typeName) (some key))
  | merge {key : String} {value : Node} {made : Mapping.Entries} {emitted : List Value} {t : σ}
    {e : Failure} (h : p.task = .entry (.merge key value) made)
    (hvalue : (value.run E (E.includer p.depth) p.scope .mapping true).Ends p.state emitted t)
    (hmerge : (Run.carry (mergeInto "content of < merge" key) made emitted).Fails t e) :
    Halts E p (.key key) e
  | apply {key clause : String} {value : Node} {made : Mapping.Entries} {f produced : Value}
    {argument : List Value} {t u w : σ} {e : Failure}
    (h : p.task = .entry (.apply key clause value) made)
    (hf : (E.callee p.scope clause).Ends p.state f t)
    (hargument : (value.run E (E.includer p.depth) p.scope .single false).Ends t argument u)
    (hcall : (E.host.apply f [single argument]).Ends u produced w)
    (hmerge : (mergeInto ("result of " ++ Text.quote key) key made produced).Fails w e) :
    Halts E p (.key key) e
  | commented {key : Value} {value : String} {made : Mapping.Entries}
    (h : p.task = .entry (.commented key value) made) :
    Halts E p .entry (.engine (.commentedValue (key.shown (E.host.shows p.state))
      (Text.quote value)) none)
  | put {key value : Node} {made : Mapping.Entries} {newKey newValue : List Value} {t u : σ}
    {e : Failure} (h : p.task = .entry (.put key value) made)
    (hkey : (key.run E (E.includer p.depth) p.scope .single false).Ends p.state newKey t)
    (hvalue : (value.run E (E.includer p.depth) p.scope .single false).Ends t newValue u)
    (hput : (put made (single newKey) (single newValue)).Fails u e) : Halts E p .entry e

/-- Processing begins at a point and stops at another one, maybe in a document that is included on
the way. -/
def StopsAt (E : Engine σ) (p q : Point σ) (stop : Stop) (e : Failure) : Prop :=
  Relation.ReflTransGen E.Leads p q ∧ E.Halts q stop e

/-- Processing that begins at a point stops somewhere. -/
def Stops (E : Engine σ) (p : Point σ) (e : Failure) : Prop := ∃ q stop, E.StopsAt p q stop e

section
variable {E : Engine σ} {p q : Point σ} {stop : Stop} {e : Failure}

theorem Stops.here (h : E.Halts p stop e) : E.Stops p e := ⟨p, stop, .refl, h⟩

theorem Stops.after (h : E.Leads p q) (hq : E.Stops q e) : E.Stops p e := by
  obtain ⟨r, stop, hr, hstop⟩ := hq
  exact ⟨r, stop, .head h hr, hstop⟩

/-! ### Stopping is failing -/

theorem Point.fails_of_clause {clause : String} (h : p.task.clause? = some clause)
    (hv : (E.evaluate p.scope clause).Fails p.state e) : p.Fails E e := by
  unfold Task.clause? at h
  unfold Point.Fails
  split at h <;> cases h <;> rename_i htask <;> simp only [htask]
  · exact Node.run_leaf_fails.mpr (Run.fails_bind.mpr (.inl hv))
  · exact Node.run_leaf_fails.mpr (Run.fails_bind.mpr (.inl (insert_fails.mpr hv)))
  · exact Node.run_leaf_fails.mpr (Run.fails_bind.mpr (.inl (document_fails.mpr (.inl hv))))
  · exact Node.run_loop_fails.mpr (.inl hv)
  · exact Node.run_condition_fails.mpr (.inl hv)
  · exact Node.run_each_fails.mpr (.inl hv)
  · exact Node.run_switch_fails.mpr (.inl hv)

theorem Point.fails_of_callee {clause : String} (h : p.task.callee? = some clause)
    (hf : (E.callee p.scope clause).Fails p.state e) : p.Fails E e := by
  unfold Task.callee? at h
  unfold Point.Fails
  split at h <;> cases h <;> rename_i htask <;> simp only [htask]
  · exact Node.run_leaf_fails.mpr (Run.fails_bind.mpr (.inl hf))
  · exact Node.runElements_capture_fails.mpr (.inl hf)
  · exact Node.runEntries_apply_fails.mpr (.inl hf)

/-- Where a run stops it fails. -/
theorem Halts.fails (h : E.Halts p stop e) : p.Fails E e := by
  cases h with
  | evaluate h hv => exact Point.fails_of_clause h hv
  | callee h hf => exact Point.fails_of_callee h hf
  | group h hbefore hv =>
    simp only [Point.Fails, h, Node.run_leaf_fails, leaf, Run.fails_bind, plainText_fails]
    exact .inl ⟨_, _, _, _, _, rfl, hbefore, hv⟩
  | file h hname hfile =>
    simp only [Point.Fails, h, Node.run_leaf_fails, leaf, Run.fails_bind, document_fails]
    exact .inl (.inr ⟨_, _, hname, hfile⟩)
  | depth h hd hdoc =>
    simp only [Point.Fails, h, hd, Node.run_leaf_fails, leaf, Run.fails_bind]
    exact .inr ⟨_, _, hdoc, rfl⟩
  | loop h hv hitems =>
    simp only [Point.Fails, h, Node.run_loop_fails]
    exact .inr ⟨_, _, hv, .inl hitems⟩
  | each h hv hentries =>
    simp only [Point.Fails, h, Node.run_each_fails]
    exact .inr ⟨_, _, hv, .inl hentries⟩
  | content h hv hbefore hcontent hmerge =>
    simp only [Point.Fails, h, Node.run_each_fails, Run.carry_fails]
    refine .inr ⟨_, _, hv, .inr ⟨_, rfl, _, _, _, _, _, rfl, hbefore, ?_⟩⟩
    exact Run.fails_bind.mpr (.inr ⟨_, _, hcontent, hmerge⟩)
  | badSwitch h => simp only [Point.Fails, h, Node.run_badSwitch_fails]
  | merge h hvalue hmerge =>
    simp only [Point.Fails, h, Node.runEntries_merge_fails]
    exact .inr ⟨_, _, hvalue, hmerge⟩
  | apply h hf hargument hcall hmerge =>
    simp only [Point.Fails, h, Node.runEntries_apply_fails]
    exact .inr ⟨_, _, hf, .inr ⟨_, _, hargument, .inr ⟨_, _, hcall, hmerge⟩⟩⟩
  | commented h => simp only [Point.Fails, h, Node.runEntries_commented_fails]
  | put h hkey hvalue hput =>
    simp only [Point.Fails, h, Node.runEntries_put_fails]
    exact .inr ⟨_, _, hkey, .inr ⟨_, _, hvalue, hput⟩⟩

/-- A run fails with what it comes to on the way. -/
theorem Leads.fails (h : E.Leads p q) (hq : q.Fails E e) : p.Fails E e := by
  cases h with
  | «include» hd h hdoc =>
    simp only [Point.Fails, h, hd, Node.run_leaf_fails, leaf, Run.fails_bind]
    refine .inr ⟨_, _, hdoc, ?_⟩
    rw [includer, emitted_eq, run_eq]
    exact hq
  | loop h hv hitems hbefore hfirst =>
    simp only [Point.Fails, h, Node.run_loop_fails, Run.collect_fails, Node.runAll_fails]
    refine .inr ⟨_, _, hv, .inr ⟨_, hitems, _, _, _, _, _, rfl, hbefore, ?_⟩⟩
    exact ⟨_, _, _, _, _, rfl, hfirst, hq⟩
  | condition h hv hnode =>
    simp only [Point.Fails, h, Node.run_condition_fails]
    exact .inr ⟨_, _, hv, _, hnode, hq⟩
  | elements h =>
    simp only [Point.Fails, h, Node.run_elements_fails]
    exact hq
  | each h hv hbefore =>
    simp only [Point.Fails, h, Node.run_each_fails, Run.carry_fails]
    refine .inr ⟨_, _, hv, .inr ⟨_, rfl, _, _, _, _, _, rfl, hbefore, ?_⟩⟩
    exact Run.fails_bind.mpr (.inl hq)
  | switch h hv hchosen hcase =>
    simp only [Point.Fails, h, Node.run_switch_fails]
    exact .inr ⟨_, _, hv, _, _, hchosen, _, hcase, hq⟩
  | mapping h =>
    simp only [Point.Fails, h, Node.run_mapping_fails]
    exact hq
  | entry h hbefore =>
    simp only [Point.Fails, h, Node.run_merge_fails]
    exact Node.runEntries_fails.mpr ⟨_, _, _, _, _, rfl, hbefore, hq⟩
  | merged h =>
    simp only [Point.Fails, h, Node.runEntries_merge_fails]
    exact .inl hq
  | argument h hf =>
    simp only [Point.Fails, h, Node.runEntries_apply_fails]
    exact .inr ⟨_, _, hf, .inl hq⟩
  | key h =>
    simp only [Point.Fails, h, Node.runEntries_put_fails]
    exact .inl hq
  | value h hkey =>
    simp only [Point.Fails, h, Node.runEntries_put_fails]
    exact .inr ⟨_, _, hkey, .inl hq⟩
  | skip h | splice h =>
    simp only [Point.Fails, h, Node.runElements]
    exact hq
  | capture h hf =>
    simp only [Point.Fails, h, Node.runElements_capture_fails]
    exact .inr ⟨_, _, hf, hq⟩
  | skipped h hskip =>
    simp only [Point.Fails, h, Node.runElements_item_fails]
    exact .inl ⟨hskip, hq⟩
  | item h hskip hcapture =>
    simp only [Point.Fails, h, Node.runElements_item_fails, Node.runItem_fails]
    exact .inr ⟨hskip, .inl (.inl ⟨hcapture, hq⟩)⟩
  | captured h hskip hcapture =>
    simp only [Point.Fails, h, Node.runElements_item_fails, Node.runItem_fails]
    exact .inr ⟨hskip, .inl (.inr ⟨_, hcapture, .inl hq⟩)⟩
  | next h hskip hitem =>
    simp only [Point.Fails, h, Node.runElements_item_fails]
    exact .inr ⟨hskip, .inr ⟨_, _, hitem, hq⟩⟩

theorem fails_of_stops (h : E.Stops p e) : p.Fails E e := by
  obtain ⟨q, stop, hreach, hstop⟩ := h
  induction hreach using Relation.ReflTransGen.head_induction_on with
  | refl => exact hstop.fails
  | head hleads _ ih => exact hleads.fails ih

/-! ### Failing is stopping -/

/-- Every failure of a node, in a document and at a depth, is one that it stops with. -/
def StopsIn (E : Engine σ) (d : Nat) (doc : Value) (node : Node) : Prop :=
  ∀ scope context splice s e, (node.run E (E.includer d) scope context splice).Fails s e →
    E.Stops ⟨d, doc, scope, .node node context splice, s⟩ e

section
variable {d : Nat} {doc : Value} {scope : Scope} {s : σ} (hreliable : E.host.Reliable)
include hreliable

/-- An included document is processed one level down, where its failures are stops. -/
theorem leaf_stops
    (hdocs : ∀ d', d = d' + 1 → ∀ included, E.StopsIn d' included (.ofValue included))
    (source : String) (content : Leaf) : E.StopsIn d doc (.leaf source content) := by
  intro scope context splice s e h
  rw [Node.run_leaf_fails] at h
  cases content with
  | comment => exact (Run.not_fails_pure _ h).elim
  | direct dash clause =>
    simp only [leaf, bind_pure_comp, Run.fails_map] at h
    exact .here (.evaluate rfl h)
  | string clause =>
    simp only [leaf, bind_pure_comp, Run.fails_map, insert_fails] at h
    exact .here (.evaluate rfl h)
  | «include» dash clause =>
    simp only [leaf, Run.fails_bind, document_fails] at h
    rcases h with (hv | ⟨filename, t, hname, hfile⟩) | ⟨included, t, hdoc, h⟩
    · exact .here (.evaluate rfl hv)
    · exact .here (.file rfl hname hfile)
    · cases d with
      | zero =>
        cases h
        exact .here (.depth rfl rfl hdoc)
      | succ d =>
        rw [includer, emitted_eq, run_eq] at h
        exact .after (.include rfl rfl hdoc) (hdocs d rfl included _ _ _ _ _ h)
  | call dash clause =>
    simp only [leaf, bind_pure_comp, Run.fails_bind, Run.fails_map] at h
    rcases h with hf | ⟨f, t, hf, hcall⟩
    · exact .here (.callee rfl hf)
    · exact (hreliable.not_fails_apply (canCall_of_callee hf) _ hcall).elim
  | plain segments =>
    simp only [leaf, bind_pure_comp, Run.fails_map, plainText_fails] at h
    obtain ⟨before, clause, after, text, t, rfl, hbefore, hv⟩ := h
    exact .here (.group rfl hbefore hv)

/-- By induction on the elements: a function that waits can be called. -/
theorem elements_stops {parts : List Element} (hparts : ∀ node, .item node ∈ parts →
    E.StopsIn d doc node) {pending : Pending} (hp : ∀ f ∈ pending.capture, E.host.canCall f = true)
    (h : (Node.runElements E (E.includer d) parts scope pending).Fails s e) :
    E.Stops ⟨d, doc, scope, .elements parts pending, s⟩ e := by
  induction parts generalizing pending s with
  | nil =>
    simp only [Node.runElements, finish] at h
    cases hcapture : pending.capture with
    | none =>
      rw [hcapture] at h
      exact (Run.not_fails_pure _ h).elim
    | some f =>
      simp only [hcapture, bind_pure_comp, Run.fails_map] at h
      exact (hreliable.not_fails_apply (hp f hcapture) _ h).elim
  | cons part rest ih =>
    have hrest : ∀ node, .item node ∈ rest → E.StopsIn d doc node :=
      fun node hnode => hparts node (List.mem_cons_of_mem _ hnode)
    cases part with
    | skip =>
      simp only [Node.runElements] at h
      exact .after (.skip rfl) (ih hrest hp h)
    | splice =>
      simp only [Node.runElements] at h
      exact .after (.splice rfl) (ih hrest hp h)
    | capture clause =>
      rcases Node.runElements_capture_fails.mp h with hf | ⟨f, t, hf, h⟩
      · exact .here (.callee rfl hf)
      · refine .after (.capture rfl hf) (ih hrest ?_ h)
        simpa using canCall_of_callee hf
    | item node =>
      have hnode := hparts node List.mem_cons_self
      rcases Node.runElements_item_fails.mp h with ⟨hskip, h⟩ | ⟨hskip, hitem | ⟨vs, t, hitem, h⟩⟩
      · exact .after (.skipped rfl hskip) (ih hrest hp h)
      · rcases Node.runItem_fails.mp hitem with
          ⟨hcapture, hnode'⟩ | ⟨f, hcapture, hargument | ⟨argument, t, -, hcall⟩⟩
        · exact .after (.item rfl hskip hcapture) (hnode _ _ _ _ _ hnode')
        · exact .after (.captured rfl hskip hcapture) (hnode _ _ _ _ _ hargument)
        · exact (hreliable.not_fails_apply (hp f hcapture) _ hcall).elim
      · exact .after (.next rfl hskip hitem) (ih hrest (by simp) h)

theorem entry_stops {entry : Entry} (hnodes : ∀ node ∈ entry.nodes, E.StopsIn d doc node)
    {made : Mapping.Entries} (h : (Node.runEntries E (E.includer d) [entry] scope made).Fails s e) :
    E.Stops ⟨d, doc, scope, .entry entry made, s⟩ e := by
  cases entry with
  | merge key value =>
    have hvalue := hnodes value (by simp [Entry.nodes])
    rcases Node.runEntries_merge_fails.mp h with h | ⟨emitted, t, hemitted, hmerge⟩
    · exact .after (.merged rfl) (hvalue _ _ _ _ _ h)
    · exact .here (.merge rfl hemitted hmerge)
  | commented key value =>
    rw [Node.runEntries_commented_fails.mp h]
    exact .here (.commented rfl)
  | apply key clause value =>
    have hvalue := hnodes value (by simp [Entry.nodes])
    rcases Node.runEntries_apply_fails.mp h with
      hf | ⟨f, t, hf, h | ⟨argument, u, hargument, hcall | ⟨produced, w, hcall, hmerge⟩⟩⟩
    · exact .here (.callee rfl hf)
    · exact .after (.argument rfl hf) (hvalue _ _ _ _ _ h)
    · exact (hreliable.not_fails_apply (canCall_of_callee hf) _ hcall).elim
    · exact .here (.apply rfl hf hargument hcall hmerge)
  | put key value =>
    have hkey := hnodes key (by simp [Entry.nodes])
    have hvalue := hnodes value (by simp [Entry.nodes])
    rcases Node.runEntries_put_fails.mp h with
      h | ⟨newKey, t, hnewKey, h | ⟨newValue, u, hnewValue, hput⟩⟩
    · exact .after (.key rfl) (hkey _ _ _ _ _ h)
    · exact .after (.value rfl hnewKey) (hvalue _ _ _ _ _ h)
    · exact .here (.put rfl hnewKey hnewValue hput)

/-- One step of the induction on the nodes: what fails is the directive itself or a part of it. -/
theorem node_stops
    (hdocs : ∀ d', d = d' + 1 → ∀ included, E.StopsIn d' included (.ofValue included)) (node : Node)
    (hparts : ∀ part, Node.PartOf part node → E.StopsIn d doc part) : E.StopsIn d doc node := by
  intro scope context splice s e h
  cases node with
  | verbatim v =>
    simp only [Node.run] at h
    exact (Run.not_fails_pure _ h).elim
  | leaf source content =>
    exact leaf_stops hreliable hdocs source content scope context splice s e h
  | loop source dash clause body =>
    rcases Node.run_loop_fails.mp h with hv | ⟨v, t, hv, hitems | ⟨items, hitems, h⟩⟩
    · exact .here (.evaluate rfl hv)
    · exact .here (.loop rfl hv hitems)
    · obtain ⟨before, item, after, made, u, rfl, hbefore, h⟩ := Run.collect_fails.mp h
      obtain ⟨first, node, rest, emitted, w, rfl, hfirst, h⟩ := Node.runAll_fails.mp h
      exact .after (.loop rfl hv hitems hbefore hfirst)
        (hparts node (.body (by simp)) _ _ _ _ _ h)
  | condition source dash clause yes no =>
    rcases Node.run_condition_fails.mp h with hv | ⟨v, t, hv, node, hnode, h⟩
    · exact .here (.evaluate rfl hv)
    · refine .after (.condition rfl hv hnode) (hparts node ?_ _ _ _ _ _ h)
      by_cases htrue : v.truthy = true
      · exact .yes (by simpa [htrue] using hnode)
      · exact .no (by simpa [htrue] using hnode)
  | elements forced parts =>
    refine .after (.elements rfl) (elements_stops hreliable (fun node hnode =>
      hparts node (.item hnode)) (by simp [Pending.nothing]) (Node.run_elements_fails.mp h))
  | each key clause body =>
    rcases Node.run_each_fails.mp h with hv | ⟨v, t, hv, hentries | ⟨entries, rfl, h⟩⟩
    · exact .here (.evaluate rfl hv)
    · exact .here (.each rfl hv hentries)
    · obtain ⟨before, entry, after, made, u, rfl, hbefore, h⟩ := Run.carry_fails.mp h
      rcases Run.fails_bind.mp h with h | ⟨emitted, w, hemitted, hmerge⟩
      · exact .after (.each rfl hv hbefore) (hparts body .content _ _ _ _ _ h)
      · exact .here (.content rfl hv hbefore hemitted hmerge)
  | switch key clause cases =>
    rcases Node.run_switch_fails.mp h with hv | ⟨v, t, hv, chosen, u, hchosen, case, hcase, h⟩
    · exact .here (.evaluate rfl hv)
    · exact .after (.switch rfl hv hchosen hcase)
        (hparts _ (.case (List.mem_of_find?_eq_some hcase)) _ _ _ _ _ h)
  | badSwitch key typeName =>
    rw [Node.run_badSwitch_fails.mp h]
    exact .here (.badSwitch rfl)
  | merge entries =>
    obtain ⟨before, entry, after, made, t, rfl, hbefore, h⟩ :=
      Node.runEntries_fails.mp (Node.run_merge_fails.mp h)
    refine .after (.entry rfl hbefore) (entry_stops hreliable (fun node hnode => ?_) h)
    exact hparts node (.entry (by simp) hnode)
  | mapping given =>
    exact .after (.mapping rfl) (hparts _ (.given _) _ _ _ _ _ (Node.run_mapping_fails.mp h))

/-- By induction on the depth, and at each depth on the node. -/
theorem stopsIn : ∀ (d : Nat) (doc : Value) (node : Node), E.StopsIn d doc node
  | 0, _, node => node.induction fun node => node_stops hreliable
      (fun d hd => (Nat.succ_ne_zero d hd.symm).elim) node
  | d + 1, doc, node => node.induction fun node => node_stops hreliable
      (fun d' hd included => by
        cases hd
        exact stopsIn d included _) node

/-- **A run fails exactly where it stops.** -/
theorem fails_iff_stops {node : Node} {context : Context} {splice : Bool} :
    (E.run d node scope context splice).Fails s e ↔
      E.Stops ⟨d, doc, scope, .node node context splice, s⟩ e := by
  rw [run_eq]
  exact ⟨stopsIn hreliable d doc node scope context splice s e, fun h => fails_of_stops h⟩

end

end

end Engine

end TreeTemplate
