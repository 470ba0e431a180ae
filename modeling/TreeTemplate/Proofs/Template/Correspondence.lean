import Mathlib.Data.List.Forall2
import Mathlib.Data.Option.Basic
import TreeTemplate.Template.Engine

/-! # Runs that correspond

A relation between runs that every run has to itself, and that sequencing keeps, is a congruence
(`Run.Congruence`): whatever the engine builds runs with keeps it.  Doing the same wherever the
first run keeps to given events and failures is one (`Run.sameWithin`), and so is doing the same as
far as the host can tell (`Run.sameToHost`).  Clauses and included documents are all that a node is
run by, so two engines that correspond in these (`Engine.Corresponds`), in scopes that correspond,
have corresponding runs of every node (`Node.run_corresponds`).  What is compared may be a reader of
documents, the paths that are searched, or the scope.  Nodes that differ somewhere below correspond
where their parts do (`Node.Congruence`).
-/
namespace TreeTemplate

variable {σ α β : Type}

/-- A relation between runs that sequencing keeps. -/
structure Run.Congruence (σ : Type) where
  rel {α : Type} : Run σ α → Run σ α → Prop
  refl {α : Type} (x : Run σ α) : rel x x
  bind {α β : Type} {x y : Run σ α} {f g : α → Run σ β} (hx : rel x y)
    (hf : ∀ a, rel (f a) (g a)) : rel (x >>= f) (y >>= g)

namespace Run.Congruence

variable (R : Run.Congruence σ)

/-- Equality of runs. -/
def equality (σ : Type) : Run.Congruence σ where
  rel x y := x = y
  refl _ := rfl
  bind hx hf := by rw [hx, funext hf]

/-- Runs that begin alike. -/
theorem next (x : Run σ α) {f g : α → Run σ β} (h : ∀ a, R.rel (f a) (g a)) :
    R.rel (x >>= f) (x >>= g) :=
  R.bind (R.refl x) h

/-- Runs that go on alike. -/
theorem first {x y : Run σ α} (h : R.rel x y) (f : α → Run σ β) : R.rel (x >>= f) (y >>= f) :=
  R.bind h fun a => R.refl (f a)

/-- By induction on the list. -/
theorem collect {f g : α → Run σ (List β)} (h : ∀ a, R.rel (f a) (g a)) :
    ∀ items : List α, R.rel (Run.collect f items) (Run.collect g items)
  | [] => R.refl _
  | a :: rest => R.bind (h a) fun _ => R.first (collect h rest) _

/-- By induction on the list. -/
theorem carry {f g : β → α → Run σ β} (h : ∀ b a, R.rel (f b a) (g b a)) :
    ∀ (items : List α) (b : β), R.rel (Run.carry f b items) (Run.carry g b items)
  | [], _ => R.refl _
  | a :: rest, b => R.bind (h b a) fun c => carry h rest c

end Run.Congruence

/-! ## Doing the same -/

/-- An outcome with only some of its events. -/
def Outcome.only (seen : Event → Bool) (o : Outcome σ α) : Outcome σ α :=
  { o with events := o.events.filter seen }

theorem Outcome.only_all (o : Outcome σ α) : o.only (fun _ => true) = o := by
  simp [only]

/-- What reports only given events and fails only in given ways. -/
structure Outcome.Within (P : Event → Prop) (F : Failure → Prop) (o : Outcome σ α) : Prop where
  events : ∀ e ∈ o.events, P e
  failure : ∀ e, o.result = .error e → F e

namespace Run

variable {P : Event → Prop} {F : Failure → Prop} {seen : Event → Bool}

/-- The second run does what the first does, as far as some events are concerned, wherever the
first reports only events of `P` and fails only with failures of `F`. -/
def SameWithin (P : Event → Prop) (F : Failure → Prop) (seen : Event → Bool) (x y : Run σ α) :
    Prop :=
  ∀ s, (x s).Within P F → (y s).only seen = (x s).only seen

theorem sameWithin_all {x y : Run σ α} :
    SameWithin P F (fun _ => true) x y ↔ ∀ s, (x s).Within P F → y s = x s := by
  simp only [SameWithin, Outcome.only_all]

namespace SameWithin

theorem refl (x : Run σ α) : SameWithin P F seen x x := fun _ _ => rfl

/-- What may not happen is no matter. -/
theorem of_fail {e : Failure} (h : ¬F e) (y : Run σ α) : SameWithin P F seen (Run.fail e) y :=
  fun _ hs => absurd (hs.failure e rfl) h

/-- What follows may count on what the first part comes to. -/
theorem bind {x y : Run σ α} {f g : α → Run σ β} (hx : SameWithin P F seen x y)
    (hf : ∀ s a, (x s).Within P F → (x s).result = .ok a → SameWithin P F seen (f a) (g a)) :
    SameWithin P F seen (x >>= f) (y >>= g) := by
  intro s
  have hparts : (x s).Within P F → (y s).result = (x s).result ∧
      (y s).events.filter seen = (x s).events.filter seen ∧ (y s).state = (x s).state := fun h => by
    have hsame := hx s h
    exact ⟨congrArg (·.result) hsame, congrArg (·.events) hsame, congrArg (·.state) hsame⟩
  cases h : (x s).result with
  | error e =>
    rw [bind_apply_error h]
    intro hs
    obtain ⟨hresult, hevents, hstate⟩ := hparts ⟨hs.events, fun e' he' => by
      cases h.symm.trans he'
      exact hs.failure e rfl⟩
    rw [bind_apply_error (hresult.trans h)]
    simp only [Outcome.only, hevents, hstate]
  | ok a =>
    rw [bind_apply_ok h]
    intro hs
    have hwithin : (x s).Within P F :=
      ⟨fun e he => hs.events e (List.mem_append_left _ he), fun e' he' => by simp [h] at he'⟩
    obtain ⟨hresult, hevents, hstate⟩ := hparts hwithin
    have hrest := hf s a hwithin h (x s).state
      ⟨fun e he => hs.events e (List.mem_append_right _ he), hs.failure⟩
    rw [bind_apply_ok (hresult.trans h), hstate]
    have hresult' := congrArg (·.result) hrest
    have hevents' := congrArg (·.events) hrest
    have hstate' := congrArg (·.state) hrest
    simp only [Outcome.only] at hresult' hevents' hstate'
    simp only [Outcome.only, List.filter_append, hevents, hresult', hevents', hstate']

end SameWithin

/-- Doing the same within given events and failures. -/
def sameWithin (P : Event → Prop) (F : Failure → Prop) (seen : Event → Bool) :
    Run.Congruence σ where
  rel := SameWithin P F seen
  refl := .refl
  bind hx hf := hx.bind fun _ a _ _ => hf a

end Run

/-! ## What the host sees of a run -/

/-- A call into the host. -/
def Event.isCall : Event → Bool
  | .call _ => true
  | _ => false

/-- Two outcomes with the same result, the same calls into the host and the same state of it. -/
structure Outcome.SameToHost (o p : Outcome σ α) : Prop where
  result : p.result = o.result
  calls : Run.callsOf p.events = Run.callsOf o.events
  state : p.state = o.state

theorem Run.callsOf_filter (events : List Event) :
    callsOf (events.filter Event.isCall) = callsOf events := by
  rw [callsOf, List.filterMap_filter]
  exact congrArg (List.filterMap · events) (funext fun e => by cases e <;> rfl)

theorem Outcome.SameToHost.of_only {o p : Outcome σ α}
    (h : p.only Event.isCall = o.only Event.isCall) : o.SameToHost p where
  result := congrArg (fun q => q.result) h
  calls := by
    have hevents := congrArg (fun q => Run.callsOf q.events) h
    simpa only [Outcome.only, Run.callsOf_filter] using hevents
  state := congrArg (fun q => q.state) h

/-- Doing the same to the host. -/
def Run.sameToHost (σ : Type) : Run.Congruence σ :=
  sameWithin (fun _ => True) (fun _ => True) Event.isCall

theorem Run.sameToHost_apply {x y : Run σ α} (h : (sameToHost σ).rel x y) (s : σ) :
    (x s).SameToHost (y s) :=
  .of_only (h s ⟨fun _ _ => trivial, fun _ _ => trivial⟩)

/-! ## Engines that correspond -/

namespace Engine

/-- Two engines with the same host, and what they do with included documents, have corresponding
runs of clauses and of includes in corresponding scopes. -/
structure Corresponds (R : Run.Congruence σ) (S : Scope → Scope → Prop) (E F : Engine σ)
    (include_ other : Includer σ) : Prop where
  host : F.host = E.host
  push {s t : Scope} (h : S s t) (frame : Value) : S (frame :: s) (frame :: t)
  evaluate {s t : Scope} (h : S s t) (clause : String) :
    R.rel (E.evaluate s clause) (F.evaluate t clause)
  «include» {s t : Scope} (h : S s t) (clause : String) (context : Context) (splice : Bool) :
    R.rel (E.document s clause >>= fun doc => include_ doc s context splice)
      (F.document t clause >>= fun doc => other doc t context splice)

/-- An engine corresponds to itself in every scope, whatever becomes of included documents, as long
as that corresponds. -/
theorem corresponds (E : Engine σ) {R : Run.Congruence σ} {include_ other : Includer σ}
    (h : ∀ doc scope context splice,
      R.rel (include_ doc scope context splice) (other doc scope context splice)) :
    Corresponds R Eq E E include_ other where
  host := rfl
  push hs frame := by rw [hs]
  evaluate hs clause := by
    subst hs
    exact R.refl _
  «include» hs clause context splice := by
    subst hs
    exact R.next _ fun doc => h doc _ context splice

namespace Corresponds

variable {R : Run.Congruence σ} {S : Scope → Scope → Prop} {E F : Engine σ}
  {include_ other : Includer σ} (C : Corresponds R S E F include_ other) {s t : Scope}
include C

theorem enter (h : S s t) (item : Value) : S (s.enter item) (t.enter item) := by
  cases item with
  | map entries => exact C.push h (.map entries)
  | _ => exact C.push h _

theorem callee (h : S s t) (clause : String) :
    R.rel (E.callee s clause) (F.callee t clause) := by
  unfold Engine.callee
  rw [C.host]
  exact R.first (C.evaluate h clause) _

theorem insert (h : S s t) (clause : String) :
    R.rel (E.insert s clause) (F.insert t clause) := by
  unfold Engine.insert Engine.insertion
  rw [C.host]
  exact R.first (C.evaluate h clause) _

/-- By induction on the segments of the text. -/
theorem plainText (h : S s t) : ∀ segments : List Inline.Segment,
    R.rel (E.plainText s segments) (F.plainText t segments)
  | [] => R.refl _
  | .literal _ :: rest => R.first (plainText h rest) _
  | .value clause :: rest =>
    R.bind (C.insert h (String.ofList clause)) fun _ => R.first (plainText h rest) _

theorem leaf (h : S s t) (context : Context) (splice : Bool) (content : Leaf) :
    R.rel (E.leaf include_ s context splice content) (F.leaf other t context splice content) := by
  cases content with
  | direct dash clause => exact R.first (C.evaluate h clause) _
  | string clause => exact R.first (C.insert h clause) _
  | comment => exact R.refl _
  | «include» dash clause => exact C.include h clause context (splice || dash)
  | call dash clause =>
    unfold Engine.leaf
    rw [C.host]
    exact R.first (C.callee h clause) _
  | plain segments => exact R.first (C.plainText h segments) _

theorem chooseCase (keys : List Value) (v : Value) : F.chooseCase keys v = E.chooseCase keys v := by
  unfold Engine.chooseCase
  rw [C.host]

theorem finish (pending : Pending) : F.finish pending = E.finish pending := by
  unfold Engine.finish
  rw [C.host]

end Corresponds

end Engine

/-! ## Nodes that are alike -/

/-- Elements that are the same but for the nodes in them, which are related. -/
inductive Element.Lift (rel : Node → Node → Prop) : Element → Element → Prop
  | skip : Element.Lift rel .skip .skip
  | capture (clause : String) : Element.Lift rel (.capture clause) (.capture clause)
  | splice : Element.Lift rel .splice .splice
  | item {n m : Node} (h : rel n m) : Element.Lift rel (.item n) (.item m)

/-- Entries that are the same but for the nodes in them, which are related. -/
inductive Entry.Lift (rel : Node → Node → Prop) : Entry → Entry → Prop
  | merge (key : String) {n m : Node} (h : rel n m) : Entry.Lift rel (.merge key n) (.merge key m)
  | commented (key : Value) (value : String) :
    Entry.Lift rel (.commented key value) (.commented key value)
  | apply (key clause : String) {n m : Node} (h : rel n m) :
    Entry.Lift rel (.apply key clause n) (.apply key clause m)
  | put {k l n m : Node} (hk : rel k l) (hv : rel n m) : Entry.Lift rel (.put k n) (.put l m)

/-- The same with the nodes the other way round. -/
theorem Element.Lift.flip {rel : Node → Node → Prop} {a b : Element}
    (h : Element.Lift (fun n m => rel m n) a b) : Element.Lift rel b a := by
  cases h with
  | skip => exact .skip
  | capture clause => exact .capture clause
  | splice => exact .splice
  | item h => exact .item h

theorem Entry.Lift.flip {rel : Node → Node → Prop} {a b : Entry}
    (h : Entry.Lift (fun n m => rel m n) a b) : Entry.Lift rel b a := by
  cases h with
  | merge key h => exact .merge key h
  | commented key value => exact .commented key value
  | apply key clause h => exact .apply key clause h
  | put hk hv => exact .put hk hv

/-- Cases with the same key, and nodes that are related. -/
def Node.CaseLift (rel : Node → Node → Prop) (c d : Value × Node) : Prop :=
  c.1 = d.1 ∧ rel c.2 d.2

namespace Engine.Corresponds

open Node

variable {R : Run.Congruence σ} {S : Scope → Scope → Prop} {E F : Engine σ}
  {include_ other : Includer σ} (C : Corresponds R S E F include_ other) {s t : Scope}

/-- Two nodes have corresponding runs wherever they stand. -/
def Alike (_ : Corresponds R S E F include_ other) (n m : Node) : Prop :=
  ∀ ⦃s t : Scope⦄, S s t → ∀ (context : Context) (splice : Bool),
    R.rel (n.run E include_ s context splice) (m.run F other t context splice)

include C

theorem runAll {nodes others : List Node} (h : List.Forall₂ C.Alike nodes others) (hs : S s t) :
    R.rel (runAll E include_ nodes s) (runAll F other others t) := by
  induction h with
  | nil =>
    simp only [Node.runAll]
    exact R.refl _
  | cons hnode _ ih =>
    simp only [Node.runAll]
    exact R.bind (hnode hs .list false) fun _ => R.first ih _

theorem runBranch {branch another : Option Node} (h : Option.Rel C.Alike branch another)
    (hs : S s t) (context : Context) (splice : Bool) :
    R.rel (runBranch E include_ branch s context splice)
      (runBranch F other another t context splice) := by
  cases h with
  | none =>
    simp only [Node.runBranch]
    exact R.refl _
  | some h =>
    simp only [Node.runBranch]
    exact h hs context splice

theorem runCase {cases others : List (Value × Node)}
    (h : List.Forall₂ (CaseLift C.Alike) cases others) (chosen : Value) (hs : S s t)
    (context : Context) (splice : Bool) :
    R.rel (runCase E include_ cases chosen s context splice)
      (runCase F other others chosen t context splice) := by
  induction h with
  | nil =>
    simp only [Node.runCase]
    exact R.refl _
  | @cons c d _ _ hcase _ ih =>
    obtain ⟨key, node⟩ := c
    obtain ⟨_, node'⟩ := d
    obtain ⟨rfl, hnode⟩ := hcase
    simp only [Node.runCase]
    split
    · exact hnode hs context splice
    · exact ih

theorem runElements {parts others : List Element}
    (h : List.Forall₂ (Element.Lift C.Alike) parts others) (hs : S s t) :
    ∀ pending : Pending,
      R.rel (runElements E include_ parts s pending) (runElements F other others t pending) := by
  induction h with
  | nil =>
    intro pending
    simp only [Node.runElements, C.finish]
    exact R.refl _
  | cons hpart _ ih =>
    intro pending
    cases hpart with
    | skip | splice =>
      simp only [Node.runElements]
      exact ih _
    | capture clause =>
      simp only [Node.runElements]
      exact R.bind (C.callee hs clause) fun _ => ih _
    | item hnode =>
      have hsingle := hnode hs .single false
      have hlist := hnode hs .list pending.splice
      simp only [Node.runElements, C.host]
      split
      · exact ih _
      · cases pending.capture with
        | none => exact R.bind hlist fun _ => R.first (ih _) _
        | some f => exact R.bind hsingle fun _ => R.next _ fun _ => R.first (ih _) _

theorem runEntries {entries others : List Entry}
    (h : List.Forall₂ (Entry.Lift C.Alike) entries others) (hs : S s t) :
    ∀ made : Mapping.Entries,
      R.rel (runEntries E include_ entries s made) (runEntries F other others t made) := by
  induction h with
  | nil =>
    intro made
    simp only [Node.runEntries]
    exact R.refl _
  | cons hentry _ ih =>
    intro made
    cases hentry with
    | merge key hvalue =>
      simp only [Node.runEntries]
      exact R.bind (hvalue hs .mapping true) fun _ => R.next _ fun made => ih made
    | commented key value =>
      simp only [Node.runEntries, C.host]
      exact R.refl _
    | apply key clause hvalue =>
      simp only [Node.runEntries, C.host]
      exact R.bind (C.callee hs clause) fun _ => R.bind (hvalue hs .single false) fun _ =>
        R.next _ fun _ => R.next _ fun made => ih made
    | put hkey hvalue =>
      simp only [Node.runEntries]
      exact R.bind (hkey hs .single false) fun _ => R.bind (hvalue hs .single false) fun _ =>
        R.next _ fun made => ih made

theorem alike_loop (source : String) (dash : Bool) (clause : String) {body others : List Node}
    (h : List.Forall₂ C.Alike body others) :
    C.Alike (.loop source dash clause body) (.loop source dash clause others) := by
  intro s t hs context splice
  have hbody := fun item => C.runAll h (C.enter hs item)
  simp only [Node.run]
  exact R.next _ fun _ => R.bind (C.evaluate hs clause) fun _ => R.next _ fun items =>
    R.first (R.collect hbody items) _

theorem alike_condition (source : String) (dash : Bool) (clause : String)
    {yes yes' no no' : Option Node} (hyes : Option.Rel C.Alike yes yes')
    (hno : Option.Rel C.Alike no no') :
    C.Alike (.condition source dash clause yes no) (.condition source dash clause yes' no') := by
  intro s t hs context splice
  simp only [Node.run]
  refine R.next _ fun _ => R.bind (C.evaluate hs clause) fun v => ?_
  split
  · exact C.runBranch hyes hs context _
  · exact C.runBranch hno hs context _

theorem alike_elements (forced : Bool) {parts others : List Element}
    (h : List.Forall₂ (Element.Lift C.Alike) parts others) :
    C.Alike (.elements forced parts) (.elements forced others) := by
  intro s t hs context splice
  simp only [Node.run]
  exact R.first (C.runElements h hs _) _

theorem alike_each (key clause : String) {body another : Node} (h : C.Alike body another) :
    C.Alike (.each key clause body) (.each key clause another) := by
  intro s t hs context splice
  have hbody := fun frame => h (C.push hs frame) .single false
  simp only [Node.run]
  exact R.next _ fun _ => R.bind (C.evaluate hs clause) fun _ => R.next _ fun source =>
    R.first (R.carry (fun _ _ => R.first (hbody _) _) source []) _

theorem alike_switch (key clause : String) {cases others : List (Value × Node)}
    (h : List.Forall₂ (CaseLift C.Alike) cases others) :
    C.Alike (.switch key clause cases) (.switch key clause others) := by
  intro s t hs context splice
  have hkeys : ∀ {cases others : List (Value × Node)},
      List.Forall₂ (CaseLift C.Alike) cases others → others.map (·.1) = cases.map (·.1) :=
    fun h => by
      induction h with
      | nil => rfl
      | cons hcase _ ih => rw [List.map_cons, List.map_cons, ih, hcase.1]
  simp only [Node.run, C.chooseCase, hkeys h]
  refine R.next _ fun _ => R.bind (C.evaluate hs clause) fun _ => R.next _ fun chosen => ?_
  cases chosen with
  | none => exact R.refl _
  | some case => exact C.runCase h case hs context splice

theorem alike_merge {entries others : List Entry}
    (h : List.Forall₂ (Entry.Lift C.Alike) entries others) :
    C.Alike (.merge entries) (.merge others) := by
  intro s t hs context splice
  simp only [Node.run]
  exact R.first (C.runEntries h hs []) _

/-- What matters of a mapping are the texts that its keys can have. -/
theorem alike_mapping {given others : (Value → String) → Node}
    (h : ∀ u : σ, C.Alike (given (Value.text (E.host.shows u)))
      (others (Value.text (E.host.shows u)))) :
    C.Alike (.mapping given) (.mapping others) := by
  intro s t hs context splice
  simp only [Node.run, C.host]
  exact R.next _ fun u => h u hs context splice

-- Along the recursion of the nodes: what is done between clauses and includes is done alike.
set_option linter.unusedSectionVars false in
mutual

theorem alike_self : ∀ node : Node, C.Alike node node
  | .verbatim _ | .badSwitch _ _ => by
    intro s t _ context splice
    simp only [Node.run]
    exact R.refl _
  | .leaf _ content => by
    intro s t hs context splice
    simp only [Node.run]
    split
    · exact R.next _ fun _ => C.leaf hs context splice content
    · exact C.leaf hs context splice content
  | .loop source dash clause body => C.alike_loop source dash clause (alike_all body)
  | .condition source dash clause yes no =>
    C.alike_condition source dash clause (alike_branch yes) (alike_branch no)
  | .elements forced parts => C.alike_elements forced (alike_parts parts)
  | .each key clause body => C.alike_each key clause (alike_self body)
  | .switch key clause cases => C.alike_switch key clause (alike_cases cases)
  | .merge entries => C.alike_merge (alike_entries entries)
  | .mapping given => C.alike_mapping fun u => alike_self (given (Value.text (E.host.shows u)))

theorem alike_all : ∀ nodes : List Node, List.Forall₂ C.Alike nodes nodes
  | [] => .nil
  | node :: rest => .cons (alike_self node) (alike_all rest)

theorem alike_branch : ∀ branch : Option Node, Option.Rel C.Alike branch branch
  | none => .none
  | some node => .some (alike_self node)

theorem alike_cases :
    ∀ cases : List (Value × Node), List.Forall₂ (CaseLift C.Alike) cases cases
  | [] => .nil
  | (_, node) :: rest => .cons ⟨rfl, alike_self node⟩ (alike_cases rest)

theorem alike_parts : ∀ parts : List Element, List.Forall₂ (Element.Lift C.Alike) parts parts
  | [] => .nil
  | .skip :: rest => .cons .skip (alike_parts rest)
  | .capture clause :: rest => .cons (.capture clause) (alike_parts rest)
  | .splice :: rest => .cons .splice (alike_parts rest)
  | .item node :: rest => .cons (.item (alike_self node)) (alike_parts rest)

theorem alike_entries : ∀ entries : List Entry, List.Forall₂ (Entry.Lift C.Alike) entries entries
  | [] => .nil
  | .merge key value :: rest => .cons (.merge key (alike_self value)) (alike_entries rest)
  | .commented key value :: rest => .cons (.commented key value) (alike_entries rest)
  | .apply key clause value :: rest =>
    .cons (.apply key clause (alike_self value)) (alike_entries rest)
  | .put key value :: rest =>
    .cons (.put (alike_self key) (alike_self value)) (alike_entries rest)

end

end Engine.Corresponds

namespace Node

/-- A relation between nodes that every node has to itself, and that holds between nodes whose
parts are related, given how texts may be. -/
structure Congruence where
  rel : Node → Node → Prop
  texts : (Value → String) → Prop
  refl (n : Node) : rel n n
  loop (source : String) (dash : Bool) (clause : String) {body others : List Node}
    (h : List.Forall₂ rel body others) :
    rel (.loop source dash clause body) (.loop source dash clause others)
  condition (source : String) (dash : Bool) (clause : String) {yes yes' no no' : Option Node}
    (hyes : Option.Rel rel yes yes') (hno : Option.Rel rel no no') :
    rel (.condition source dash clause yes no) (.condition source dash clause yes' no')
  elements (forced : Bool) {parts others : List Element}
    (h : List.Forall₂ (Element.Lift rel) parts others) :
    rel (.elements forced parts) (.elements forced others)
  each (key clause : String) {body another : Node} (h : rel body another) :
    rel (.each key clause body) (.each key clause another)
  switch (key clause : String) {cases others : List (Value × Node)}
    (h : List.Forall₂ (CaseLift rel) cases others) :
    rel (.switch key clause cases) (.switch key clause others)
  merge {entries others : List Entry} (h : List.Forall₂ (Entry.Lift rel) entries others) :
    rel (.merge entries) (.merge others)
  mapping {given others : (Value → String) → Node}
    (h : ∀ text, texts text → rel (given text) (others text)) :
    rel (.mapping given) (.mapping others)

/-- A congruence with its nodes the other way round. -/
def Congruence.flip (M : Congruence) : Congruence where
  rel n m := M.rel m n
  texts := M.texts
  refl := M.refl
  loop source dash clause _ _ h := M.loop source dash clause h.flip
  condition source dash clause _ _ _ _ hyes hno := M.condition source dash clause
    (by cases hyes <;> constructor; assumption) (by cases hno <;> constructor; assumption)
  elements forced _ _ h := M.elements forced (h.flip.imp fun _ _ => Element.Lift.flip)
  each key clause _ _ h := M.each key clause h
  switch key clause _ _ h :=
    M.switch key clause (h.flip.imp fun _ _ hcase => ⟨hcase.1.symm, hcase.2⟩)
  merge h := M.merge (h.flip.imp fun _ _ => Entry.Lift.flip)
  mapping h := M.mapping h

variable {R : Run.Congruence σ} {S : Scope → Scope → Prop} {E F : Engine σ}
  {include_ other : Includer σ}

/-- Having corresponding runs. -/
def alike (C : Engine.Corresponds R S E F include_ other) : Congruence where
  rel := C.Alike
  texts text := ∃ u, text = Value.text (E.host.shows u)
  refl := C.alike_self
  loop := C.alike_loop
  condition := C.alike_condition
  elements := C.alike_elements
  each := C.alike_each
  switch := C.alike_switch
  merge := C.alike_merge
  mapping h := C.alike_mapping fun u => h _ ⟨u, rfl⟩

theorem run_corresponds (C : Engine.Corresponds R S E F include_ other) (node : Node)
    {s t : Scope} (h : S s t) (context : Context) (splice : Bool) :
    R.rel (run E include_ node s context splice) (run F other node t context splice) :=
  C.alike_self node h context splice

end Node

/-- Templates are processed alike where they emit alike. -/
theorem Engine.processWithin_rel {R : Run.Congruence σ} {E F : Engine σ} {depth deeper : Nat}
    {template other : Value} {s t : Scope}
    (h : R.rel (E.emitted depth template s .single false)
      (F.emitted deeper other t .single false)) :
    R.rel (E.processWithin depth template s) (F.processWithin deeper other t) := by
  rw [processWithin_eq, processWithin_eq]
  exact R.first h _

end TreeTemplate
