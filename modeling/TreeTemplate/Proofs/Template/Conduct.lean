import TreeTemplate.Proofs.Expr.Evaluation
import TreeTemplate.Proofs.Files.Search

/-! # What running a template can come to

A node is within a domain and a class of events when the values that stand for themselves in it
are of the domain, and the directives and clauses that it would report are of the class
(`Node.Within`).  Such a node keeps to a contract that allows those events, in every scope of
the domain: it emits values of the domain and fails only as the contract allows
(`Engine.run_meets`).  The induction follows the nodes; documents are nodes in turn, and what
is known of one is the search that found it (`Engine.Included`).
-/
namespace TreeTemplate

/-! ## What nodes are made of -/

/-- The clauses of a leaf. -/
def Leaf.clauses : Leaf → List String
  | .direct _ clause => [clause]
  | .string clause => [clause]
  | .comment _ => []
  | .«include» _ clause => [clause]
  | .call _ clause => [clause]
  | .plain segments => segments.filterMap fun
    | .value clause => some (String.ofList clause)
    | .literal _ => none

mutual

/-- The values that stand for themselves in a node are of `V`, and the directives and clauses
that it reports are of `P`. -/
inductive Node.Within (V : Value → Prop) (P : Event → Prop) : Node → Prop
  | verbatim {v : Value} (h : V v) : Node.Within V P (.verbatim v)
  | leaf {source : String} {content : Leaf}
    (hd : ∀ directive ∈ Engine.leafDirective? content, P (.directive directive source))
    (hc : ∀ clause ∈ content.clauses, P (.clause clause)) : Node.Within V P (.leaf source content)
  | loop {source clause : String} {dash : Bool} {body : List Node}
    (hd : P (.directive .loop source)) (hc : P (.clause clause))
    (h : ∀ node ∈ body, Node.Within V P node) : Node.Within V P (.loop source dash clause body)
  | condition {source clause : String} {dash : Bool} {yes no : Option Node}
    (hd : P (.directive .condition source)) (hc : P (.clause clause))
    (hyes : ∀ node ∈ yes, Node.Within V P node) (hno : ∀ node ∈ no, Node.Within V P node) :
    Node.Within V P (.condition source dash clause yes no)
  | elements {forced : Bool} {parts : List Element}
    (h : ∀ part ∈ parts, Element.Within V P part) : Node.Within V P (.elements forced parts)
  | each {key clause : String} {body : Node} (hd : P (.directive .hash key))
    (hc : P (.clause clause)) (h : Node.Within V P body) : Node.Within V P (.each key clause body)
  | switch {key clause : String} {cases : List (Value × Node)}
    (hd : P (.directive .switch key)) (hc : P (.clause clause))
    (h : ∀ case ∈ cases, Node.Within V P case.2) : Node.Within V P (.switch key clause cases)
  | badSwitch {key typeName : String} (hd : P (.directive .switch key)) :
    Node.Within V P (.badSwitch key typeName)
  | merge {entries : List Entry} (h : ∀ entry ∈ entries, Entry.Within V P entry) :
    Node.Within V P (.merge entries)
  | mapping {given : (Value → String) → Node} (h : ∀ text, Node.Within V P (given text)) :
    Node.Within V P (.mapping given)

/-- Elements that are made of values of `V` and report events of `P`. -/
inductive Element.Within (V : Value → Prop) (P : Event → Prop) : Element → Prop
  | skip : Element.Within V P .skip
  | capture {clause : String} (hc : P (.clause clause)) : Element.Within V P (.capture clause)
  | splice : Element.Within V P .splice
  | item {node : Node} (h : Node.Within V P node) : Element.Within V P (.item node)

/-- Entries that are made of values of `V` and report events of `P`. -/
inductive Entry.Within (V : Value → Prop) (P : Event → Prop) : Entry → Prop
  | merge {key : String} {value : Node} (h : Node.Within V P value) :
    Entry.Within V P (.merge key value)
  | commented (key : Value) (value : String) : Entry.Within V P (.commented key value)
  | apply {key clause : String} {value : Node} (hc : P (.clause clause))
    (h : Node.Within V P value) : Entry.Within V P (.apply key clause value)
  | put {key value : Node} (hk : Node.Within V P key) (hv : Node.Within V P value) :
    Entry.Within V P (.put key value)

end

/-! ## The parts of a run -/

variable {σ : Type}

/-- Reports several events. -/
def Run.emitAll (events : List Event) : Run σ Unit := fun s => ⟨.ok (), events, s⟩

/-- The path at which an engine finds a file, if there is one. -/
def Engine.found? (E : Engine σ) (filename : String) : Option String :=
  (Files.candidates filename E.includePaths).find? fun path => (E.file? path).isSome

/-- What an engine reports when it searches for a file. -/
def Engine.probes (E : Engine σ) (filename : String) : List Event :=
  Files.probes (fun path => (E.file? path).isSome) filename E.includePaths

theorem Engine.search_apply (E : Engine σ) (filename : String) (s : σ) :
    Files.search (fun path => (E.file? path).isSome) filename E.includePaths s =
      ⟨.ok (E.found? filename), E.probes filename, s⟩ :=
  Files.search_apply _ filename _ s

/-- The document that a file is, once it is searched for and decoded. -/
def Engine.contents (E : Engine σ) (filename : String) : Except Failure Value :=
  match E.found? filename with
  | none => .error (.engine (.includeNotFound filename E.includePaths) none)
  | some path => (E.decode path ((E.file? path).getD [])).mapError fun detail =>
      .engine (.includeDecode path detail) none

/-- The document that a file is, with what its search reports. -/
def Engine.fetch (E : Engine σ) (filename : String) : Run σ Value := do
  Run.emitAll (E.probes filename)
  Run.ofExcept (E.contents filename)

theorem Engine.fetch_apply (E : Engine σ) (filename : String) (s : σ) :
    E.fetch filename s = ⟨E.contents filename, E.probes filename, s⟩ := by
  have h : E.fetch filename s = ⟨E.contents filename, E.probes filename ++ [], s⟩ := rfl
  rw [h, List.append_nil]

/-- What an include comes to is a matter of its file name alone. -/
theorem Engine.document_eq (E : Engine σ) (scope : Scope) (clause : String) :
    E.document scope clause = E.insert scope clause >>= E.fetch := by
  refine congrArg _ (funext₂ fun filename s => ?_)
  have hsearch : (Files.search (fun path => (E.file? path).isSome) filename E.includePaths
      s).result = .ok (E.found? filename) := by rw [E.search_apply]
  rw [Run.bind_apply_ok hsearch, E.search_apply, E.fetch_apply]
  unfold Engine.contents
  cases E.found? filename with
  | none => simp
  | some path =>
    cases hdoc : E.decode path ((E.file? path).getD []) <;> simp [hdoc, Except.mapError]

theorem Engine.document_apply {E : Engine σ} {scope : Scope} {clause filename : String} {s : σ}
    (h : (E.insert scope clause s).result = .ok filename) :
    E.document scope clause s =
      ⟨E.contents filename, (E.insert scope clause s).events ++ E.probes filename,
        (E.insert scope clause s).state⟩ := by
  rw [document_eq, Run.bind_apply_ok h, fetch_apply]

/-- A document that a search found, among all that a run reports, and that could be decoded. -/
def Engine.Included (E : Engine σ) (trace : List Event) (doc : Value) : Prop :=
  ∃ filename path bytes, .probe filename path true ∈ trace ∧ E.file? path = some bytes ∧
    E.decode path bytes = .ok doc

/-- An engine whose host keeps to a contract, which allows its searches and the failures that
are of its own making. -/
structure Engine.Obeys (E : Engine σ) (c : Contract) (V : Value → Prop) : Prop where
  host : E.host.Obeys c V
  search (filename : String) (h : E.probes filename ⊆ c.trace) : ∀ e ∈ E.probes filename, c.event e
  refused {key : Value} {typeName : String} (hk : V key) (h : key.key? = .error typeName) :
    c.failure (.fault (.unhashable typeName))

/-- An engine keeps to a contract that allows every call, what the engine searches, the failures of
its host and every failure of its own but that of a run that is not finished. -/
theorem Engine.obeys_of_events (E : Engine σ) {c : Contract} (hcall : ∀ call, c.event (.call call))
    (hsearch : ∀ filename, E.probes filename ⊆ c.trace → ∀ e ∈ E.probes filename, c.event e)
    (hf : ∀ e, e ≠ .unfinished → c.failure e) (hfails : E.host.FailsWithin c.failure) :
    E.Obeys c fun _ => True where
  host := Host.obeys_of_calls (fun _ _ => hf _ nofun) hfails hcall (hf _ nofun)
  search := hsearch
  refused _ _ := hf _ nofun

theorem Failure.atClause_cases (text : String) (e : Failure) :
    e.atClause text = e ∨ ∃ cause clause, e.atClause text = .engine cause clause := by
  cases e with
  | engine cause clause => exact .inr ⟨cause, _, Failure.atClause_engine text cause clause⟩
  | fault | unfinished => exact .inl rfl

namespace Engine

variable {E : Engine σ} {c : Contract} {V K : Value → Prop}

/-- Every value of the domain is placed as values of the domain. -/
theorem place_within (D : Value.Domain V K) (context : Context) (splice : Bool) {v : Value}
    (hv : V v) : ∀ w ∈ context.place splice v, V w := by
  unfold Context.place
  split
  · cases hi : v.items? with
    | none => simpa using hv
    | some items => simpa using D.ofItems hv hi
  · simpa using hv

theorem single_within (D : Value.Domain V K) {vs : List Value} (h : ∀ v ∈ vs, V v) :
    V (single vs) := by
  cases vs with
  | nil => exact D.null
  | cons v rest => exact h v List.mem_cons_self

theorem captured_nothing : ∀ f ∈ Pending.nothing.capture, V f := by simp [Pending.nothing]

section
variable (O : E.Obeys c V) (D : Value.Domain V K) {scope : Scope} (hs : ∀ frame ∈ scope, V frame)
include O D

/-- The entries of a value that must be a mapping. -/
theorem entriesOf_meets (what clause : String) {v : Value} (hv : V v) :
    (entriesOf what clause v : Run σ _).Meets c (Mapping.Within V K) := by
  cases v with
  | map entries => exact .pure (D.map.mp hv)
  | _ => exact .fail (O.host.engine _ _)

theorem mergeInto_meets (what clause : String) {entries : Mapping.Entries}
    (he : Mapping.Within V K entries) {v : Value} (hv : V v) :
    (mergeInto what clause entries v : Run σ _).Meets c (Mapping.Within V K) :=
  (entriesOf_meets O D what clause hv).bind fun _ hpart => .pure (he.update hpart)

/-- Binding a key, which is refused if it cannot be one. -/
theorem put_meets {entries : Mapping.Entries} (he : Mapping.Within V K entries) {key value : Value}
    (hk : V key) (hv : V value) :
    (put entries key value : Run σ _).Meets c (Mapping.Within V K) := by
  unfold put
  cases h : key.key? with
  | ok k =>
    have hhash : key.isHashable = true := by
      unfold Value.isHashable
      rw [h]
    exact .pure (he.insert (D.key hk hhash) hv)
  | error typeName => exact .fail (O.refused hk h)

theorem loopItems_meets (clause : String) {v : Value} (hv : V v) :
    (loopItems clause v : Run σ _).Meets c fun items => ∀ item ∈ items, V item := by
  cases v with
  | null => exact .pure (by simp)
  | list items => exact .pure (D.ofItems hv rfl)
  | tuple items => exact .pure (D.ofItems hv rfl)
  | _ => exact .fail (O.host.engine _ _)

/-- A function that still waits for its argument at the end of a list. -/
theorem finish_meets {pending : Pending} (hp : ∀ f ∈ pending.capture, V f) :
    (E.finish pending).Meets c fun vs => ∀ v ∈ vs, V v := by
  unfold finish
  cases h : pending.capture with
  | none => exact .pure (by simp)
  | some f =>
    exact (O.host.call (hp f h) (by simp)).bind fun v hv => .pure (place_within D _ _ hv)

include hs

theorem evaluate_meets {clause : String} (hc : c.event (.clause clause)) :
    (E.evaluate scope clause).Meets c V := by
  refine (Expr.evaluate_meets O.host D hs hc).mapFailure fun e he => ?_
  rcases e.atClause_cases clause with h | ⟨cause, at_, h⟩
  · rwa [h]
  · rw [h]
    exact O.host.engine cause at_

theorem callee_meets {clause : String} (hc : c.event (.clause clause)) :
    (E.callee scope clause).Meets c V := by
  refine (evaluate_meets O D hs hc).bind fun f hf => ?_
  by_cases hcall : E.host.canCall f = true
  · simp only [hcall, if_true]
    exact .pure hf
  · simp only [hcall]
    exact O.host.failNotCallable f _

theorem insert_meets {clause : String} (hc : c.event (.clause clause)) :
    (E.insert scope clause).Meets c fun _ => True := by
  refine (evaluate_meets O D hs hc).bind fun v _ => ?_
  cases v with
  | null => exact .pure trivial
  | _ => exact Host.textOf_meets _

/-- By induction on the segments of the text. -/
theorem plainText_meets : ∀ {segments : List Inline.Segment},
    (∀ clause, .value clause ∈ segments → c.event (.clause (String.ofList clause))) →
    (E.plainText scope segments).Meets c fun _ => True
  | [], _ => .pure trivial
  | .literal _ :: _, hc =>
    (plainText_meets fun clause h => hc clause (List.mem_cons_of_mem _ h)).bind fun _ _ =>
      .pure trivial
  | .value clause :: _, hc =>
    (insert_meets O D hs (hc clause List.mem_cons_self)).bind fun _ _ =>
      (plainText_meets fun clause h => hc clause (List.mem_cons_of_mem _ h)).bind fun _ _ =>
        .pure trivial

/-- A document is one that the search found. -/
theorem document_meets {clause : String} (hc : c.event (.clause clause)) :
    (E.document scope clause).Meets c (E.Included c.trace) := by
  refine (insert_meets O D hs hc).bind fun filename _ => ?_
  have hsearch : (Files.search (fun path => (E.file? path).isSome) filename E.includePaths :
      Run σ _).Meets c fun found => ∀ path ∈ found,
        .probe filename path true ∈ c.trace ∧ (E.file? path).isSome := by
    intro s
    rw [E.search_apply]
    intro htrace
    refine Outcome.meets_ok (O.search filename htrace) fun path hpath => ?_
    have hfile := List.find?_some (Option.mem_def.mp hpath)
    exact ⟨htrace (Files.probe_mem_probes hpath), hfile⟩
  refine hsearch.bind fun found hfound => ?_
  cases found with
  | none => exact .fail (O.host.engine _ _)
  | some path =>
    obtain ⟨hprobe, hfile⟩ := hfound path rfl
    obtain ⟨bytes, hbytes⟩ := Option.isSome_iff_exists.mp hfile
    simp only [hbytes, Option.getD_some]
    cases hdoc : E.decode path bytes with
    | ok doc => exact .pure ⟨filename, path, bytes, hprobe, hbytes, hdoc⟩
    | error detail => exact .fail (O.host.engine _ _)

theorem leaf_meets {include_ : Includer σ}
    (hi : ∀ doc, E.Included c.trace doc → ∀ context splice,
      (include_ doc scope context splice).Meets c fun vs => ∀ v ∈ vs, V v)
    {content : Leaf} (hc : ∀ clause ∈ content.clauses, c.event (.clause clause))
    (context : Context) (splice : Bool) :
    (E.leaf include_ scope context splice content).Meets c fun vs => ∀ v ∈ vs, V v := by
  cases content with
  | direct dash clause =>
    exact (evaluate_meets O D hs (hc clause (by simp [Leaf.clauses]))).bind fun v hv =>
      .pure (place_within D _ _ hv)
  | string clause =>
    exact (insert_meets O D hs (hc clause (by simp [Leaf.clauses]))).bind fun text _ =>
      .pure (by simpa using D.str text)
  | comment keep =>
    refine .pure fun v hv => ?_
    split at hv
    · cases hv
    · rcases List.mem_singleton.mp hv with rfl
      exact D.str ""
  | «include» dash clause =>
    exact (document_meets O D hs (hc clause (by simp [Leaf.clauses]))).bind fun doc hdoc =>
      hi doc hdoc context (splice || dash)
  | call dash clause =>
    exact (callee_meets O D hs (hc clause (by simp [Leaf.clauses]))).bind fun f hf =>
      (O.host.call hf (by simp)).bind fun v hv => .pure (place_within D _ _ hv)
  | plain segments =>
    have hsegments : ∀ clause, .value clause ∈ segments →
        c.event (.clause (String.ofList clause)) := fun clause h =>
      hc _ (List.mem_filterMap.mpr ⟨.value clause, h, rfl⟩)
    exact (plainText_meets O D hs hsegments).bind fun text _ =>
      .pure (by simpa using D.str text)

end

end Engine

/-! ## Nodes -/

namespace Node

variable {E : Engine σ} {c : Contract} {V K : Value → Prop} {include_ : Includer σ}

/-- What is done with included documents keeps to the contract in every scope of the domain. -/
def Includes (E : Engine σ) (c : Contract) (V : Value → Prop) (include_ : Includer σ) : Prop :=
  ∀ doc, E.Included c.trace doc → ∀ scope : Scope, (∀ frame ∈ scope, V frame) →
    ∀ context splice, (include_ doc scope context splice).Meets c fun vs => ∀ v ∈ vs, V v

section
variable (O : E.Obeys c V) (D : Value.Domain V K) (hi : Includes E c V include_)
include O D hi

-- Along the recursion of the nodes.
set_option linter.unusedSectionVars false in
mutual

theorem run_meets : ∀ {node : Node}, node.Within V c.event → ∀ {scope : Scope},
    (∀ frame ∈ scope, V frame) → ∀ (context : Context) (splice : Bool),
      (run E include_ node scope context splice).Meets c fun vs => ∀ v ∈ vs, V v
  | .verbatim v, h, _, _, _, _ => by
    cases h with
    | verbatim hv =>
      simp only [run]
      exact .pure (by simpa using hv)
  | .leaf source content, h, scope, hs, context, splice => by
    cases h with
    | leaf hd hc =>
      have hleaf := Engine.leaf_meets O D hs (fun doc hdoc => hi doc hdoc scope hs) hc
        context splice
      simp only [run]
      cases hdirective : Engine.leafDirective? content with
      | none => exact hleaf
      | some directive => exact .after_emit (hd directive hdirective) hleaf
  | .loop source dash clause body, h, scope, hs, context, splice => by
    cases h with
    | loop hd hc hbody =>
      simp only [run]
      refine .after_emit hd ((Engine.evaluate_meets O D hs hc).bind fun v hv =>
        (Engine.loopItems_meets O D clause hv).bind fun items hitems => ?_)
      refine (Run.Meets.collect fun item hitem =>
        runAll_meets hbody (D.enter hs (hitems item hitem))).bind fun result hresult => ?_
      exact .pure (Engine.place_within D _ _ (D.list.mpr hresult))
  | .condition source dash clause yes no, h, scope, hs, context, splice => by
    cases h with
    | condition hd hc hyes hno =>
      simp only [run]
      refine .after_emit hd ((Engine.evaluate_meets O D hs hc).bind fun v _ => ?_)
      by_cases hv : v.truthy = true
      · simp only [hv, if_true]
        exact runBranch_meets hyes hs context _
      · simp only [hv]
        exact runBranch_meets hno hs context _
  | .elements forced parts, h, scope, hs, context, splice => by
    cases h with
    | elements hparts =>
      simp only [run]
      refine (runElements_meets hparts hs Engine.captured_nothing).bind fun result hresult => ?_
      exact .pure (Engine.place_within D _ _ (D.list.mpr hresult))
  | .each key clause body, h, scope, hs, context, splice => by
    cases h with
    | each hd hc hbody =>
      simp only [run]
      refine .after_emit hd ((Engine.evaluate_meets O D hs hc).bind fun v hv =>
        (Engine.entriesOf_meets O D _ clause hv).bind fun source hsource => ?_)
      refine (Run.Meets.carry (Q := Mapping.Within V K) .nil ?_).bind fun result hresult =>
        .pure (Engine.place_within D _ _ (D.map.mpr hresult))
      intro entry hentry entries hentries
      obtain ⟨hk, hv⟩ := hsource entry hentry
      have hframe : V (.map [(.str "key", entry.1), (.str "value", entry.2)]) :=
        D.map.mpr (by simpa [Mapping.Within] using
          ⟨⟨D.strKey "key", D.ofKey hk⟩, D.strKey "value", hv⟩)
      have hscope := List.forall_mem_cons.mpr ⟨hframe, hs⟩
      exact (run_meets hbody hscope .single false).bind fun content hcontent =>
        Engine.mergeInto_meets O D _ key hentries (Engine.single_within D hcontent)
  | .switch key clause cases, h, scope, hs, context, splice => by
    cases h with
    | switch hd hc hcases =>
      have hchoose : ∀ keys v, (E.chooseCase keys v).Meets c fun _ => True := fun keys v =>
        (Host.textOf_meets v).bind fun _ _ => .pure trivial
      simp only [run]
      refine .after_emit hd ((Engine.evaluate_meets O D hs hc).bind fun v _ =>
        (hchoose _ v).bind fun chosen _ => ?_)
      cases chosen with
      | none => exact .pure (by simp)
      | some case => exact runCase_meets hcases case hs context splice
  | .badSwitch key typeName, h, _, _, _, _ => by
    cases h with
    | badSwitch hd =>
      simp only [run]
      exact .after_emit hd (.fail (O.host.engine _ _))
  | .merge entries, h, scope, hs, context, splice => by
    cases h with
    | merge hentries =>
      simp only [run]
      exact (runEntries_meets hentries hs .nil).bind fun result hresult =>
        .pure (Engine.place_within D _ _ (D.map.mpr hresult))
  | .mapping given, h, scope, hs, context, splice => by
    cases h with
    | mapping hgiven =>
      simp only [run]
      exact .state fun s => run_meets (hgiven (Value.text (E.host.shows s))) hs context splice

theorem runAll_meets : ∀ {nodes : List Node}, (∀ node ∈ nodes, node.Within V c.event) →
    ∀ {scope : Scope}, (∀ frame ∈ scope, V frame) →
      (runAll E include_ nodes scope).Meets c fun vs => ∀ v ∈ vs, V v
  | [], _, _, _ => by
    simp only [runAll]
    exact .pure (by simp)
  | node :: rest, h, scope, hs => by
    obtain ⟨hnode, hrest⟩ := List.forall_mem_cons.mp h
    simp only [runAll]
    refine (run_meets hnode hs .list false).bind fun emitted hemitted =>
      (runAll_meets hrest hs).bind fun more hmore => .pure ?_
    exact List.forall_mem_append.mpr ⟨hemitted, hmore⟩

theorem runBranch_meets : ∀ {branch : Option Node}, (∀ node ∈ branch, node.Within V c.event) →
    ∀ {scope : Scope}, (∀ frame ∈ scope, V frame) → ∀ (context : Context) (splice : Bool),
      (runBranch E include_ branch scope context splice).Meets c fun vs => ∀ v ∈ vs, V v
  | none, _, _, _, _, _ => by
    simp only [runBranch]
    exact .pure (by simp)
  | some node, h, _, hs, context, splice => by
    simp only [runBranch]
    exact run_meets (h node rfl) hs context splice

theorem runCase_meets : ∀ {cases : List (Value × Node)},
    (∀ case ∈ cases, case.2.Within V c.event) → ∀ (chosen : Value) {scope : Scope},
      (∀ frame ∈ scope, V frame) → ∀ (context : Context) (splice : Bool),
        (runCase E include_ cases chosen scope context splice).Meets c fun vs => ∀ v ∈ vs, V v
  | [], _, _, _, _, _, _ => by
    simp only [runCase]
    exact .pure (by simp)
  | (key, node) :: rest, h, chosen, _, hs, context, splice => by
    obtain ⟨hnode, hrest⟩ := List.forall_mem_cons.mp h
    simp only [runCase]
    by_cases hk : key.sameKey chosen = true
    · simp only [hk, if_true]
      exact run_meets hnode hs context splice
    · simp only [hk]
      exact runCase_meets hrest chosen hs context splice

theorem runElements_meets : ∀ {parts : List Element},
    (∀ part ∈ parts, part.Within V c.event) → ∀ {scope : Scope}, (∀ frame ∈ scope, V frame) →
      ∀ {pending : Engine.Pending}, (∀ f ∈ pending.capture, V f) →
        (runElements E include_ parts scope pending).Meets c fun vs => ∀ v ∈ vs, V v
  | [], _, _, _, _, hp => by
    simp only [runElements]
    exact Engine.finish_meets O D hp
  | .skip :: rest, h, _, hs, _, hp => by
    obtain ⟨-, hrest⟩ := List.forall_mem_cons.mp h
    simp only [runElements]
    exact runElements_meets hrest hs hp
  | .capture clause :: rest, h, _, hs, _, _ => by
    obtain ⟨hpart, hrest⟩ := List.forall_mem_cons.mp h
    simp only [runElements]
    cases hpart with
    | capture hc =>
      refine (Engine.callee_meets O D hs hc).bind fun f hf => runElements_meets hrest hs ?_
      simpa using hf
  | .splice :: rest, h, _, hs, _, hp => by
    obtain ⟨-, hrest⟩ := List.forall_mem_cons.mp h
    simp only [runElements]
    exact runElements_meets hrest hs hp
  | .item node :: rest, h, scope, hs, pending, hp => by
    obtain ⟨hpart, hrest⟩ := List.forall_mem_cons.mp h
    have hnode : node.Within V c.event := by
      cases hpart with
      | item hnode => exact hnode
    simp only [runElements]
    by_cases hskip : pending.skip = true
    · simp only [hskip, if_true]
      exact runElements_meets hrest hs hp
    · have hmore := runElements_meets hrest hs Engine.captured_nothing
      have hsingle := run_meets hnode hs .single false
      have hlist := run_meets hnode hs .list pending.splice
      simp only [hskip]
      cases hcapture : pending.capture with
      | none =>
        refine hlist.bind fun emitted hemitted => hmore.bind fun more hmore => .pure ?_
        exact List.forall_mem_append.mpr ⟨hemitted, hmore⟩
      | some f =>
        refine hsingle.bind fun argument hargument => ?_
        have hargs : ∀ v ∈ [single argument], V v := by
          simpa using Engine.single_within D hargument
        refine (O.host.call (hp f hcapture) hargs).bind fun v hv => ?_
        have hplaced : (pure (Context.list.place pending.splice v) : Run σ _).Meets c
            fun vs => ∀ v ∈ vs, V v := .pure (Engine.place_within D _ _ hv)
        exact hplaced.bind fun emitted hemitted => hmore.bind fun more hmore =>
          .pure (List.forall_mem_append.mpr ⟨hemitted, hmore⟩)

theorem runEntries_meets : ∀ {entries : List Entry},
    (∀ entry ∈ entries, entry.Within V c.event) → ∀ {scope : Scope}, (∀ frame ∈ scope, V frame) →
      ∀ {made : Mapping.Entries}, Mapping.Within V K made →
        (runEntries E include_ entries scope made).Meets c (Mapping.Within V K)
  | [], _, _, _, _, hm => by
    simp only [runEntries]
    exact .pure hm
  | .merge key value :: rest, h, scope, hs, _, hm => by
    obtain ⟨hentry, hrest⟩ := List.forall_mem_cons.mp h
    have hvalue : value.Within V c.event := by
      cases hentry with
      | merge hvalue => exact hvalue
    simp only [runEntries]
    refine (run_meets hvalue hs .mapping true).bind fun emitted hemitted => ?_
    refine (Run.Meets.carry hm fun v hv made hmade =>
      Engine.mergeInto_meets O D _ key hmade (hemitted v hv)).bind fun made hmade => ?_
    exact runEntries_meets hrest hs hmade
  | .commented key value :: rest, _, _, _, _, _ => by
    simp only [runEntries]
    exact (Host.shown_meets key).bind fun _ _ => .fail (O.host.engine _ _)
  | .apply key clause value :: rest, h, scope, hs, _, hm => by
    obtain ⟨hentry, hrest⟩ := List.forall_mem_cons.mp h
    cases hentry with
    | apply hc hvalue =>
      simp only [runEntries]
      refine (Engine.callee_meets O D hs hc).bind fun f hf =>
        (run_meets hvalue hs .single false).bind fun argument hargument => ?_
      have hargs : ∀ v ∈ [single argument], V v := by
        simpa using Engine.single_within D hargument
      exact (O.host.call hf hargs).bind fun produced hproduced =>
        (Engine.mergeInto_meets O D _ key hm hproduced).bind fun made hmade =>
          runEntries_meets hrest hs hmade
  | .put key value :: rest, h, scope, hs, _, hm => by
    obtain ⟨hentry, hrest⟩ := List.forall_mem_cons.mp h
    cases hentry with
    | put hk hv =>
      simp only [runEntries]
      refine (run_meets hk hs .single false).bind fun newKey hkey =>
        (run_meets hv hs .single false).bind fun newValue hvalue => ?_
      exact (Engine.put_meets O D hm (Engine.single_within D hkey)
        (Engine.single_within D hvalue)).bind fun made hmade => runEntries_meets hrest hs hmade

end

end

end Node

/-! ## Templates -/

namespace Engine

variable {E : Engine σ} {c : Contract} {V K : Value → Prop}

/-- By induction on the depth: documents that are included at one depth are run at the one
below. -/
theorem run_meets (O : E.Obeys c V) (D : Value.Domain V K) (hunfinished : c.failure .unfinished)
    (hdocs : ∀ doc, E.Included c.trace doc → (Node.ofValue doc).Within V c.event) :
    ∀ (depth : Nat) {node : Node}, node.Within V c.event → ∀ {scope : Scope},
      (∀ frame ∈ scope, V frame) → ∀ (context : Context) (splice : Bool),
        (E.run depth node scope context splice).Meets c fun vs => ∀ v ∈ vs, V v
  | 0, _, hnode, _, hs, context, splice => by
    have hi : Node.Includes E c V fun _ _ _ _ => Run.fail .unfinished :=
      fun _ _ _ _ _ _ => .fail hunfinished
    exact Node.run_meets O D hi hnode hs context splice
  | depth + 1, _, hnode, _, hs, context, splice => by
    refine Node.run_meets O D (fun doc hdoc scope hs context splice => ?_) hnode hs context splice
    simp only [read, pure_bind]
    exact run_meets O D hunfinished hdocs depth (hdocs doc hdoc) hs context splice

theorem processWithin_meets (O : E.Obeys c V) (D : Value.Domain V K)
    (hunfinished : c.failure .unfinished)
    (hdocs : ∀ doc, E.Included c.trace doc → (Node.ofValue doc).Within V c.event)
    (depth : Nat) {template : Value}
    (htemplate : (Node.ofValue template).Within V c.event) {scope : Scope}
    (hs : ∀ frame ∈ scope, V frame) : (E.processWithin depth template scope).Meets c V := by
  have hemitted : (E.emitted depth template scope .single false).Meets c
      fun vs => ∀ v ∈ vs, V v := by
    simp only [emitted, read, pure_bind]
    exact run_meets O D hunfinished hdocs depth htemplate hs .single false
  rw [processWithin_eq]
  exact hemitted.bind fun vs hvs => .pure (single_within D hvs)

end Engine

end TreeTemplate
