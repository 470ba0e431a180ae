import TreeTemplate.Proofs.Run.Failing
import TreeTemplate.Proofs.Template.Conduct
import TreeTemplate.Proofs.Template.InsertionOrder

/-! # The parts of a run that fail

What the parts of a run of a template fail with (`Engine.callee_fails`, `Engine.document_fails`),
and where in a row of parts that is (`Engine.plainText_fails`, `Node.runAll_fails`,
`Node.runEntries_fails`).  Nothing that a host does fails if it is reliable (`Host.Reliable`).
-/
namespace TreeTemplate

variable {σ : Type}

/-- A host whose functions and methods never fail. -/
def Host.Reliable (H : Host σ) : Prop := H.FailsWithin fun _ => False

namespace Host

variable {H : Host σ} {s t : σ} {e : Failure}

@[simp] theorem not_fails_textOf (v : Value) : ¬(H.textOf v).Fails s e := nofun

@[simp] theorem not_fails_shown (v : Value) : ¬(H.shown v).Fails s e := nofun

/-- What can be called is called without a failure. -/
theorem Reliable.not_fails_apply (hreliable : H.Reliable) {f : Value} (hf : H.canCall f = true)
    (args : List Value) : ¬(H.apply f args).Fails s e := by
  cases f with
  | host r =>
    simp only [apply, Run.fails_emit_bind]
    exact fun h => hreliable.call r args s e h
  | _ => cases hf

end Host

namespace Engine

variable {E : Engine σ} {scope : Scope} {clause : String} {s t : σ} {e : Failure}

@[simp] theorem not_fails_insertion (v : Value) : ¬(E.insertion v).Fails s e := by
  cases v <;> simp [insertion]

theorem insert_fails : (E.insert scope clause).Fails s e ↔ (E.evaluate scope clause).Fails s e := by
  simp [insert, Run.fails_bind]

@[simp] theorem not_fails_chooseCase (keys : List Value) (v : Value) :
    ¬(E.chooseCase keys v).Fails s e := by
  simp [chooseCase]

theorem callee_fails : (E.callee scope clause).Fails s e ↔ (E.evaluate scope clause).Fails s e ∨
    ∃ f t, (E.evaluate scope clause).Ends s f t ∧ E.host.canCall f = false ∧
      e = .engine (.notCallable f.typeName (f.shown (E.host.shows t))) (some clause) := by
  have hcall : ∀ f t, Run.Fails (if E.host.canCall f then pure f
      else E.host.failNotCallable f (some clause)) t e ↔ E.host.canCall f = false ∧
        e = .engine (.notCallable f.typeName (f.shown (E.host.shows t))) (some clause) := by
    intro f t
    by_cases hf : E.host.canCall f = true
    · simp [hf]
    · simp [hf, Host.failNotCallable, Host.shown, eq_comm]
  simp only [callee, Run.fails_bind, hcall]

/-- What a clause that must be callable comes to can be called. -/
theorem canCall_of_callee {f : Value} (h : (E.callee scope clause).Ends s f t) :
    E.host.canCall f = true := by
  obtain ⟨g, u, -, hg⟩ := Run.ends_bind.mp h
  by_cases hcall : E.host.canCall g = true
  · rw [if_pos hcall] at hg
    obtain ⟨rfl, -⟩ := Run.ends_pure.mp hg
    exact hcall
  · rw [if_neg hcall] at hg
    cases hg.1

/-- What a piece of a plain text becomes. -/
def segmentText (E : Engine σ) (scope : Scope) : Inline.Segment → Run σ String
  | .literal cs => pure (String.ofList cs)
  | .value clause => E.insert scope (String.ofList clause)

/-- A plain text is carried through its pieces. -/
theorem carry_segmentText (made : String) (segments : List Inline.Segment) :
    Run.carry (fun made segment => (made ++ ·) <$> E.segmentText scope segment) made segments =
      (made ++ ·) <$> E.plainText scope segments := by
  induction segments generalizing made with
  | nil => simp [Run.carry, plainText]
  | cons segment rest ih =>
    have hcons : E.plainText scope (segment :: rest) =
        E.segmentText scope segment >>= fun first => (first ++ ·) <$> E.plainText scope rest := by
      cases segment <;> simp [plainText, segmentText]
    simp [Run.carry, hcons, ih, map_bind, String.append_assoc]

/-- A plain text fails at one of its groups, once the pieces before it were put in. -/
theorem plainText_fails {segments : List Inline.Segment} :
    (E.plainText scope segments).Fails s e ↔ ∃ before clause after text t,
      segments = before ++ .value clause :: after ∧ (E.plainText scope before).Ends s text t ∧
        (E.evaluate scope (String.ofList clause)).Fails t e := by
  have hcarry : ∀ segments, E.plainText scope segments =
      Run.carry (fun made segment => (made ++ ·) <$> E.segmentText scope segment) "" segments :=
    fun segments => by simp [carry_segmentText]
  simp only [hcarry, Run.carry_fails, Run.fails_map]
  constructor
  · rintro ⟨before, segment, after, text, t, hsplit, hbefore, h⟩
    cases segment with
    | literal cs => exact (Run.not_fails_pure _ h).elim
    | value clause => exact ⟨before, clause, after, text, t, hsplit, hbefore, insert_fails.mp h⟩
  · rintro ⟨before, clause, after, text, t, hsplit, hbefore, h⟩
    exact ⟨before, .value clause, after, text, t, hsplit, hbefore, insert_fails.mpr h⟩

theorem document_fails : (E.document scope clause).Fails s e ↔
    (E.evaluate scope clause).Fails s e ∨
      ∃ filename t, (E.insert scope clause).Ends s filename t ∧ E.contents filename = .error e := by
  have hfetch : ∀ filename t, (E.fetch filename).Fails t e ↔ E.contents filename = .error e :=
    fun filename t => by rw [Run.Fails, fetch_apply]
  simp only [document_eq, Run.fails_bind, insert_fails, hfetch]

end Engine

/-- The scope of a body that is processed for an entry of a mapping. -/
def Scope.enterEntry (scope : Scope) (entry : Value × Value) : Scope :=
  .map [(.str "key", entry.1), (.str "value", entry.2)] :: scope

namespace Node

variable {E : Engine σ} {include_ : Includer σ} {scope : Scope} {s : σ} {e : Failure}

theorem runAll_eq_collect (nodes : List Node) : runAll E include_ nodes scope =
    Run.collect (fun node => node.run E include_ scope .list false) nodes := by
  induction nodes with
  | nil => simp only [runAll, Run.collect]
  | cons node rest ih => simp only [runAll, Run.collect, ih]

theorem runAll_fails {nodes : List Node} : (runAll E include_ nodes scope).Fails s e ↔
    ∃ before node after vs t, nodes = before ++ node :: after ∧
      (runAll E include_ before scope).Ends s vs t ∧
        (node.run E include_ scope .list false).Fails t e := by
  simp only [runAll_eq_collect, Run.collect_fails]

theorem runBranch_fails {branch : Option Node} {context : Context} {splice : Bool} :
    (runBranch E include_ branch scope context splice).Fails s e ↔
      ∃ node ∈ branch, (node.run E include_ scope context splice).Fails s e := by
  cases branch <;> simp [runBranch]

/-- Entries are processed one after another. -/
theorem runEntries_cons (entry : Entry) (rest : List Entry) (made : Mapping.Entries) :
    runEntries E include_ (entry :: rest) scope made =
      runEntries E include_ [entry] scope made >>= runEntries E include_ rest scope := by
  have hnil : runEntries E include_ [] scope = pure := funext fun made => by simp only [runEntries]
  cases entry with
  | commented key value =>
    simp only [runEntries, bind_assoc]
    rfl
  | _ => simp only [runEntries, bind_assoc, pure_bind]

theorem runEntries_append (entries others : List Entry) (made : Mapping.Entries) :
    runEntries E include_ (entries ++ others) scope made =
      runEntries E include_ entries scope made >>= runEntries E include_ others scope := by
  induction entries generalizing made with
  | nil =>
    simp only [List.nil_append, runEntries]
    rfl
  | cons entry entries ih =>
    rw [List.cons_append, runEntries_cons, runEntries_cons entry entries, bind_assoc]
    exact congrArg _ (funext ih)

theorem runEntries_eq_carry (entries : List Entry) (made : Mapping.Entries) :
    runEntries E include_ entries scope made =
      Run.carry (fun made entry => runEntries E include_ [entry] scope made) made entries := by
  induction entries generalizing made with
  | nil => simp only [runEntries, Run.carry]
  | cons entry rest ih =>
    rw [runEntries_cons, Run.carry]
    exact congrArg _ (funext ih)

theorem runEntries_fails {entries : List Entry} {made : Mapping.Entries} :
    (runEntries E include_ entries scope made).Fails s e ↔
      ∃ before entry after more t, entries = before ++ entry :: after ∧
        (runEntries E include_ before scope made).Ends s more t ∧
          (runEntries E include_ [entry] scope more).Fails t e := by
  rw [runEntries_eq_carry, Run.carry_fails]
  simp only [← runEntries_eq_carry]

/-! ### Directives of nodes -/

variable (E include_) in
/-- What an item of a plain list emits, given the pending effects. -/
def runItem (node : Node) (scope : Scope) (pending : Engine.Pending) : Run σ (List Value) :=
  match pending.capture with
  | some f => do
    let argument ← run E include_ node scope .single false
    let v ← E.host.apply f [single argument]
    pure (Context.list.place pending.splice v)
  | none => run E include_ node scope .list pending.splice

variable (E include_) in
/-- The entries that a body makes for an entry of a mapping, added to those made before. -/
def runContent (key : String) (body : Node) (scope : Scope) (made : Mapping.Entries)
    (entry : Value × Value) : Run σ Mapping.Entries := do
  let content ← run E include_ body (scope.enterEntry entry) .single false
  Engine.mergeInto "content of % construct" key made (single content)

section
variable {context : Context} {splice : Bool}

theorem run_leaf_fails {source : String} {content : Leaf} :
    (run E include_ (.leaf source content) scope context splice).Fails s e ↔
      (E.leaf include_ scope context splice content).Fails s e := by
  simp only [run]
  cases Engine.leafDirective? content <;> rfl

theorem run_loop_fails {source clause : String} {dash : Bool} {body : List Node} :
    (run E include_ (.loop source dash clause body) scope context splice).Fails s e ↔
      (E.evaluate scope clause).Fails s e ∨ ∃ v t, (E.evaluate scope clause).Ends s v t ∧
        ((Engine.loopItems clause v).Fails t e ∨
          ∃ items, (v = .list items ∨ v = .tuple items) ∧
            (Run.collect (fun item => runAll E include_ body (scope.enter item)) items).Fails t
              e) := by
  simp only [run, Run.fails_emit_bind]
  simp only [Run.fails_bind, bind_pure_comp, Run.fails_map]
  refine or_congr Iff.rfl (exists₂_congr fun v t => and_congr Iff.rfl (or_congr Iff.rfl ?_))
  cases v <;> simp [Engine.loopItems, Run.Ends, Run.collect]

theorem run_condition_fails {source clause : String} {dash : Bool} {yes no : Option Node} :
    (run E include_ (.condition source dash clause yes no) scope context splice).Fails s e ↔
      (E.evaluate scope clause).Fails s e ∨ ∃ v t, (E.evaluate scope clause).Ends s v t ∧
        ∃ node ∈ (if v.truthy then yes else no),
          (run E include_ node scope context (splice || dash)).Fails t e := by
  simp only [run, Run.fails_emit_bind]
  simp only [Run.fails_bind]
  refine or_congr Iff.rfl (exists₂_congr fun v t => and_congr Iff.rfl ?_)
  by_cases hv : v.truthy = true <;> simp [hv, runBranch_fails]

theorem run_elements_fails {forced : Bool} {parts : List Element} :
    (run E include_ (.elements forced parts) scope context splice).Fails s e ↔
      (runElements E include_ parts scope .nothing).Fails s e := by
  simp only [run, bind_pure_comp, Run.fails_map]

theorem run_each_fails {key clause : String} {body : Node} :
    (run E include_ (.each key clause body) scope context splice).Fails s e ↔
      (E.evaluate scope clause).Fails s e ∨ ∃ v t, (E.evaluate scope clause).Ends s v t ∧
        ((Engine.entriesOf ("result of expression " ++ Text.quote clause) clause v).Fails t e ∨
          ∃ entries, v = .map entries ∧
            (Run.carry (runContent E include_ key body scope) [] entries).Fails t e) := by
  simp only [run, Run.fails_emit_bind]
  simp only [Run.fails_bind, bind_pure_comp, Run.fails_map]
  refine or_congr Iff.rfl (exists₂_congr fun v t => and_congr Iff.rfl (or_congr Iff.rfl ?_))
  cases v with
  | map entries => simp [Engine.entriesOf]; rfl
  | _ => simp [Engine.entriesOf, Run.Ends]

theorem run_switch_fails {key clause : String} {cases : List (Value × Node)} :
    (run E include_ (.switch key clause cases) scope context splice).Fails s e ↔
      (E.evaluate scope clause).Fails s e ∨ ∃ v t, (E.evaluate scope clause).Ends s v t ∧
        ∃ chosen u, (E.chooseCase (cases.map (·.1)) v).Ends t (some chosen) u ∧
          ∃ case, cases.find? (·.1.sameKey chosen) = some case ∧
            (run E include_ case.2 scope context splice).Fails u e := by
  simp only [run, Run.fails_emit_bind]
  simp only [Run.fails_bind, Engine.not_fails_chooseCase, false_or]
  refine or_congr Iff.rfl (exists₂_congr fun v t => and_congr Iff.rfl ⟨?_, ?_⟩)
  · rintro ⟨chosen, u, hchosen, h⟩
    cases chosen with
    | none => exact (Run.not_fails_pure _ h).elim
    | some chosen =>
      simp only [runCase_eq, runBranch_fails, Option.mem_def, Option.map_eq_some_iff] at h
      obtain ⟨_, ⟨case, hcase, rfl⟩, h⟩ := h
      exact ⟨chosen, u, hchosen, case, hcase, h⟩
  · rintro ⟨chosen, u, hchosen, case, hcase, h⟩
    refine ⟨some chosen, u, hchosen, ?_⟩
    simp only [runCase_eq, hcase, Option.map_some, runBranch]
    exact h

theorem run_badSwitch_fails {key typeName : String} :
    (run E include_ (.badSwitch key typeName) scope context splice).Fails s e ↔
      e = .engine (.switchCases typeName) (some key) := by
  simp only [run, Run.fails_emit_bind, Run.fails_fail, eq_comm]

theorem run_merge_fails {entries : List Entry} :
    (run E include_ (.merge entries) scope context splice).Fails s e ↔
      (runEntries E include_ entries scope []).Fails s e := by
  simp only [run, bind_pure_comp, Run.fails_map]

theorem run_mapping_fails {given : (Value → String) → Node} :
    (run E include_ (.mapping given) scope context splice).Fails s e ↔
      (run E include_ (given (Value.text (E.host.shows s))) scope context splice).Fails s e := by
  simp only [run, Run.fails_state_bind]

end

/-! ### Elements of plain lists -/

section
variable {rest : List Element} {pending : Engine.Pending}

theorem runElements_capture_fails {clause : String} :
    (runElements E include_ (.capture clause :: rest) scope pending).Fails s e ↔
      (E.callee scope clause).Fails s e ∨ ∃ f t, (E.callee scope clause).Ends s f t ∧
        (runElements E include_ rest scope { pending with capture := some f }).Fails t e := by
  simp only [runElements, Run.fails_bind]

theorem runItem_fails {node : Node} : (runItem E include_ node scope pending).Fails s e ↔
    (pending.capture = none ∧ (run E include_ node scope .list pending.splice).Fails s e) ∨
      ∃ f, pending.capture = some f ∧ ((run E include_ node scope .single false).Fails s e ∨
        ∃ argument t, (run E include_ node scope .single false).Ends s argument t ∧
          (E.host.apply f [single argument]).Fails t e) := by
  unfold runItem
  cases pending.capture with
  | none => simp
  | some f => simp [Run.fails_bind, Run.fails_map]

theorem runElements_item_fails {node : Node} :
    (runElements E include_ (.item node :: rest) scope pending).Fails s e ↔
      (pending.skip = true ∧
        (runElements E include_ rest scope { pending with skip := false }).Fails s e) ∨
      (pending.skip = false ∧ ((runItem E include_ node scope pending).Fails s e ∨
        ∃ emitted t, (runItem E include_ node scope pending).Ends s emitted t ∧
          (runElements E include_ rest scope
            { pending with capture := none, splice := false }).Fails t e)) := by
  by_cases hskip : pending.skip = true
  · simp [runElements, hskip]
  · have hitem : runElements E include_ (.item node :: rest) scope pending =
        runItem E include_ node scope pending >>= fun emitted => (emitted ++ ·) <$>
          runElements E include_ rest scope { pending with capture := none, splice := false } := by
      cases hcapture : pending.capture <;> simp [runElements, runItem, hskip, hcapture]
    simp [hitem, hskip, Run.fails_bind]

end

/-! ### Entries of mappings -/

section
variable {made : Mapping.Entries}

theorem runEntries_merge_fails {key : String} {value : Node} :
    (runEntries E include_ [.merge key value] scope made).Fails s e ↔
      (run E include_ value scope .mapping true).Fails s e ∨
        ∃ emitted t, (run E include_ value scope .mapping true).Ends s emitted t ∧
          (Run.carry (Engine.mergeInto "content of < merge" key) made emitted).Fails t e := by
  simp only [runEntries, Run.fails_bind, bind_pure]

theorem runEntries_commented_fails {key : Value} {value : String} :
    (runEntries E include_ [.commented key value] scope made).Fails s e ↔
      e = .engine (.commentedValue (key.shown (E.host.shows s)) (Text.quote value)) none := by
  simp [runEntries, Host.shown, eq_comm]

theorem runEntries_apply_fails {key clause : String} {value : Node} :
    (runEntries E include_ [.apply key clause value] scope made).Fails s e ↔
      (E.callee scope clause).Fails s e ∨ ∃ f t, (E.callee scope clause).Ends s f t ∧
        ((run E include_ value scope .single false).Fails t e ∨
          ∃ argument u, (run E include_ value scope .single false).Ends t argument u ∧
            ((E.host.apply f [single argument]).Fails u e ∨
              ∃ produced w, (E.host.apply f [single argument]).Ends u produced w ∧
                (Engine.mergeInto ("result of " ++ Text.quote key) key made produced).Fails w
                  e)) := by
  simp only [runEntries, Run.fails_bind, bind_pure]

theorem runEntries_put_fails {key value : Node} :
    (runEntries E include_ [.put key value] scope made).Fails s e ↔
      (run E include_ key scope .single false).Fails s e ∨
        ∃ newKey t, (run E include_ key scope .single false).Ends s newKey t ∧
          ((run E include_ value scope .single false).Fails t e ∨
            ∃ newValue u, (run E include_ value scope .single false).Ends t newValue u ∧
              (Engine.put made (single newKey) (single newValue)).Fails u e) := by
  simp only [runEntries, Run.fails_bind, bind_pure]

end

end Node

end TreeTemplate
