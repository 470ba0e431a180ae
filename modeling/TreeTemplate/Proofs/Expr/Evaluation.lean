import TreeTemplate.Expr.Eval
import TreeTemplate.Proofs.Expr.Persisted
import TreeTemplate.Proofs.Run.Contract
import TreeTemplate.Proofs.Value.Domain

/-! # What evaluating an expression can come to

An expression that was read from a text stays in a closed class of values that has its doubles: in
a scope of the class it has a value of the class, or fails with an error of expressions
(`EngineError.OfExpression`), which names no clause, or with the one fault of selecting from a list,
for which it needs an infinite number (`Host.Answers`, `Expr.evaluate_answers`).  Nothing but the
text handed to the parser and the calls into the host is reported on the way.  A domain has all
doubles, and a contract that allows every engine error asks for less (`Host.Obeys`,
`Expr.evaluate_meets`).  All that the induction needs of the text is the shape of the expression
(`Expr.WellShaped.eval_meets`): no part of it is refused as malformed, and its selectors can be
printed in an error.
-/
namespace TreeTemplate

variable {σ : Type}

/-- The errors that are found in evaluating an expression. -/
def EngineError.OfExpression : EngineError → Prop
  | .methodWithoutObject _ | .selectOnScalar _ _ _ | .unknownMethod _ _ | .notCallable _ _ => True
  | _ => False

/-- A host keeps to a contract and to a class of values.  The contract allows the errors of
expressions, and the fault of an infinite position if the class has one. -/
structure Host.Answers (H : Host σ) (c : Contract) (V : Value → Prop) : Prop where
  refuse {cause : EngineError} (h : cause.OfExpression) : c.failure (.engine cause none)
  position {negative : Bool} (h : V (.float (.infinite negative))) :
    c.failure (.fault .infiniteIndex)
  apply {r : HostRef} {args : List Value} (hr : V (.host r)) (ha : ∀ v ∈ args, V v) :
    (H.apply (.host r) args).Meets c V
  select {className : String} {id : Nat} {name : Value} {args : List Value}
    (hr : V (.host (.object className id))) (hn : V name) (ha : ∀ v ∈ args, V v) :
    (H.select (.object className id) name args).Meets c V

/-- A host keeps to a contract and to a domain, as do the errors of expressions. -/
structure Host.Obeys (H : Host σ) (c : Contract) (V : Value → Prop) : Prop where
  engine (cause : EngineError) (clause : Option String) : c.failure (.engine cause clause)
  position : c.failure (.fault .infiniteIndex)
  apply {r : HostRef} {args : List Value} (hr : V (.host r)) (ha : ∀ v ∈ args, V v) :
    (H.apply (.host r) args).Meets c V
  select {className : String} {id : Nat} {name : Value} {args : List Value}
    (hr : V (.host (.object className id))) (hn : V name) (ha : ∀ v ∈ args, V v) :
    (H.select (.object className id) name args).Meets c V

namespace Host

variable {H : Host σ} {c : Contract} {V : Value → Prop}

theorem shown_meets (v : Value) : (H.shown v).Meets c fun _ => True :=
  .state fun _ => .pure trivial

theorem textOf_meets (v : Value) : (H.textOf v).Meets c fun _ => True :=
  .state fun _ => .pure trivial

namespace Answers

variable (A : H.Answers c V)
include A

theorem failNotCallable {α : Type} {P : α → Prop} (v : Value) :
    (H.failNotCallable v none).Meets c P :=
  (shown_meets v).bind fun _ _ => .fail (A.refuse trivial)

/-- Calling a value, whether or not it can be called. -/
theorem call {f : Value} {args : List Value} (hf : V f) (ha : ∀ v ∈ args, V v) :
    (H.apply f args).Meets c V := by
  cases f with
  | host r => exact A.apply hf ha
  | _ => exact A.failNotCallable _

end Answers

namespace Obeys

variable (O : H.Obeys c V)
include O

theorem answers : H.Answers c V where
  refuse _ := O.engine _ _
  position _ := O.position
  apply := O.apply
  select := O.select

theorem failNotCallable {α : Type} {P : α → Prop} (v : Value) (clause : Option String) :
    (H.failNotCallable v clause).Meets c P :=
  (shown_meets v).bind fun _ _ => .fail (O.engine _ _)

theorem call {f : Value} {args : List Value} (hf : V f) (ha : ∀ v ∈ args, V v) :
    (H.apply f args).Meets c V := O.answers.call hf ha

end Obeys

/-- A host that fails by itself only in given ways. -/
structure FailsWithin (H : Host σ) (F : Failure → Prop) : Prop where
  call (r : HostRef) (args : List Value) (s : σ) (e : Failure)
    (h : (H.call r args s).1 = .error e) : F e
  send (r : HostRef) (name : Value) (args : List Value) (s : σ) (e : Failure)
    (h : (H.send r name args s).1 = .error e) : F e
  invoke (r : HostRef) (name : String) (args : List Value) (s : σ) (e : Failure)
    (h : (H.invoke r name args s).1 = .error e) : F e

/-- A call into the host may end with a failure. -/
inductive Raises (H : Host σ) (e : Failure) : Prop
  | call {r : HostRef} {args : List Value} {s : σ} (h : (H.call r args s).1 = .error e)
  | send {r : HostRef} {name : Value} {args : List Value} {s : σ}
    (h : (H.send r name args s).1 = .error e)
  | invoke {r : HostRef} {name : String} {args : List Value} {s : σ}
    (h : (H.invoke r name args s).1 = .error e)

theorem failsWithin_of_all (H : Host σ) {F : Failure → Prop} (hf : ∀ e, F e) : H.FailsWithin F where
  call _ _ _ e _ := hf e
  send _ _ _ _ e _ := hf e
  invoke _ _ _ _ e _ := hf e

section
variable (hrefuse : ∀ cause : EngineError, cause.OfExpression → c.failure (.engine cause none))
  (hfails : H.FailsWithin c.failure)
include hrefuse hfails

theorem reach_meets (r : HostRef) (name : String) (args : List Value) :
    (H.reach r name args).Meets c fun _ => True := by
  have hcannot : ∀ v, (H.failNotCallable v none).Meets c fun _ : Value => True :=
    fun v => (shown_meets v).bind fun _ _ => .fail (hrefuse _ trivial)
  refine .state fun s => ?_
  cases H.member? s r name with
  | none => exact (shown_meets _).bind fun _ _ => .fail (hrefuse _ trivial)
  | some member =>
    cases member with
    | method => exact .step (hfails.invoke _ _ _)
    | «attribute» v =>
      simp only
      split
      · split
        · exact .step (hfails.call _ _)
        · split
          · exact .pure trivial
          · exact hcannot _
      · split
        · exact .pure trivial
        · exact hcannot _

/-- A host answers to a contract that allows every call, the errors of expressions and the failures
of the host itself. -/
theorem answers_of_calls (hcall : ∀ call, c.event (.call call))
    (hposition : c.failure (.fault .infiniteIndex)) : H.Answers c fun _ => True where
  refuse := hrefuse _
  position _ := hposition
  apply _ _ := .after_emit (hcall _) (.step (hfails.call _ _))
  select {className id name _} _ _ _ := by
    refine .after_emit (hcall _) ?_
    split
    · exact .step (hfails.send _ _ _)
    · cases name with
      | str s => exact reach_meets hrefuse hfails _ _ _
      | _ => exact (shown_meets _).bind fun _ _ => .fail (hrefuse _ trivial)

end

/-- A host keeps to a contract that allows every call, the errors of the engine and the failures
of the host itself. -/
theorem obeys_of_calls (hengine : ∀ cause clause, c.failure (.engine cause clause))
    (hfails : H.FailsWithin c.failure) (hcall : ∀ call, c.event (.call call))
    (hposition : c.failure (.fault .infiniteIndex)) : H.Obeys c fun _ => True :=
  have A := H.answers_of_calls (fun _ _ => hengine _ _) hfails hcall hposition
  ⟨hengine, hposition, A.apply, A.select⟩

end Host

namespace Expr

variable {H : Host σ} {c : Contract} {V K : Value → Prop}

/-! ## Selecting from a value -/

section
variable (A : H.Answers c V) (D : Value.Closed V K)
include A

theorem failMethod_meets {P : Value → Prop} (name : Value) : (failMethod H name).Meets c P :=
  (Host.shown_meets name).bind fun _ _ => .fail (A.refuse trivial)

/-- The error of selecting from a scalar, which shows the selector. -/
theorem failScalar_meets {P : Value → Prop} {selector : Expr}
    (hprint : ∀ host, ∃ cs, print host selector = .ok cs) (v : Value) :
    (failScalar H selector v).Meets c P := by
  refine .state fun s => ?_
  obtain ⟨cs, hcs⟩ := hprint (H.shows s)
  have htext : selector.toText (H.shows s) = .ok (String.ofList cs) := by
    simp only [toText, hcs]
    rfl
  simp only [htext]
  exact .fail (A.refuse trivial)

include D

theorem selectFromMoment_meets (m : Moment) (name : Value) (args : List Value) :
    (selectFromMoment H m name args).Meets c V := by
  unfold selectFromMoment
  cases name.part? m with
  | none => exact (Host.shown_meets name).bind fun _ _ => .fail (A.refuse trivial)
  | some n =>
    by_cases hargs : args.isEmpty = true
    · simp only [hargs, if_true]
      exact .pure (D.int _)
    · simp only [hargs]
      exact A.failNotCallable _

theorem selectFromList_meets {items : List Value} (hi : ∀ v ∈ items, V v) {key : Value}
    (hk : V key) :
    (selectFromList items key : Run σ Value).Meets c V := by
  unfold selectFromList
  cases h : Value.selectItem items key with
  | ok v =>
    refine .ofExcept ?_ (fun _ he => nomatch he)
    rintro _ hv
    cases hv
    exact D.selectItem hi h
  | error e =>
    refine .ofExcept (fun _ hv => nomatch hv) ?_
    rintro _ he
    cases he
    obtain ⟨rfl, _, rfl⟩ := Value.selectItem_error h
    exact A.position hk

/-- What a selector that is no method call selects from a value. -/
theorem selectBy_meets {selector : Expr} (hprint : ∀ host, ∃ cs, print host selector = .ok cs)
    {key : Run σ Value} (hk : key.Meets c V) {v : Value} (hv : V v) :
    (selectBy H selector key v).Meets c V := by
  cases v with
  | map entries =>
    refine hk.bind fun k _ => .state fun s => .pure ?_
    exact D.selectEntry hv _ k
  | list items => exact hk.bind fun _ hkey => selectFromList_meets A D (D.ofItems hv rfl) hkey
  | tuple items => exact hk.bind fun _ hkey => selectFromList_meets A D (D.ofItems hv rfl) hkey
  | moment m => exact hk.bind fun name _ => selectFromMoment_meets A D m name []
  | host r =>
    cases r with
    | object => exact hk.bind fun name hname => A.select hv hname (by simp)
    | function | type => exact failScalar_meets A hprint _
  | _ => exact failScalar_meets A hprint _

/-- What a method call selects from a value. -/
theorem selectMethod_meets {name : String} {args : List Expr}
    (hprint : ∀ host, ∃ cs, print host (.method (.str name) args) = .ok cs)
    {values : Run σ (List Value)} (ha : values.Meets c fun vs => ∀ v ∈ vs, V v) {v : Value}
    (hv : V v) : (selectMethod H (.str name) args values v).Meets c V := by
  cases v with
  | map | list | tuple => exact failMethod_meets A _
  | moment m => exact ha.bind fun vs _ => selectFromMoment_meets A D m _ vs
  | host r =>
    cases r with
    | object => exact ha.bind fun vs hvs => A.select hv (D.str name) hvs
    | function | type => exact failScalar_meets A hprint _
  | _ => exact failScalar_meets A hprint _

end

/-! ## Shaped expressions -/

/-- The class of values has the given doubles. -/
def HasDoubles (V : Value → Prop) (xs : List Binary64) : Prop := ∀ x ∈ xs, V (.float x)

theorem hasDoubles_append {xs ys : List Binary64} :
    HasDoubles V (xs ++ ys) ↔ HasDoubles V xs ∧ HasDoubles V ys :=
  List.forall_mem_append

theorem IsLiteral.within (D : Value.Closed V K) {v : Value} (h : IsLiteral v)
    (hf : HasDoubles V (floats (.literal v))) : V v := by
  cases h with
  | text => exact D.str _
  | integer => exact D.int _
  | double => exact hf _ (by simp [floats])

section
variable (A : H.Answers c V) (D : Value.Closed V K) {scope : Scope} (hs : ∀ frame ∈ scope, V frame)
include A D hs

-- By the recursion of `eval`.  Only parts that are no nodes of the grammar are refused as
-- malformed, and a selector that is shown in an error has a printed text.
set_option linter.unusedSectionVars false in
mutual

theorem WellShaped.eval_meets : ∀ {e : Expr}, e.WellShaped → HasDoubles V e.floats →
    (eval H scope e).Meets c V
  | .literal _, h, hf => by
    simp only [eval]
    cases h _ (mem_nodes_self _) with
    | literal hv => exact .pure (hv.within D hf)
  | .lookup _, h, hf => by
    simp only [eval]
    exact (WellShaped.eval_meets (List.forall_mem_cons.mp h).2 hf).bind fun _ _ =>
      .pure (D.get hs _)
  | .group _, h, hf => by
    simp only [eval]
    exact WellShaped.eval_meets (List.forall_mem_cons.mp h).2 hf
  | .dot _ _, h, hf => by
    obtain ⟨hbase, hselectors⟩ := List.forall_mem_append.mp (List.forall_mem_cons.mp h).2
    obtain ⟨hb, hrow⟩ := hasDoubles_append.mp hf
    simp only [eval]
    exact (WellShaped.eval_meets hbase hb).bind fun _ hv => evalSelectors_meets hselectors hrow hv
  | .call _ _, h, hf => by
    obtain ⟨hcallee, hargs⟩ := List.forall_mem_append.mp (List.forall_mem_cons.mp h).2
    obtain ⟨hc, hrow⟩ := hasDoubles_append.mp hf
    simp only [eval]
    refine (WellShaped.eval_meets hcallee hc).bind fun f hvf => ?_
    by_cases hcall : H.canCall f = true
    · simp only [hcall, if_true]
      exact (evalAll_meets hargs hrow).bind fun vs hvs => A.call hvf hvs
    · simp only [hcall]
      exact A.failNotCallable f
  | .method _ _, _, _ => by
    simp only [eval]
    exact failMethod_meets A _
  | .not _, h, hf => by
    simp only [eval]
    exact (WellShaped.eval_meets (List.forall_mem_cons.mp h).2 hf).bind fun _ _ =>
      .pure (D.bool _)
  | .chain _ _, h, hf => by
    obtain ⟨hfirst, hsteps⟩ := List.forall_mem_append.mp (List.forall_mem_cons.mp h).2
    obtain ⟨hone, hrow⟩ := hasDoubles_append.mp hf
    simp only [eval]
    exact (WellShaped.eval_meets hfirst hone).bind fun _ hv => evalSteps_meets hsteps hrow hv
  | .malformed _, h, _ | .surplus _ _, h, _ | .broken _, h, _ => nomatch h _ (mem_nodes_self _)

theorem evalAll_meets : ∀ {es : List Expr}, (∀ n ∈ allNodes es, n.Shaped) →
    HasDoubles V (allFloats es) → (evalAll H scope es).Meets c fun vs => ∀ v ∈ vs, V v
  | [], _, _ => by
    simp only [evalAll]
    exact .pure (by simp)
  | _ :: _, h, hf => by
    obtain ⟨hfirst, hrest⟩ := List.forall_mem_append.mp h
    obtain ⟨hone, hrow⟩ := hasDoubles_append.mp hf
    simp only [evalAll]
    exact (WellShaped.eval_meets hfirst hone).bind fun v hv =>
      (evalAll_meets hrest hrow).bind fun vs hvs => .pure (List.forall_mem_cons.mpr ⟨hv, hvs⟩)

theorem evalSelectors_meets : ∀ {es : List Expr}, (∀ n ∈ allNodes es, n.Shaped) →
    HasDoubles V (allFloats es) → ∀ {v : Value}, V v → (evalSelectors H scope es v).Meets c V
  | [], _, _, _, hv => by
    simp only [evalSelectors]
    exact .pure hv
  | selector :: _, h, hf, v, hv => by
    obtain ⟨hfirst, hrest⟩ := List.forall_mem_append.mp h
    obtain ⟨hone, hrow⟩ := hasDoubles_append.mp hf
    have hprint := fun host => WellShaped.print_ok host hfirst
    have hkey := WellShaped.eval_meets hfirst hone
    cases selector with
    | method name args =>
      obtain ⟨hn, hargs⟩ := List.forall_mem_cons.mp hfirst
      cases hn with
      | method =>
        simp only [evalSelectors]
        exact (selectMethod_meets A D hprint (evalAll_meets hargs hone) hv).bind
          fun w hw => evalSelectors_meets hrest hrow hw
    | _ =>
      simp only [evalSelectors]
      exact (selectBy_meets A D hprint hkey hv).bind
        fun w hw => evalSelectors_meets hrest hrow hw

theorem evalSteps_meets : ∀ {steps : List (ChainOp × Expr)}, (∀ n ∈ stepNodes steps, n.Shaped) →
    HasDoubles V (stepFloats steps) → ∀ {v : Value}, V v → (evalSteps H scope steps v).Meets c V
  | [], _, _, _, hv => by
    simp only [evalSteps]
    exact .pure hv
  | (op, _) :: _, h, hf, v, hv => by
    obtain ⟨hfirst, hrest⟩ := List.forall_mem_append.mp h
    obtain ⟨hone, hrow⟩ := hasDoubles_append.mp hf
    simp only [evalSteps]
    by_cases htaken : op.taken v = true
    · simp only [htaken, if_true]
      exact (WellShaped.eval_meets hfirst hone).bind fun w hw => evalSteps_meets hrest hrow hw
    · simp only [htaken]
      exact evalSteps_meets hrest hrow hv

end

/-- The value of a text, if the text may be handed to the parser and need not be an expression. -/
theorem evaluate_answers {text : String} (htext : c.event (.clause text))
    (hgrammar : c.failure (.engine (.grammar text) (some text)))
    (hf : ∀ e, parse? text = some e → HasDoubles V e.floats) :
    (evaluate H scope text).Meets c V := by
  unfold evaluate
  refine .after_emit htext ?_
  cases hparse : parse? text with
  | none => exact .fail hgrammar
  | some e =>
    obtain ⟨ts, h, -⟩ := parse?_iff_spaced.mp hparse
    exact h.shaped.2.eval_meets A D hs (hf e hparse)

end

/-- The value of a text in a domain, if the text may be handed to the parser. -/
theorem evaluate_meets (O : H.Obeys c V) (D : Value.Domain V K) {scope : Scope}
    (hs : ∀ frame ∈ scope, V frame) {text : String} (htext : c.event (.clause text)) :
    (evaluate H scope text).Meets c V :=
  evaluate_answers O.answers D.toClosed hs htext (O.engine _ _) fun _ _ x _ => D.float x

/-! ## The shape of what was read -/

/-- What evaluating a shaped expression may fail with: errors of expressions, an infinite position
in a list, and failures of the host itself. -/
def ShapedFailure (H : Host σ) (e : Failure) : Prop :=
  (∃ cause : EngineError, cause.OfExpression ∧ e = .engine cause none) ∨
    e = .fault .infiniteIndex ∨ H.Raises e

theorem WellShaped.eval_error (H : Host σ) {e : Expr} (h : e.WellShaped) (scope : Scope)
    (s : σ) {failure : Failure} (hf : (eval H scope e s).result = .error failure) :
    ShapedFailure H failure := by
  have A : H.Answers ⟨(eval H scope e s).events, fun _ => True, ShapedFailure H⟩ fun _ => True :=
    H.answers_of_calls (fun cause hcause => .inl ⟨cause, hcause, rfl⟩)
      ⟨fun _ _ _ _ h => .inr (.inr (.call h)), fun _ _ _ _ _ h => .inr (.inr (.send h)),
        fun _ _ _ _ _ h => .inr (.inr (.invoke h))⟩
      (fun _ => trivial) (.inr (.inl rfl))
  have hmeets : (eval H scope e).Meets _ fun _ => True :=
    h.eval_meets A Value.domain_all.toClosed (fun _ _ => trivial) fun _ _ => trivial
  exact (hmeets s fun _ h => h).error failure hf

/-- **The shape of what was read.**  Every node of an expression that was read from a text is one
of the grammar of trees, and as data the expression is read as itself.  So in every scope no part
of it is refused as malformed, unless the host by itself fails like that; and each node of it, each
selector among them, has a tag that the printer knows and a printed text. -/
theorem parsed_trees_are_shaped {text : String} {e : Expr} (h : parse? text = some e) :
    (∀ n ∈ e.nodes, n.Shaped) ∧ ofValue e.toValue = e ∧
      (∀ {σ : Type} (H : Host σ) (scope : Scope) (s : σ) (shown : String) (clause : Option String),
        (eval H scope e s).result = .error (.engine (.malformedTree shown) clause) →
          H.Raises (.engine (.malformedTree shown) clause)) ∧
      ∀ (host : HostRef → String), ∀ n ∈ e.nodes,
        HasTag n.toValue ∧ ∃ printed, n.toText host = .ok printed := by
  obtain ⟨ts, hts, -⟩ := parse?_iff_spaced.mp h
  have hshaped : e.WellShaped := hts.shaped.2
  refine ⟨hshaped, hshaped.ofValue_relisted (.same _), ?_, ?_⟩
  · intro σ H scope s shown clause hfailed
    rcases hshaped.eval_error H scope s hfailed with ⟨cause, hcause, heq⟩ | heq | hraises
    · cases heq
      exact hcause.elim
    · cases heq
    · exact hraises
  · intro host n hn
    have hnode : n.WellShaped := fun m hm => hshaped m (nodes_subset hn hm)
    obtain ⟨cs, hcs⟩ := hnode.print_ok host
    exact ⟨(hshaped n hn).hasTag, String.ofList cs, by simp only [toText, hcs]; rfl⟩

/-- A selection by a computed key, a call and a method call under a negation. -/
theorem parsed_trees_are_shaped_negation :
    ∃ e, parse? "a.$b ? !f('x', 7).m()" = some e ∧ e.nodes.length = 15 ∧
      (∀ n ∈ e.nodes, n.Shaped) ∧ ofValue e.toValue = e ∧
      ∀ n ∈ e.nodes, HasTag n.toValue ∧ ∃ printed, n.toText (fun _ => "") = .ok printed := by
  have hparse : parse? "a.$b ? !f('x', 7).m()" = some (.chain
      (.dot (.named ['a']) [.group (.named ['b'])])
      [(.whenTrue, .not (.dot (.call (.named ['f']) [.literal (.str "x"), .literal (.int 7)])
        [.method (.str "m") []]))]) := by cbv
  obtain ⟨hshaped, hdata, -, hprinted⟩ := parsed_trees_are_shaped hparse
  exact ⟨_, hparse, rfl, hshaped, hdata, hprinted fun _ => ""⟩

end Expr

end TreeTemplate
