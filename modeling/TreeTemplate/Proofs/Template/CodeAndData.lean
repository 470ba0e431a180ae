import TreeTemplate.Host.Library
import TreeTemplate.Proofs.Template.Correspondence
import TreeTemplate.Proofs.Template.Reading

/-! # Templates alone are code

What a run parses or takes for a directive is written in the template or in a document that the
run includes (`Engine.only_templates_are_code`): the texts of the data, of computed values and of
what functions return are never looked at in this way.  A reader that tells what a value says as a
template is asked about the template and about included documents only, which is shown by a run
whose reader may be any other one (`Engine.processReading`).
-/
namespace TreeTemplate

variable {σ α β : Type}

/-! ## Runs that do the same -/

namespace Run

/-- The second run does what the first does, wherever the first reports only given events. -/
def SameOn (T : List Event) (x y : Run σ α) : Prop := ∀ s, (x s).events ⊆ T → y s = x s

namespace SameOn

variable {T : List Event} {c : Contract}

theorem iff_sameWithin {x y : Run σ α} :
    SameOn T x y ↔ SameWithin (· ∈ T) (fun _ => True) (fun _ => true) x y := by
  rw [sameWithin_all]
  exact ⟨fun h s hs => h s hs.events, fun h s hs => h s ⟨hs, fun _ _ => trivial⟩⟩

theorem refl (x : Run σ α) : SameOn T x x := fun _ _ => rfl

/-- What follows may count on what the first part comes to. -/
theorem bind_of_meets {P : α → Prop} {x y : Run σ α} {f g : α → Run σ β}
    (hx : SameOn c.trace x y) (hP : x.Meets c P) (hf : ∀ a, P a → SameOn c.trace (f a) (g a)) :
    SameOn c.trace (x >>= f) (y >>= g) := by
  rw [iff_sameWithin] at hx ⊢
  refine hx.bind fun s a hs h => ?_
  have ha : P a := (hP s hs.events).ok a h
  exact iff_sameWithin.mp (hf a ha)

theorem bind {x y : Run σ α} {f g : α → Run σ β} (hx : SameOn T x y)
    (hf : ∀ a, SameOn T (f a) (g a)) : SameOn T (x >>= f) (y >>= g) :=
  bind_of_meets (c := .free T) hx (.free x) fun a _ => hf a

end SameOn

/-- Doing the same wherever only given events are reported. -/
def sameOn (T : List Event) : Run.Congruence σ := ⟨SameOn T, SameOn.refl, SameOn.bind⟩

end Run
open Run (SameOn)

/-! ## Other includers -/

namespace Node

variable {E : Engine σ} {T : List Event} {include_ other : Includer σ}

/-- Two ways to deal with included documents do the same with every document that is included. -/
def Alike (E : Engine σ) (T : List Event) (include_ other : Includer σ) : Prop :=
  ∀ doc, E.Included T doc → ∀ scope context splice,
    SameOn T (include_ doc scope context splice) (other doc scope context splice)

/-- Only included documents are dealt with in another way. -/
theorem Alike.corresponds (hi : Alike E T include_ other) :
    Engine.Corresponds (Run.sameOn T) Eq E E include_ other where
  host := rfl
  push h frame := congrArg _ h
  evaluate h clause := by
    cases h
    exact SameOn.refl _
  «include» {scope _} h clause context splice := by
    cases h
    have hdoc : (E.document scope clause).Meets (.free T) (E.Included T) :=
      Engine.document_meets (E.obeys_of_events (fun _ => trivial) (fun _ _ _ _ => trivial)
        (fun _ _ => trivial) (E.host.failsWithin_of_all fun _ => trivial)) Value.domain_all
        (by simp) trivial
    exact SameOn.bind_of_meets (.refl _) hdoc fun doc h => hi doc h _ _ _

theorem run_sameOn (hi : Alike E T include_ other) (node : Node) (scope : Scope)
    (context : Context) (splice : Bool) :
    SameOn T (run E include_ node scope context splice) (run E other node scope context splice) :=
  run_corresponds hi.corresponds node rfl context splice

end Node

namespace Engine

variable (E : Engine σ) (read : Value → Run σ Node)

/-! ## Other readers -/

/-- The values that a node emits, when included documents are read by the given reader. -/
def runReading : Nat → Node → Scope → Context → Bool → Run σ (List Value)
  | 0, node => node.run E fun _ _ _ _ => Run.fail .unfinished
  | depth + 1, node => node.run E fun doc scope context splice => do
    let inner ← read doc
    runReading depth inner scope context splice

/-- The value of a template, when it and the documents that it includes are read by the given
reader. -/
def processReading (depth : Nat) (template : Value) (scope : Scope) : Run σ Value :=
  match template with
  | .null => pure .null
  | template => do
    let node ← read template
    let values ← E.runReading read depth node scope .single false
    pure (single values)

variable {E read}

/-- By induction on the depth: the readers agree on what is included at each depth. -/
theorem runReading_sameOn {T : List Event} (h : ∀ doc, E.Included T doc → read doc = E.read doc) :
    ∀ (depth : Nat) (node : Node) (scope : Scope) (context : Context) (splice : Bool),
      SameOn T (E.run depth node scope context splice)
        (E.runReading read depth node scope context splice)
  | 0, node, scope, context, splice =>
    Node.run_sameOn (fun _ _ _ _ _ => .refl _) node scope context splice
  | depth + 1, node, scope, context, splice => by
    refine Node.run_sameOn (fun doc hdoc scope context splice => ?_) node scope context splice
    rw [h doc hdoc]
    exact SameOn.bind (.refl _) fun inner => runReading_sameOn h depth inner scope context splice

theorem processReading_sameOn {T : List Event} {template : Value}
    (htemplate : read template = E.read template)
    (h : ∀ doc, E.Included T doc → read doc = E.read doc) (depth : Nat) (scope : Scope) :
    SameOn T (E.processWithin depth template scope)
      (E.processReading read depth template scope) := by
  have hrun : SameOn T (E.emitted depth template scope .single false >>= fun values =>
        pure (single values))
      (read template >>= fun node => E.runReading read depth node scope .single false >>=
        fun values => pure (single values)) := by
    simp only [emitted, bind_assoc, htemplate]
    exact SameOn.bind (.refl _) fun node =>
      (runReading_sameOn h depth node scope .single false).bind fun _ => .refl _
  cases template with
  | null => exact .refl _
  | _ => exact hrun

/-! ## Where code comes from -/

/-- What some text says, in its place in the template or in a document that the run includes.
Calls and searches are no one's words. -/
def Said (E : Engine σ) (template : Value) (trace : List Event) : Event → Prop
  | .call _ | .probe _ _ _ => True
  | e => ∃ doc, E.Code template trace doc ∧ ∃ place source, doc.Holds place source ∧
      place.Says source e

theorem said_of_mem {E : Engine σ} {depth : Nat} {template : Value} {scope : Scope} {s : σ} :
    ∀ e ∈ (E.processWithin depth template scope s).events,
      E.Said template (E.processWithin depth template scope s).events e := by
  refine of_mem_events (fun _ => trivial) (fun filename _ e he => ?_)
    fun doc hdoc place source hholds e hsaid => ?_
  · obtain ⟨path, found, rfl, -⟩ := Files.eq_probe_of_mem he
    trivial
  · cases e with
    | call | probe => trivial
    | clause | directive => exact ⟨doc, hdoc, place, source, hholds, hsaid⟩

/-- **Data is never read as code.**  Every text that is parsed, and every text that is taken for
a directive, is said by the template or by a document that the run includes, in one of the places
where a text is code.  Any other reader that reads those as the engine does gives the same run,
whatever it makes of other values. -/
theorem only_templates_are_code (E : Engine σ) (depth : Nat) (template : Value) (scope : Scope)
    (s : σ) :
    let trace := (E.processWithin depth template scope s).events
    (∀ text, .clause text ∈ trace → ∃ doc, E.Code template trace doc ∧ ∃ place source,
      doc.Holds place source ∧ place.Spells source.toList text.toList) ∧
    (∀ directive source, .directive directive source ∈ trace → ∃ doc, E.Code template trace doc ∧
      ∃ place, doc.Holds place source ∧ ∃ mark ∈ source.toList.head?,
        place.Marks mark directive) ∧
    ∀ read : Value → Run σ Node, (∀ doc, E.Code template trace doc → read doc = E.read doc) →
      E.processReading read depth template scope s = E.processWithin depth template scope s := by
  intro trace
  refine ⟨fun text h => said_of_mem _ h, fun directive source h => ?_, fun read hread => ?_⟩
  · obtain ⟨doc, hdoc, place, _, hholds, rfl, mark, hmark, hm⟩ := said_of_mem _ h
    exact ⟨doc, hdoc, place, hholds, mark, hmark, hm⟩
  · exact processReading_sameOn (hread template .template)
      (fun doc h => hread doc (.included h)) depth scope s fun _ h => h

/-- An engine that has one page, which shows the value of `x`. -/
def ofPage : Engine Library.State :=
  ⟨Library.host, ["."], fun _ => some [], fun _ _ => .ok (.str "&x")⟩

/-- A page is included whose name is data, and the value that it shows looks like a directive,
which no reader is asked about. -/
theorem only_templates_are_code_page :
    let scope : Scope := [.map [(.str "name", .str "page"), (.str "x", .str "&name")]]
    let trace := (ofPage.processWithin 1 (.str ".name") scope default).events
    let read : Value → Run Library.State Node := fun
      | .str "&name" => Run.fail .unfinished
      | doc => ofPage.read doc
    trace = [.directive .include ".name", .clause "name", .probe "page" "./page" true,
      .directive .direct "&x", .clause "x"] ∧
    (∃ doc, ofPage.Code (.str ".name") trace doc ∧ ∃ place source, doc.Holds place source ∧
      place.Spells source.toList "x".toList) ∧
    ofPage.processReading read 1 (.str ".name") scope default =
      ⟨.ok (.str "&name"), trace, default⟩ := by
  intro scope trace read
  have hname : Expr.parse? "name" = some (.named ['n', 'a', 'm', 'e']) := by cbv
  have hx : Expr.parse? "x" = some (.named ['x']) := by cbv
  have hjoin : Files.join "." "page" = "./page" := by decide +kernel
  have hdoc : ofPage.document scope "name" default =
      ⟨.ok (.str "&x"), [.clause "name", .probe "page" "./page" true], default⟩ := by
    have hinsert : ofPage.insert scope "name" default =
        ⟨.ok "page", [.clause "name"], default⟩ := by
      simp only [insert, evaluate, Expr.evaluate, hname]
      rfl
    have hprobes : ofPage.probes "page" = [.probe "page" "./page" true] := by
      rw [← hjoin]
      rfl
    rw [document_apply (by rw [hinsert]), hinsert, hprobes]
    rfl
  have hpage : ofPage.emitted 0 (.str "&x") scope .single false default =
      ⟨.ok [.str "&name"], [.directive .direct "&x", .clause "x"], default⟩ := by
    have hread : Node.ofValue (.str "&x") = .leaf "&x" (.direct false "x") := rfl
    rw [emitted_eq, hread]
    simp only [run, Node.run, leafDirective?, leaf, evaluate, Expr.evaluate, hx]
    rfl
  have hemitted : ofPage.emitted 1 (.str ".name") scope .single false default =
      ⟨.ok [.str "&name"], [.directive .include ".name", .clause "name",
        .probe "page" "./page" true, .directive .direct "&x", .clause "x"], default⟩ := by
    have hread : Node.ofValue (.str ".name") =
        .leaf ".name" (.include false "name") := rfl
    rw [emitted_eq, hread, run_succ]
    simp only [Node.run, leafDirective?, leaf, Run.bind_def, Run.bind, Run.emit, hdoc,
      Bool.or_false, hpage]
    rfl
  have hrun : ofPage.processWithin 1 (.str ".name") scope default =
      ⟨.ok (.str "&name"), [.directive .include ".name", .clause "name",
        .probe "page" "./page" true, .directive .direct "&x", .clause "x"], default⟩ := by
    simp only [processWithin, Run.bind_def, Run.bind, hemitted]
    rfl
  obtain ⟨hclause, -, hreader⟩ := only_templates_are_code ofPage 1 (.str ".name") scope default
  have htrace : trace = _ := congrArg Outcome.events hrun
  refine ⟨htrace, hclause "x" ?_, ?_⟩
  · show .clause "x" ∈ trace
    simp [htrace]
  · rw [hreader read ?_, hrun, htrace]
    intro doc hdoc
    cases hdoc with
    | template => rfl
    | included h =>
      obtain ⟨_, _, _, _, _, hdecode⟩ := h
      cases hdecode
      rfl

end Engine
end TreeTemplate
