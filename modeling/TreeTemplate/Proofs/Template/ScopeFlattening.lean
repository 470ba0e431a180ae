import TreeTemplate.Host.Library
import TreeTemplate.Proofs.Expr.BaseNames
import TreeTemplate.Proofs.Scope.Agreement
import TreeTemplate.Proofs.Template.Correspondence

/-! # Runs depend on a scope through its names only

In scopes that agree, expressions and templates do the same: they come to the same result,
report the same events and leave the host in the same state.  An expression does since the scopes
agree on whatever it looks up (`Expr.eval_of_agreeOn`).  An engine corresponds to itself in scopes
that agree, since a frame that a loop pushes keeps them in agreement, and so do its runs of every
node.
-/
namespace TreeTemplate
open Scope (Agree)

namespace Expr

variable {σ : Type} (H : Host σ) {s t : Scope}

theorem eval_of_agree (h : Agree s t) (e : Expr) : eval H s e = eval H t e :=
  eval_of_agreeOn H fun _ _ key _ => h key

theorem evaluate_of_agree (h : Agree s t) (text : String) :
    evaluate H s text = evaluate H t text := by
  unfold evaluate
  congr 1
  funext _
  cases parse? text with
  | none => rfl
  | some e => exact eval_of_agree H h e

end Expr

namespace Engine

variable {σ : Type} (E : Engine σ) {s t : Scope}

theorem evaluate_of_agree (h : Agree s t) (clause : String) :
    E.evaluate s clause = E.evaluate t clause := by
  simp only [evaluate, Expr.evaluate_of_agree E.host h clause]

theorem insert_of_agree (h : Agree s t) (clause : String) :
    E.insert s clause = E.insert t clause := by
  simp only [insert, E.evaluate_of_agree h clause]

theorem document_of_agree (h : Agree s t) (clause : String) :
    E.document s clause = E.document t clause := by
  simp only [document, E.insert_of_agree h clause]

/-- What becomes of included documents is the same in scopes that agree. -/
def Includer.Respects (include_ : Includer σ) : Prop :=
  ∀ (doc : Value) (s t : Scope), Agree s t → include_ doc s = include_ doc t

/-- An engine corresponds to itself in scopes that agree. -/
theorem corresponds_of_agree {include_ : Includer σ} (hi : Includer.Respects include_) :
    Corresponds (.equality σ) Agree E E include_ include_ where
  host := rfl
  push h frame := h.push frame
  evaluate h clause := E.evaluate_of_agree h clause
  «include» {s t} h clause context splice := by
    refine (Run.Congruence.equality σ).bind (E.document_of_agree h clause) fun doc => ?_
    exact congrFun (congrFun (hi doc s t h) context) splice

end Engine

theorem Node.run_of_agree {σ : Type} (E : Engine σ) {include_ : Includer σ}
    (hi : Engine.Includer.Respects include_) (node : Node) {s t : Scope} (h : Agree s t)
    (context : Context) (splice : Bool) :
    run E include_ node s context splice = run E include_ node t context splice :=
  run_corresponds (E.corresponds_of_agree hi) node h context splice

namespace Engine

variable {σ : Type} (E : Engine σ) {s t : Scope}

/-- By induction on the depth, as the documents included at one depth are run at the next. -/
theorem run_of_agree : ∀ (depth : Nat) (node : Node) {s t : Scope}, Agree s t →
    ∀ (context : Context) (splice : Bool),
      E.run depth node s context splice = E.run depth node t context splice
  | 0, node, _, _, h, context, splice => by
    have hi : Includer.Respects (σ := σ) fun _ _ _ _ => Run.fail .unfinished :=
      fun _ _ _ _ => rfl
    exact node.run_of_agree E hi h context splice
  | depth + 1, node, _, _, h, context, splice => by
    have hi : Includer.Respects (E.emitted depth) := by
      intro doc s t h
      funext context splice
      simp only [emitted]
      congr 1
      funext inner
      exact run_of_agree depth inner h context splice
    rw [run_succ]
    exact node.run_of_agree E hi h context splice

theorem emitted_of_agree (depth : Nat) (template : Value) (h : Agree s t) (context : Context)
    (splice : Bool) :
    E.emitted depth template s context splice = E.emitted depth template t context splice := by
  simp only [emitted, fun node => E.run_of_agree depth node h context splice]

theorem processWithin_of_agree (depth : Nat) (template : Value) (h : Agree s t) :
    E.processWithin depth template s = E.processWithin depth template t := by
  rw [processWithin_eq, processWithin_eq, E.emitted_of_agree depth template h]

theorem processAllWithin_of_agree (depth : Nat) (template : Value) (h : Agree s t) :
    E.processAllWithin depth template s = E.processAllWithin depth template t := by
  cases template with
  | null => rfl
  | _ => simp only [processAllWithin, E.emitted_of_agree depth _ h .list false]

/-- Whatever is evaluated or processed, with includes nested up to any depth, is the same run
in two scopes: in every state of the host it has the same outcome, reports the same events
and leaves the same state. -/
structure SameRuns (s t : Scope) : Prop where
  eval : ∀ e, Expr.eval E.host s e = Expr.eval E.host t e
  evaluate : ∀ text, Expr.evaluate E.host s text = Expr.evaluate E.host t text
  emitted : ∀ depth template context splice,
    E.emitted depth template s context splice = E.emitted depth template t context splice
  process : ∀ template, E.process template s = E.process template t
  processAll : ∀ template, E.processAll template s = E.processAll template t

/-- **Scopes are their names.**  Scopes that give every name the same value give the same runs.
So do a scope of any number of frames and the single frame that holds their mappings, bound one
after another from the outermost to the innermost. -/
theorem scope_flattening :
    (∀ s t, Agree s t → E.SameRuns s t) ∧
    ∀ scope : Scope, scope.Distinct → E.SameRuns scope [.map scope.merged] := by
  have hagree : ∀ s t, Agree s t → E.SameRuns s t := by
    intro s t h
    constructor
    · exact fun e => Expr.eval_of_agree E.host h e
    · exact fun text => Expr.evaluate_of_agree E.host h text
    · exact fun depth template => E.emitted_of_agree depth template h
    · exact fun template => E.processWithin_of_agree includeDepth template h
    · exact fun template => E.processAllWithin_of_agree includeDepth template h
  exact ⟨hagree, fun scope h => hagree _ _ (Scope.agree_merged h)⟩

/-- A name bound to nothing hides the name outside it, and a frame that is no mapping is as
good as none. -/
theorem scope_flattening_masked :
    let E : Engine Library.State := ⟨Library.host, [], fun _ => none, fun _ _ => .error "lost"⟩
    let masked : Scope := [.map [(.str "x", .null)], .int 7, .map [(.str "x", .int 1)]]
    E.SameRuns masked [] ∧ masked.merged = [(.str "x", .null)] ∧
      E.SameRuns masked [.map [(.str "x", .null)]] := by
  intro E masked
  have hd : masked.Distinct := by
    intro entries hm
    simp only [masked, List.mem_cons, Value.map.injEq, reduceCtorEq, false_or,
      List.not_mem_nil, or_false] at hm
    rcases hm with rfl | rfl <;> decide +kernel
  have hmerged : masked.merged = [(.str "x", .null)] := by rfl
  obtain ⟨hagree, hflat⟩ := E.scope_flattening
  have hempty : Agree masked [] := by
    intro key
    rw [Scope.agree_merged hd key, hmerged, Scope.get_cons, Scope.ownValue?, Value.entries?_map,
      Option.bind_some, Mapping.find?_cons]
    cases Value.sameKey (.str "x") key <;> rfl
  exact ⟨hagree masked [] hempty, hmerged, hmerged ▸ hflat masked hd⟩

end Engine
end TreeTemplate
