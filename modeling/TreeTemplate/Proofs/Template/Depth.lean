import TreeTemplate.Proofs.Template.Correspondence

/-! # Includes nested deeper

A run in which includes are nested up to a depth ends unfinished when that is not deep enough.  What
it comes to otherwise does not depend on the depth: it is the same run at every greater depth
(`Engine.processWithin_deeper`).
-/
namespace TreeTemplate

variable {σ α : Type}

namespace Run

/-- Doing the same, as far as some events are concerned, unless the first run is not finished. -/
def sameOnceFinished (seen : Event → Bool) : Run.Congruence σ :=
  sameWithin (fun _ => True) (· ≠ .unfinished) seen

theorem sameOnceFinished_fail (seen : Event → Bool) (y : Run σ α) :
    (sameOnceFinished seen).rel (Run.fail .unfinished) y :=
  .of_fail (fun h => h rfl) y

theorem sameOnceFinished_apply {seen : Event → Bool} {x y : Run σ α} {s : σ}
    (h : (sameOnceFinished seen).rel x y) (hfinished : (x s).result ≠ .error .unfinished) :
    (y s).only seen = (x s).only seen :=
  h s ⟨fun _ _ => trivial, fun _ he hunfinished => hfinished (hunfinished ▸ he)⟩

end Run

namespace Engine

open Run

variable (E : Engine σ) (seen : Event → Bool)

/-- What an included document emits is what the node that it is read as emits, one level down. -/
theorem includer_succ (depth : Nat) (doc : Value) (scope : Scope) (context : Context)
    (splice : Bool) : E.includer (depth + 1) doc scope context splice =
      (Node.ofValue doc).run E (E.includer depth) scope context splice := by
  simp only [includer, emitted_eq, run_eq]

/-- By induction on the depth: what is included at one depth is run at the depth below. -/
theorem includer_deeper : ∀ (depth : Nat) (doc : Value) (scope : Scope) (context : Context)
    (splice : Bool), (sameOnceFinished seen).rel (E.includer depth doc scope context splice)
      (E.includer (depth + 1) doc scope context splice)
  | 0, _, _, _, _ => sameOnceFinished_fail seen _
  | depth + 1, doc, _, context, splice => by
    rw [includer_succ, includer_succ]
    exact (Node.ofValue doc).run_corresponds (E.corresponds (includer_deeper depth)) rfl context
      splice

theorem emitted_deeper (depth : Nat) (template : Value) (scope : Scope) (context : Context)
    (splice : Bool) : (sameOnceFinished seen).rel (E.emitted depth template scope context splice)
      (E.emitted (depth + 1) template scope context splice) :=
  E.includer_deeper seen (depth + 1) template scope context splice

/-- A run that is finished at some depth is the same at every greater depth. -/
theorem processWithin_deeper {template : Value} {scope : Scope} {s : σ} {depth deeper : Nat}
    (hle : depth ≤ deeper)
    (h : (E.processWithin depth template scope s).result ≠ .error .unfinished) :
    E.processWithin deeper template scope s = E.processWithin depth template scope s := by
  induction hle with
  | refl => rfl
  | @step deeper _ ih =>
    have hnext := processWithin_rel (R := sameOnceFinished fun _ => true)
      (E.emitted_deeper _ deeper template scope .single false)
    rw [← ih] at h ⊢
    simpa only [Outcome.only_all] using sameOnceFinished_apply hnext h

end Engine
end TreeTemplate
