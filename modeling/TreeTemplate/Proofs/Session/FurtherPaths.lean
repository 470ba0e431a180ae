import TreeTemplate.Host.Library
import TreeTemplate.Proofs.Template.Correspondence
import TreeTemplate.Session

/-! # Further search paths

A search goes on to the paths after the ones it had only if it found no file there
(`Files.search_append`).  A run that ends with a file not found is ended by that, and any other run
never searched in vain; so it is the same run with further search paths
(`Session.further_paths_conservative`).
-/
namespace TreeTemplate

variable {σ α : Type}

/-- A search below further paths begins with the paths before them. -/
theorem Files.search_append (isFile : String → Bool) (filename : String) :
    ∀ paths more : List String, (search isFile filename (paths ++ more) : Run σ _) =
      search isFile filename paths >>= fun found =>
        match found with
        | some path => pure (some path)
        | none => search isFile filename more
  | [], _ => rfl
  | path :: rest, more => by
    simp only [List.cons_append, search, bind_assoc]
    congr 1
    funext _
    split
    · rfl
    · exact search_append isFile filename rest more

/-- The failure of an include whose file is not found. -/
inductive Failure.Lost : Failure → Prop
  | mk (filename : String) (paths : List String) (clause : Option String) :
    Lost (.engine (.includeNotFound filename paths) clause)

namespace Run

/-- The second run does what the first does, unless the first ends with a file not found. -/
def SameUnlessLost (x y : Run σ α) : Prop :=
  ∀ s, (∀ e, (x s).result = .error e → ¬e.Lost) → y s = x s

theorem sameUnlessLost_iff {x y : Run σ α} : SameUnlessLost x y ↔
    SameWithin (fun _ => True) (fun e => ¬e.Lost) (fun _ => true) x y := by
  rw [sameWithin_all]
  exact ⟨fun h s hs => h s hs.failure, fun h s hs => h s ⟨fun _ _ => trivial, hs⟩⟩

/-- What ends with a file not found is no matter. -/
theorem SameUnlessLost.fail {e : Failure} (h : e.Lost) (y : Run σ α) :
    SameUnlessLost (Run.fail e) y :=
  sameUnlessLost_iff.mpr (.of_fail (not_not_intro h) y)

/-- A failure of the first part ends the whole run, so no part is lost in a run that is not. -/
def sameUnlessLost (σ : Type) : Congruence σ where
  rel := SameUnlessLost
  refl _ _ _ := rfl
  bind hx hf := sameUnlessLost_iff.mpr <|
    (sameUnlessLost_iff.mp hx).bind fun _ a _ _ => sameUnlessLost_iff.mp (hf a)

end Run

namespace Engine

/-- An engine with further search paths after the ones it has. -/
def addPaths (E : Engine σ) (more : List String) : Engine σ :=
  { E with includePaths := E.includePaths ++ more }

variable (E : Engine σ) (more : List String)

/-- A document that is found is found with further paths as well. -/
theorem document_addPaths (scope : Scope) (clause : String) :
    (E.document scope clause).SameUnlessLost ((E.addPaths more).document scope clause) := by
  refine (Run.sameUnlessLost σ).next (E.insert scope clause) fun filename => ?_
  show Run.SameUnlessLost _ (Files.search _ filename (E.includePaths ++ more) >>= _)
  rw [Files.search_append, bind_assoc]
  refine (Run.sameUnlessLost σ).next _ fun found => ?_
  cases found with
  | none => exact .fail (.mk _ _ _) _
  | some path =>
    rw [pure_bind]
    exact (Run.sameUnlessLost σ).refl _

theorem corresponds_addPaths {include_ other : Includer σ}
    (h : ∀ doc scope context splice,
      (include_ doc scope context splice).SameUnlessLost (other doc scope context splice)) :
    Corresponds (Run.sameUnlessLost σ) Eq E (E.addPaths more) include_ other where
  host := rfl
  push hs frame := by rw [hs]
  evaluate hs clause := by
    subst hs
    exact (Run.sameUnlessLost σ).refl _
  «include» hs clause context splice := by
    subst hs
    exact (Run.sameUnlessLost σ).bind (E.document_addPaths more _ clause) fun doc =>
      h doc _ context splice

/-- By induction on the depth: an included document is run at the depth below. -/
theorem run_addPaths : ∀ (depth : Nat) (node : Node) (scope : Scope) (context : Context)
    (splice : Bool), (E.run depth node scope context splice).SameUnlessLost
      ((E.addPaths more).run depth node scope context splice)
  | 0, node, _, context, splice =>
    node.run_corresponds (E.corresponds_addPaths more fun _ _ _ _ => (Run.sameUnlessLost σ).refl _)
      rfl context splice
  | depth + 1, node, _, context, splice =>
    node.run_corresponds (E.corresponds_addPaths more fun _ scope context splice =>
      (Run.sameUnlessLost σ).next _ fun inner => run_addPaths depth inner scope context splice)
      rfl context splice

theorem processWithin_addPaths (depth : Nat) (template : Value) (scope : Scope) :
    (E.processWithin depth template scope).SameUnlessLost
      ((E.addPaths more).processWithin depth template scope) := by
  refine processWithin_rel (R := Run.sameUnlessLost σ) ?_
  exact (Run.sameUnlessLost σ).next _ fun node => E.run_addPaths more depth node scope .single false

end Engine

namespace Session

/-- **Further search paths change no run that finds its files.**  If a template is processed to
anything but the error of a file that is not found, be it a value or another failure, then with
further search paths it is processed to the same, with the same calls into the host and all else
that is observed, and leaves the host in the same state. -/
theorem further_paths_conservative (S : Session σ) (more : List String) (depth : Nat)
    (template : Value) (scope : Scope)
    (h : ∀ filename paths clause, (S.run fun E => E.processWithin depth template scope).1.result ≠
      .error (.engine (.includeNotFound filename paths) clause)) :
    (S.addPaths more).run (fun E => E.processWithin depth template scope) =
      ((S.run fun E => E.processWithin depth template scope).1,
        (S.run fun E => E.processWithin depth template scope).2.addPaths more) := by
  have hsame : (S.engine.addPaths more).processWithin depth template scope S.state =
      S.engine.processWithin depth template scope S.state := by
    refine S.engine.processWithin_addPaths more depth template scope S.state fun e he hlost => ?_
    cases hlost with
    | mk filename paths clause => exact h filename paths clause he
  have hengine : (S.addPaths more).engine = S.engine.addPaths more := rfl
  simp only [run, hengine, show (S.addPaths more).state = S.state from rfl, hsame]
  rfl

/-- A page is included from the first of two folders that have it, whether or not the second one is
searched as well. -/
theorem further_paths_conservative_page :
    let decode : String → List UInt8 → Except String Value := fun path _ =>
      if path = "a/x" then .ok (.int 1) else .ok (.int 2)
    let S : Session Library.State := ⟨⟨Library.host, ["a"], fun _ => some [], decode⟩, default⟩
    let page := fun E : Engine Library.State => E.processWithin 1 (.str ".'x'") []
    (S.run page).1.result = .ok (.int 1) ∧
      (S.addPaths ["b"]).run page = ((S.run page).1, (S.run page).2.addPaths ["b"]) := by
  intro decode S page
  have hparse : Expr.parse? "'x'" = some (.literal (.str "x")) := by cbv
  have hjoin : Files.join "a" "x" = "a/x" := by decide +kernel
  have hdocument : S.engine.document [] "'x'" S.state =
      ⟨.ok (.int 1), [.clause "'x'", .probe "x" "a/x" true], S.state⟩ := by
    have hinsert : S.engine.insert [] "'x'" S.state = ⟨.ok "x", [.clause "'x'"], S.state⟩ := by
      simp only [Engine.insert, Engine.evaluate, Expr.evaluate, hparse]
      rfl
    simp only [Engine.document, Run.bind_def, Run.bind, hinsert, Files.search, S, hjoin]
    rfl
  have hresult : (S.run page).1.result = .ok (.int 1) := by
    have hread : Node.ofValue (.str ".'x'") = .leaf ".'x'" (.include false "'x'") := rfl
    simp only [run, page, Engine.processWithin, Engine.emitted, Engine.read, bind_assoc, pure_bind,
      hread, Engine.run_succ, Node.run, Engine.leafDirective?, Engine.leaf]
    simp only [Run.bind_def, Run.bind, Run.emit, hdocument]
    rfl
  refine ⟨hresult, S.further_paths_conservative ["b"] 1 (.str ".'x'") [] fun _ _ _ h => ?_⟩
  have hlost : (S.run page).1.result = _ := h
  simp [hresult] at hlost

end Session
end TreeTemplate
