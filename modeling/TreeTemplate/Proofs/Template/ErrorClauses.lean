import TreeTemplate.CommandLine
import TreeTemplate.Proofs.Template.EscapingFaults
import TreeTemplate.Proofs.Template.IncludeTransparency
import TreeTemplate.Proofs.Template.Stops

/-! # The clauses that errors name

An error is reported with the clause at which it arose, or with none.  Where functions of the host
do not fail, every error arises at a point where processing stops (`Engine.Halts`), and the text of
that stop is what it names: a clause of the directive there, or the whole key that the directive is
(`Engine.ArisesAt`).  Three causes are found away from any clause and name none, and the words of a
clause that cannot be parsed quote it already.  What is to be done at a point was read from the
document of the point (`Engine.written_of_reaches`), so the text that is named is one that the
template spells there, or a document that it includes (`Engine.error_names_its_clause`).
-/
namespace TreeTemplate

variable {σ : Type}

/-- The errors that are found away from any clause, and name none. -/
def EngineError.Unplaced : EngineError → Prop
  | .includeNotFound _ _ | .includeDecode _ _ | .commentedValue _ _ => True
  | _ => False

theorem EngineError.OfExpression.not_unplaced {cause : EngineError} (h : cause.OfExpression) :
    ¬cause.Unplaced := by
  cases cause <;> simp_all [OfExpression, Unplaced]

/-- The kinds of errors that name no clause: those that are found away from one, and those whose
words quote it. -/
theorem EngineError.kind_unclaused {cause : EngineError} :
    (cause.kind = "GrammarError" ∨ cause.kind = "IncludeNotFoundError" ∨
      cause.kind = "IncludeDecodeError" ∨ cause.kind = "CommentedValueError") ↔
      (∃ text, cause = .grammar text) ∨ cause.Unplaced := by
  cases cause <;> simp [kind, Unplaced]

theorem EngineError.kind_grammar {cause : EngineError} :
    cause.kind = "GrammarError" ↔ ∃ text, cause = .grammar text := by
  cases cause <;> simp [kind]

/-- The report of an error has its clause, unless the words of the error quote it. -/
theorem Report.ofFailure?_engine (cause : EngineError) (named : Option String) :
    ofFailure? (.engine cause named) = some (.failure cause.kind cause.message
      (if cause.kind = "GrammarError" then none else named)) := by
  cases cause <;> simp [ofFailure?, EngineError.kind]

namespace Engine

/-- The text that processing stops at. -/
def Stop.text? : Stop → Option String
  | .clause text => some text
  | .key text => some text
  | .entry => none

/-- A cause with the clause that it names arises at a stop. -/
inductive ArisesAt : Stop → EngineError → Option String → Prop
  | unplaced {stop : Stop} {cause : EngineError} (h : cause.Unplaced) : ArisesAt stop cause none
  | named {stop : Stop} {cause : EngineError} {text : String} (hstop : stop.text? = some text)
    (hplaced : ¬cause.Unplaced) (hparsed : ∀ text, cause ≠ .grammar text) :
    ArisesAt stop cause (some text)
  | grammar (text : String) : ArisesAt (.clause text) (.grammar text) (some text)

namespace ArisesAt

variable {stop : Stop} {cause : EngineError} {clause : Option String}

/-- No clause is reported for an error that names none, or whose words quote it. -/
theorem reported_eq_none (h : ArisesAt stop cause clause) :
    (if cause.kind = "GrammarError" then none else clause) = none ↔
      cause.kind = "GrammarError" ∨ cause.kind = "IncludeNotFoundError" ∨
        cause.kind = "IncludeDecodeError" ∨ cause.kind = "CommentedValueError" := by
  rw [EngineError.kind_unclaused]
  cases h with
  | unplaced h => simp [h]
  | named _ hplaced hparsed => simp [EngineError.kind_grammar, hplaced, hparsed]
  | grammar text => simp [EngineError.kind]

/-- A clause that is reported is the text of the stop. -/
theorem reported_eq_text (h : ArisesAt stop cause clause)
    (hclause : (if cause.kind = "GrammarError" then none else clause) ≠ none) :
    (if cause.kind = "GrammarError" then none else clause) = stop.text? := by
  cases h with
  | unplaced => simp at hclause
  | named hstop _ hparsed => simp [EngineError.kind_grammar, hparsed, hstop]
  | grammar text => simp [EngineError.kind] at hclause

/-- What cannot be parsed is the clause of the stop. -/
theorem eq_clause {text : String} (h : ArisesAt stop (.grammar text) clause) :
    stop = .clause text := by
  cases h with
  | unplaced h => exact h.elim
  | named _ _ hparsed => exact absurd rfl (hparsed text)
  | grammar => rfl

end ArisesAt

/-! ## What the parts of a run fail with -/

section
variable {E : Engine σ} {scope : Scope} {clause : String} {s : σ} {cause : EngineError}
  {named : Option String}

theorem notMapping_of_entriesOf {what : String} {v : Value} {e : Failure}
    (h : (entriesOf what clause v).Fails s e) :
    e = .engine (.notMapping what v.typeName) (some clause) := by
  cases v <;> simp_all [entriesOf, eq_comm]

theorem notMapping_of_mergeInto {what : String} {made : Mapping.Entries} {v : Value} {e : Failure}
    (h : (mergeInto what clause made v).Fails s e) :
    e = .engine (.notMapping what v.typeName) (some clause) := by
  simp only [mergeInto, bind_pure_comp, Run.fails_map] at h
  exact notMapping_of_entriesOf h

theorem loopOver_of_loopItems {v : Value} {e : Failure} (h : (loopItems clause v).Fails s e) :
    e = .engine (.loopOver v.typeName) (some clause) := by
  cases v <;> simp_all [loopItems, eq_comm]

theorem fault_of_put {made : Mapping.Entries} {key value : Value} {e : Failure}
    (h : (put made key value).Fails s e) : ∃ cause, e = .fault cause := by
  unfold put at h
  cases hkey : key.key? with
  | ok => simp [hkey] at h
  | error typeName => exact ⟨_, by simpa [hkey, eq_comm] using h⟩

theorem unplaced_of_contents {filename : String} {e : Failure}
    (h : E.contents filename = .error e) : ∃ cause, cause.Unplaced ∧ e = .engine cause none := by
  unfold contents at h
  split at h
  · cases h
    exact ⟨.includeNotFound _ _, trivial, rfl⟩
  · rename_i path _
    cases hdoc : E.decode path ((E.file? path).getD []) with
    | ok doc => simp [hdoc, Except.mapError] at h
    | error detail =>
      simp only [hdoc, Except.mapError] at h
      cases h
      exact ⟨.includeDecode _ _, trivial, rfl⟩

section
variable (hreliable : E.host.Reliable)
include hreliable

/-- By the contract that only errors of expressions happen, which name no clause yet. -/
theorem arisesAt_of_evaluate (h : (E.evaluate scope clause).Fails s (.engine cause named)) :
    ArisesAt (.clause clause) cause named := by
  let c : Contract := ⟨(Expr.evaluate E.host scope clause s).events, fun _ => True,
    fun e => ∀ cause named, e = .engine cause named →
      cause.OfExpression ∧ named = none ∨ cause = .grammar clause ∧ named = some clause⟩
  have A : E.host.Answers c fun _ => True := by
    refine Host.answers_of_calls ?_ ?_ (fun _ => trivial) nofun
    · rintro cause hcause _ _ ⟨⟩
      exact .inl ⟨hcause, rfl⟩
    · exact ⟨fun _ _ _ _ h => (hreliable.call _ _ _ _ h).elim,
        fun _ _ _ _ _ h => (hreliable.send _ _ _ _ _ h).elim,
        fun _ _ _ _ _ h => (hreliable.invoke _ _ _ _ _ h).elim⟩
  have hgrammar : c.failure (.engine (.grammar clause) (some clause)) := by
    rintro _ _ ⟨⟩
    exact .inr ⟨rfl, rfl⟩
  have hmeets : (Expr.evaluate E.host scope clause).Meets c fun _ => True :=
    Expr.evaluate_answers A Value.domain_all.toClosed (fun _ _ => trivial) trivial hgrammar
      fun _ _ _ _ => trivial
  obtain ⟨e, he, hnamed⟩ := Run.fails_mapFailure.mp h
  have hcause := (hmeets s fun _ h => h).error e he
  cases e with
  | fault | unfinished => cases hnamed
  | engine found at_ =>
    rw [Failure.atClause_engine] at hnamed
    cases hnamed
    rcases hcause _ at_ rfl with ⟨hexpr, rfl⟩ | ⟨rfl, rfl⟩
    · refine .named rfl hexpr.not_unplaced ?_
      rintro text rfl
      exact hexpr.elim
    · exact .grammar clause

theorem arisesAt_of_callee (h : (E.callee scope clause).Fails s (.engine cause named)) :
    ArisesAt (.clause clause) cause named := by
  rcases callee_fails.mp h with h | ⟨f, t, -, -, h⟩
  · exact arisesAt_of_evaluate hreliable h
  · cases h
    exact .named rfl id nofun

/-- An error arises at the stop that it is found at. -/
theorem Halts.arisesAt {p : Point σ} {stop : Stop} (h : E.Halts p stop (.engine cause named)) :
    ArisesAt stop cause named := by
  cases h with
  | evaluate h hv => exact arisesAt_of_evaluate hreliable hv
  | callee h hf => exact arisesAt_of_callee hreliable hf
  | group h hbefore hv => exact arisesAt_of_evaluate hreliable hv
  | file h hname hfile =>
    obtain ⟨found, hunplaced, heq⟩ := unplaced_of_contents hfile
    cases heq
    exact .unplaced hunplaced
  | loop h hv hitems =>
    cases loopOver_of_loopItems hitems
    exact .named rfl id nofun
  | each h hv hentries =>
    cases notMapping_of_entriesOf hentries
    exact .named rfl id nofun
  | content h hv hbefore hcontent hmerge =>
    cases notMapping_of_mergeInto hmerge
    exact .named rfl id nofun
  | badSwitch h => exact .named rfl id nofun
  | merge h hvalue hmerge =>
    obtain ⟨_, _, _, _, _, -, -, hmerge⟩ := Run.carry_fails.mp hmerge
    cases notMapping_of_mergeInto hmerge
    exact .named rfl id nofun
  | apply h hf hargument hcall hmerge =>
    cases notMapping_of_mergeInto hmerge
    exact .named rfl id nofun
  | commented h => exact .unplaced trivial
  | put h hkey hvalue hput =>
    obtain ⟨_, h⟩ := fault_of_put hput
    cases h

end

end

/-! ## Stops and the texts of a document -/

/-- The text of a stop is found in a document: a clause is spelled by a text that stands where such
a clause may, and a key is a whole key. -/
def Stop.WrittenIn (doc : Value) : Stop → Prop
  | .clause text => ∃ place s, doc.Holds place s ∧ place.Spells s.toList text.toList
  | .key text => doc.Holds .key text
  | .entry => True

/-- The directives of a task were read from texts. -/
def Task.Written (T : Value.Place → String → Prop) : Task → Prop
  | .node root _ _ => root.Written T fun _ => True
  | .elements parts _ => ∀ part ∈ parts, part.Written T fun _ => True
  | .entry row _ => row.Written T fun _ => True

namespace Task

variable {T : Value.Place → String → Prop} {task : Task} {clause : String}

/-- The clause that is evaluated at a task is spelled by the text of its directive. -/
theorem Written.spells_clause (hp : task.Written T) (h : task.clause? = some clause) :
    ∃ place s, T place s ∧ place.Spells s.toList clause.toList := by
  unfold Task.clause? at h
  split at h
  case h_1 | h_2 | h_3 =>
    cases h
    cases hp with
    | leaf hs hm => exact ⟨.leaf, _, hs, Leaf.spells_of_mem_clauses (by simp [hm, Leaf.clauses])⟩
  case h_4 =>
    cases h
    cases hp with
    | loop hs hm => exact ⟨.head, _, hs, Node.Head.spells (.inl hm)⟩
  case h_5 =>
    cases h
    cases hp with
    | condition hs hm => exact ⟨.head, _, hs, Node.Head.spells (.inr hm)⟩
  case h_6 =>
    cases h
    cases hp with
    | each hs hm => exact ⟨.key, _, hs, Node.KeyMark.spells (.inl hm)⟩
  case h_7 =>
    cases h
    cases hp with
    | switch hs hm => exact ⟨.key, _, hs, Node.KeyMark.spells (.inr (.inl hm))⟩
  case h_8 => cases h

/-- The clause of a function is spelled by the text of its directive. -/
theorem Written.spells_callee (hp : task.Written T) (h : task.callee? = some clause) :
    ∃ place s, T place s ∧ place.Spells s.toList clause.toList := by
  unfold Task.callee? at h
  split at h
  case h_1 =>
    cases h
    cases hp with
    | leaf hs hm => exact ⟨.leaf, _, hs, Leaf.spells_of_mem_clauses (by simp [hm, Leaf.clauses])⟩
  case h_2 =>
    cases h
    cases hp _ List.mem_cons_self with
    | capture hs hm => exact ⟨.element, _, hs, Node.Marker.spells hm⟩
  case h_3 =>
    cases h
    cases hp with
    | apply hs hm => exact ⟨.key, _, hs, Node.KeyMark.spells (.inr (.inr hm))⟩
  case h_4 => cases h

end Task

section
variable {E : Engine σ} {p q : Point σ} {stop : Stop} {e : Failure}

/-- What is to be done at a point stays in the document of the point. -/
theorem Leads.written (h : E.Leads p q) (hp : p.task.Written p.document.Holds) :
    q.task.Written q.document.Holds := by
  cases h with
  | @«include» _ _ _ _ _ _ included =>
    exact Node.ofValue_written (T := included.Holds) Value.domain_all trivial fun _ _ h => h
  | loop h =>
    rw [h] at hp
    cases hp with
    | loop _ _ hbody => exact hbody _ (by simp)
  | @condition _ _ _ _ _ yes no node v _ h _ hnode =>
    rw [h] at hp
    cases hp with
    | condition _ _ hyes hno =>
      by_cases hv : v.truthy = true
      · exact hyes node (by simpa [hv] using hnode)
      · exact hno node (by simpa [hv] using hnode)
  | elements h =>
    rw [h] at hp
    cases hp with
    | elements hparts => exact hparts
  | each h =>
    rw [h] at hp
    cases hp with
    | each _ _ hbody => exact hbody
  | switch h _ _ hcase =>
    rw [h] at hp
    cases hp with
    | switch _ _ hcases => exact hcases _ (List.mem_of_find?_eq_some hcase)
  | mapping h =>
    rw [h] at hp
    cases hp with
    | mapping hgiven => exact hgiven _
  | entry h =>
    rw [h] at hp
    cases hp with
    | merge hentries => exact hentries _ (by simp)
  | merged h =>
    rw [h] at hp
    cases hp with
    | merge _ hvalue => exact hvalue
  | argument h =>
    rw [h] at hp
    cases hp with
    | apply _ _ hvalue => exact hvalue
  | key h =>
    rw [h] at hp
    cases hp with
    | put hkey _ => exact hkey
  | value h =>
    rw [h] at hp
    cases hp with
    | put _ hvalue => exact hvalue
  | skip h | splice h | capture h | skipped h | next h =>
    rw [h] at hp
    exact fun part hpart => hp part (List.mem_cons_of_mem _ hpart)
  | item h | captured h =>
    rw [h] at hp
    cases hp _ List.mem_cons_self with
    | item hnode => exact hnode

theorem Halts.writtenIn (h : E.Halts p stop e) (hp : p.task.Written p.document.Holds) :
    stop.WrittenIn p.document := by
  cases h with
  | evaluate h => exact hp.spells_clause h
  | callee h => exact hp.spells_callee h
  | file h | depth h | loop h | each h => exact hp.spells_clause (by rw [h]; rfl)
  | group h =>
    rw [h] at hp
    cases hp with
    | leaf hs hm => exact ⟨.leaf, _, hs, Leaf.spells_of_mem_clauses (by simp [hm, Leaf.clauses])⟩
  | content h =>
    rw [h] at hp
    cases hp with
    | each hs => exact hs
  | badSwitch h =>
    rw [h] at hp
    cases hp with
    | badSwitch hs => exact hs
  | merge h =>
    rw [h] at hp
    cases hp with
    | merge hs => exact hs
  | apply h =>
    rw [h] at hp
    cases hp with
    | apply hs => exact hs
  | commented | put => trivial

end

/-- The point at which a run of a template begins. -/
def Point.start (depth : Nat) (template : Value) (scope : Scope) (s : σ) : Point σ :=
  ⟨depth, template, scope, .node (.ofValue template) .single false, s⟩

/-- Wherever a run comes to, it is in a document that is processed there. -/
theorem written_of_reaches {E : Engine σ} {depth : Nat} {template : Value} {scope : Scope} {s : σ}
    {p : Point σ} (h : Relation.ReflTransGen E.Leads (.start depth template scope s) p) :
    p.task.Written p.document.Holds := by
  induction h with
  | refl => exact Node.ofValue_written (T := template.Holds) Value.domain_all trivial fun _ _ h => h
  | tail _ hleads ih => exact hleads.written ih

/-- A run of a template fails with what it stops with. -/
theorem processWithin_fails_iff {E : Engine σ} (hreliable : E.host.Reliable) {depth : Nat}
    {template : Value} {scope : Scope} {s : σ} {e : Failure} :
    (E.processWithin depth template scope).Fails s e ↔
      E.Stops (.start depth template scope s) e := by
  rw [processWithin_eq, emitted_eq, bind_pure_comp, Run.fails_map]
  exact fails_iff_stops hreliable

/-- **Errors name the clause at which processing stops.**  Where no function or method of the host
fails, a run whose report is an error has come to a point where processing stops.  Wherever that is,
the text of the stop is written in the document of the point.  The report names no clause exactly if
the error is one of a text that cannot be parsed, of an included file that is not found or cannot be
decoded, or of a value that looks like a comment.  Any other error names the text of the stop, and
a text that cannot be parsed is quoted in the words of its error.  Includes may be nested up to any
depth, that of `report` among them. -/
theorem error_names_its_clause (E : Engine σ) (hreliable : E.host.Reliable) (depth : Nat)
    (template : Value) (scope : Scope) (s : σ) {report : Report} {error : ErrorReport}
    (h : (E.reportWithin depth template scope s).result = .ok report)
    (herror : report.error = some error) :
    E.report = E.reportWithin includeDepth ∧
    (∃ p stop e, E.StopsAt (.start depth template scope s) p stop e) ∧
    ∀ p stop e, E.StopsAt (.start depth template scope s) p stop e →
      stop.WrittenIn p.document ∧ error.kind = some e.kind ∧ error.message = some e.message ∧
      (error.clause = none ↔ e.kind = "GrammarError" ∨ e.kind = "IncludeNotFoundError" ∨
        e.kind = "IncludeDecodeError" ∨ e.kind = "CommentedValueError") ∧
      (error.clause ≠ none → error.clause = stop.text?) ∧
      (e.kind = "GrammarError" → ∃ text, stop = .clause text ∧
        error.message = some ("cannot parse expression " ++ Text.quote text)) := by
  rw [reportWithin_result] at h
  cases hresult : (E.processWithin depth template scope s).result with
  | ok v =>
    simp only [hresult] at h
    cases h
    cases herror
  | error e =>
    obtain ⟨q, halt, hq⟩ := (processWithin_fails_iff hreliable).mp hresult
    refine ⟨rfl, ⟨q, halt, e, hq⟩, fun p stop e' hp => ?_⟩
    -- a run fails in one way, so that it does not matter where it is said to stop
    have hfails := (processWithin_fails_iff hreliable).mpr ⟨p, stop, hp⟩
    have heq : e = e' := by
      rw [Run.Fails, hresult] at hfails
      exact Except.error.inj hfails
    subst heq
    obtain ⟨hreach, hstop⟩ := hp
    simp only [hresult] at h
    cases e with
    | fault | unfinished => cases h
    | engine cause named =>
      have harises := hstop.arisesAt hreliable
      rw [Report.ofFailure?_engine] at h
      cases h
      cases herror
      refine ⟨hstop.writtenIn (written_of_reaches hreach), rfl, rfl, harises.reported_eq_none,
        harises.reported_eq_text, fun hkind => ?_⟩
      obtain ⟨text, rfl⟩ := EngineError.kind_grammar.mp hkind
      exact ⟨text, harises.eq_clause, rfl⟩

/-- An error in a document that is included names the clause of the loop there. -/
theorem error_names_its_clause_loop :
    let E : Engine Unit := ⟨CommandLine.host, ["."], fun _ => some [], fun _ _ =>
      .ok (.list [.str "@- 5", .str "item"])⟩
    E.host.Reliable ∧ ∃ report error, (E.report (.str ".'part'") [] ()).result = .ok report ∧
      report.error = some error ∧ error.clause = some " 5" ∧
      ∃ p stop e, E.StopsAt (.start includeDepth (.str ".'part'") [] ()) p stop e ∧
        stop.text? = some " 5" ∧ stop.WrittenIn p.document := by
  intro E
  have hreliable : E.host.Reliable := {
    call := fun _ _ _ _ h => by cases h
    send := fun _ _ _ _ _ h => by cases h
    invoke := fun _ _ _ _ _ h => by cases h }
  have hpart : E.contents "part" = .ok (.list [.str "@- 5", .str "item"]) := by
    simp [contents, found?, Files.candidates, Files.join, E]
    rfl
  have hparse : Expr.parse? " 5" = some (.literal (.int 5)) := by cbv
  have hread : Node.ofValue (.list [.str "@- 5", .str "item"]) =
      .loop "@- 5" true " 5" [.leaf "item" (.plain [.literal "item".toList])] := rfl
  have hdoc : (E.includer includeDepth (.list [.str "@- 5", .str "item"]) [] .single false
      ()).result = .error (.engine (.loopOver "int") (some " 5")) := by
    rw [includeDepth, includer, emitted_eq, hread, run_eq]
    simp only [Node.run, evaluate, Expr.evaluate, hparse]
    rfl
  have hincluded : ((Node.ofValue (.str ".'part'")).run E (E.includer includeDepth) [] .single false
      ()).result = .error (.engine (.loopOver "int") (some " 5")) := by
    have htext : ".'part'" = ".'" ++ "part" ++ "'" := by decide
    have hsame := congrArg Outcome.result (E.run_including (by decide) hpart
      (E.includer includeDepth) [] .single false ())
    simp only [Outcome.only] at hsame
    rw [htext, hsame, hdoc]
  have hreport : (E.report (.str ".'part'") [] ()).result =
      .ok (.failure "TemplateError" "loop over int, expected a list" (some " 5")) := by
    have hprocess : (E.processWithin includeDepth (.str ".'part'") [] ()).result =
        .error (.engine (.loopOver "int") (some " 5")) := by
      rw [processWithin_eq, emitted_eq, run_eq]
      exact Run.error_of_bind hincluded
    show (E.reportWithin includeDepth (.str ".'part'") [] ()).result = _
    rw [reportWithin_result, hprocess]
    rfl
  obtain ⟨-, ⟨p, stop, e, hstop⟩, hall⟩ :=
    error_names_its_clause E hreliable includeDepth (.str ".'part'") [] () hreport rfl
  obtain ⟨hwritten, -, -, -, htext, -⟩ := hall p stop e hstop
  exact ⟨hreliable, _, _, hreport, rfl, rfl, p, stop, e, hstop, (htext (by simp)).symm, hwritten⟩

end Engine
end TreeTemplate
