import TreeTemplate.CommandLine
import TreeTemplate.Proofs.Template.IncludeTransparency
import TreeTemplate.Proofs.Template.Reading

/-! # Processing without cycles of includes

Includes can go on for ever, and then no depth is enough.  They cannot where the paths of files have
ranks that descend (`Engine.Descends`): whatever is included while the document of a path is
processed ranks below that path.  Such a run can be written without any depth, by recursion on the
ranks (`Engine.descend`); it always ends, and it is the run at every depth that exceeds the ranks of
the paths that the template itself includes (`Engine.terminates_of_descends`).
-/
namespace TreeTemplate

variable {σ : Type}

/-- A host whose functions return, with a value or an error of their own. -/
def Host.Returns (H : Host σ) : Prop := H.FailsWithin (· ≠ .unfinished)

/-- Anything may be reported, and a run may fail in any way but to be unfinished. -/
def Contract.finishing (trace : List Event) : Contract :=
  ⟨trace, fun _ => True, (· ≠ .unfinished)⟩

namespace Engine

open Run

variable (E : Engine σ)

/-! ## Documents and their paths -/

/-- The same engine, with every document next to the path of its file. -/
def labelled : Engine σ :=
  { E with
    decode := fun path bytes => (E.decode path bytes).map fun doc => .tuple [.str path, doc] }

/-- What becomes of a document that stands next to the path of its file. -/
def unlabel (inc : String → Includer σ) : Includer σ
  | .tuple [.str path, doc] => inc path doc
  | _ => fun _ _ _ => pure []

/-- A document is the same next to its path, which is where it was found. -/
theorem labelled_contents (filename : String) :
    (∃ e, E.contents filename = .error e ∧ E.labelled.contents filename = .error e) ∨
      ∃ path doc, .probe filename path true ∈ E.probes filename ∧
        E.contents filename = .ok doc ∧
        E.labelled.contents filename = .ok (.tuple [.str path, doc]) := by
  have hfound : E.labelled.found? filename = E.found? filename := rfl
  simp only [contents, hfound]
  cases h : E.found? filename with
  | none => exact .inl ⟨_, rfl, rfl⟩
  | some path =>
    have hprobe : .probe filename path true ∈ E.probes filename := Files.probe_mem_probes h
    simp only [labelled]
    cases hdoc : E.decode path ((E.file? path).getD []) with
    | error detail => exact .inl ⟨_, rfl, rfl⟩
    | ok doc => exact .inr ⟨path, doc, hprobe, rfl, rfl⟩

variable {E}

/-- An engine with labelled documents corresponds to the engine itself, as long as documents are
treated alike at the paths that are found. -/
theorem labelled_corresponds {P : Event → Prop} {F : Failure → Prop} {seen : Event → Bool}
    {inc : String → Includer σ} {other : Includer σ}
    (h : ∀ filename path, P (.probe filename path true) → ∀ doc scope context splice,
      SameWithin P F seen (inc path doc scope context splice) (other doc scope context splice)) :
    Corresponds (sameWithin P F seen) Eq E.labelled E (unlabel inc) other where
  host := rfl
  push hs frame := by rw [hs]
  evaluate hs clause := by
    subst hs
    exact .refl _
  «include» hs clause context splice := by
    subst hs
    simp only [document_eq, fetch, bind_assoc]
    -- the search is reported first, so that a path may be counted on to have been found
    refine .bind (.refl _) fun _ filename _ _ => .bind (.refl _) fun s _ hprobes _ => ?_
    rcases E.labelled_contents filename with ⟨e, hplain, hlabelled⟩ |
      ⟨path, doc, hprobe, hplain, hlabelled⟩
    · rw [hplain, hlabelled]
      exact .refl (Run.fail e)
    · rw [hplain, hlabelled]
      exact h filename path (hprobes.events _ hprobe) doc _ context splice

/-! ## Runs along descending ranks -/

variable (E) (rank : String → Nat) (refused : Failure)

/-- What becomes of the document of a path when an include is refused unless the path of its file
ranks below the one before. -/
def descend (path : String) : Includer σ := fun doc =>
  (Node.ofValue doc).run E.labelled (unlabel fun next =>
    if _ : rank next < rank path then descend next else fun _ _ _ _ => Run.fail refused)
termination_by rank path

/-- The value of a template in a scope, along descending ranks.  What the template itself includes
may have any rank. -/
def processDescending (template : Value) (scope : Scope) : Run σ Value := do
  let values ← (Node.ofValue template).run E.labelled (unlabel (E.descend rank refused)) scope
    .single false
  pure (single values)

/-- While a template is processed, every include in the document of a path is found at a path of a
lower rank: no include is refused, in whatever way that would be reported. -/
def Descends (template : Value) (scope : Scope) (s : σ) : Prop :=
  ∃ refused, refused ≠ .unfinished ∧
    (E.processDescending rank refused template scope s).result ≠ .error refused

variable {E rank refused} {P : Event → Prop}

/-- By induction on the depth: the ranks descend with it. -/
theorem descend_sameWithin : ∀ {depth : Nat} {path : String}, rank path < depth →
    ∀ doc scope context splice, SameWithin P (· ≠ refused) (fun _ => true)
      (E.descend rank refused path doc scope context splice)
      (E.includer depth doc scope context splice)
  | depth + 1, path, hpath, doc, scope, context, splice => by
    rw [includer_succ, descend]
    -- an include that is not refused ranks below `path`, hence below one depth less
    refine (Node.ofValue doc).run_corresponds (labelled_corresponds ?_) rfl context splice
    intro _ next _ doc scope context splice
    by_cases hnext : rank next < rank path
    · rw [dif_pos hnext]
      exact descend_sameWithin (by omega) doc scope context splice
    · rw [dif_neg hnext]
      exact .of_fail (fun h => h rfl) _

/-- The run of a document finishes when those of the documents that it includes do. -/
theorem run_finishes (hreturns : E.host.Returns) {trace : List Event} {inc : String → Includer σ}
    (h : ∀ path doc scope context splice,
      (inc path doc scope context splice).Meets (.finishing trace) fun vs => ∀ v ∈ vs, True)
    (doc : Value) (scope : Scope) (context : Context) (splice : Bool) :
    ((Node.ofValue doc).run E.labelled (unlabel inc) scope context splice).Meets
      (.finishing trace) fun vs => ∀ v ∈ vs, True := by
  have O : E.labelled.Obeys (.finishing trace) fun _ => True :=
    E.labelled.obeys_of_events (fun _ => trivial) (fun _ _ _ _ => trivial) (fun _ h => h) hreturns
  have hinc : Node.Includes E.labelled (.finishing trace) (fun _ => True) (unlabel inc) := by
    intro doc _ scope _ context splice
    unfold unlabel
    split
    · exact h _ _ scope context splice
    · exact .pure (by simp)
  have hdoc : (Node.ofValue doc).Within (fun _ => True) (Contract.finishing trace).event :=
    Node.ofValue_within Value.domain_all trivial fun _ _ _ _ _ => trivial
  exact Node.run_meets O Value.domain_all hinc hdoc (fun _ _ => trivial) context splice

/-- By induction on the rank of the path. -/
theorem descend_finishes (hreturns : E.host.Returns) (hrefused : refused ≠ .unfinished)
    (trace : List Event) (path : String) (doc : Value) (scope : Scope) (context : Context)
    (splice : Bool) : (E.descend rank refused path doc scope context splice).Meets
      (.finishing trace) fun vs => ∀ v ∈ vs, True := by
  rw [descend]
  refine run_finishes hreturns (fun next doc scope context splice => ?_) doc scope context splice
  by_cases hnext : rank next < rank path
  · rw [dif_pos hnext]
    exact descend_finishes hreturns hrefused trace next doc scope context splice
  · rw [dif_neg hnext]
    exact .fail hrefused
termination_by rank path

theorem processDescending_finishes (hreturns : E.host.Returns) (hrefused : refused ≠ .unfinished)
    (template : Value) (scope : Scope) (s : σ) :
    (E.processDescending rank refused template scope s).result ≠ .error .unfinished := by
  let trace := (E.processDescending rank refused template scope s).events
  have hmeets : (E.processDescending rank refused template scope).Meets (.finishing trace)
      fun _ => True :=
    (run_finishes hreturns (descend_finishes hreturns hrefused trace) template scope .single
      false).bind fun _ _ => .pure trivial
  exact fun hunfinished => (hmeets s fun _ h => h).error _ hunfinished rfl

/-- A depth that exceeds the ranks of all paths that are found is enough. -/
theorem processWithin_eq_processDescending {depth : Nat} {template : Value} {scope : Scope} {s : σ}
    (hranks : ∀ filename path, .probe filename path true ∈
      (E.processDescending rank refused template scope s).events → rank path < depth)
    (h : (E.processDescending rank refused template scope s).result ≠ .error refused) :
    E.processWithin depth template scope s =
      E.processDescending rank refused template scope s := by
  let P : Event → Prop := fun e =>
    ∀ filename path, e = .probe filename path true → rank path < depth
  have C : Corresponds (sameWithin P (· ≠ refused) fun _ => true) Eq E.labelled E
      (unlabel (E.descend rank refused)) (E.includer depth) :=
    labelled_corresponds fun filename path hpath => descend_sameWithin (hpath filename path rfl)
  have hsame : SameWithin P (· ≠ refused) (fun _ => true)
      (E.processDescending rank refused template scope) (E.processWithin depth template scope) := by
    rw [processWithin_eq, emitted_eq, run_eq]
    exact (sameWithin P (· ≠ refused) fun _ => true).first
      ((Node.ofValue template).run_corresponds C rfl .single false) _
  refine sameWithin_all.mp hsame s ⟨?_, ?_⟩
  · rintro e he filename path rfl
    exact hranks filename path he
  · rintro e he rfl
    exact h he

theorem exists_rank_bound (rank : String → Nat) (events : List Event) :
    ∃ depth, ∀ filename path, .probe filename path true ∈ events → rank path < depth := by
  induction events with
  | nil => exact ⟨0, by simp⟩
  | cons e rest ih =>
    obtain ⟨depth, hdepth⟩ := ih
    cases e with
    | probe _ first _ =>
      refine ⟨max depth (rank first + 1), fun filename path h => ?_⟩
      rcases List.mem_cons.mp h with heq | hrest
      · cases heq
        omega
      · have := hdepth filename path hrest
        omega
    | _ => exact ⟨depth, by simpa using hdepth⟩

/-- **Without cycles of includes, processing ends.**  Where the paths of files have ranks such that
whatever is included while the document of a path is processed ranks below it, and the functions of
the host return, there is a depth at which the run ends with a value or an error, and at every
greater depth the run is the same. -/
theorem terminates_of_descends (hreturns : E.host.Returns) {rank : String → Nat} {template : Value}
    {scope : Scope} {s : σ} (h : E.Descends rank template scope s) :
    ∃ depth, (E.processWithin depth template scope s).result ≠ .error .unfinished ∧
      ∀ deeper, depth ≤ deeper →
        E.processWithin deeper template scope s = E.processWithin depth template scope s := by
  obtain ⟨refused, hrefused, hdescends⟩ := h
  obtain ⟨depth, hdepth⟩ :=
    exists_rank_bound rank (E.processDescending rank refused template scope s).events
  have hfinished : (E.processWithin depth template scope s).result ≠ .error .unfinished := by
    rw [processWithin_eq_processDescending hdepth hdescends]
    exact processDescending_finishes hreturns hrefused template scope s
  exact ⟨depth, hfinished, fun deeper hle => E.processWithin_deeper hle hfinished⟩

/-- A page that includes a part. -/
theorem terminates_of_descends_page :
    let E : Engine Unit := ⟨CommandLine.host, ["."], fun _ => some [], fun path _ =>
      .ok (if path = "./page" then .str ".'part'" else .int 1)⟩
    let rank : String → Nat := fun path => if path = "./page" then 1 else 0
    E.host.Returns ∧ E.Descends rank (.str ".'page'") [] () ∧
      ∃ depth, ∀ deeper, depth ≤ deeper →
        (E.processWithin deeper (.str ".'page'") [] ()).result = .ok (.int 1) := by
  intro E rank
  let refused : Failure := .fault .infiniteIndex
  have hpage : E.labelled.contents "page" = .ok (.tuple [.str "./page", .str ".'part'"]) := by
    simp [contents, found?, Files.candidates, Files.join, labelled, E]
    rfl
  have hpart : E.labelled.contents "part" = .ok (.tuple [.str "./part", .int 1]) := by
    simp [contents, found?, Files.candidates, Files.join, labelled, E]
    rfl
  have hincluded : ∀ {name : String} {doc : Value} (include_ : Includer Unit),
      '\'' ∉ name.toList → E.labelled.contents name = .ok doc →
        ((Node.ofValue (.str (".'" ++ name ++ "'"))).run E.labelled include_ [] .single false
          ()).result = (include_ doc [] .single false ()).result :=
    fun include_ hname hdoc =>
      congrArg (·.result) (E.labelled.run_including hname hdoc include_ [] .single false ())
  have hpageText : ".'page'" = ".'" ++ "page" ++ "'" := by decide
  have hpartText : ".'part'" = ".'" ++ "part" ++ "'" := by decide
  -- the part, then the page, then the template
  have hlast : E.descend rank refused "./part" (.int 1) [] .single false () =
      ⟨.ok [.int 1], [], ()⟩ := by
    rw [descend]
    rfl
  have hnext : (E.descend rank refused "./page" (.str ".'part'") [] .single false ()).result =
      .ok [.int 1] := by
    have hrank : rank "./part" < rank "./page" := by simp [rank]
    rw [descend, hpartText, hincluded _ (by decide) hpart]
    simp only [unlabel, hrank, dif_pos, hlast]
  have hvalue : (E.processDescending rank refused (.str ".'page'") [] ()).result =
      .ok (.int 1) := by
    have hrun := (hincluded (unlabel (E.descend rank refused)) (by decide) hpage).trans hnext
    rw [processDescending, hpageText, bind_apply_ok hrun]
    rfl
  have hrefused : (E.processDescending rank refused (.str ".'page'") [] ()).result ≠
      .error refused := by
    simp [hvalue]
  have hreturns : E.host.Returns := {
    call := fun _ _ _ _ h => by cases h
    send := fun _ _ _ _ _ h => by cases h
    invoke := fun _ _ _ _ _ h => by cases h }
  have hdescends : E.Descends rank (.str ".'page'") [] () := ⟨refused, by simp [refused], hrefused⟩
  have hbelow : ∀ path, rank path < 2 := by
    intro path
    simp only [rank]
    split <;> decide
  have hdeep : E.processWithin 2 (.str ".'page'") [] () =
      E.processDescending rank refused (.str ".'page'") [] () :=
    processWithin_eq_processDescending (fun _ path _ => hbelow path) hrefused
  have hfinished : (E.processWithin 2 (.str ".'page'") [] ()).result ≠ .error .unfinished := by
    simp [hdeep, hvalue]
  obtain ⟨depth, -, hsame⟩ := terminates_of_descends hreturns hdescends
  have hlevel := E.processWithin_deeper (Nat.le_max_right depth 2) hfinished
  refine ⟨hreturns, hdescends, depth, fun deeper hle => ?_⟩
  rw [hsame deeper hle, ← hsame (max depth 2) (Nat.le_max_left depth 2), hlevel, hdeep]
  exact hvalue

end Engine
end TreeTemplate
