import TreeTemplate.CommandLine
import TreeTemplate.Proofs.Template.Reading

/-! # Documents in, documents out

Every document can be written as JSON (`Document.Json.exists_write`).  Documents are a domain: a
template that is a document, run on documents, comes to one, and so does a run of the command line
(`CommandLine.documents_in_documents_out`).  No host can get in between, since nothing that a host
lends is ever reached from documents.
-/
namespace TreeTemplate

/-! ## Writing documents -/

namespace Document.Json

open Value (Scalar IsDocument)

theorem exists_name {key : Value} (h : key.Scalar) : ∃ text, name key = .ok text := by
  cases h with
  | bool b => cases b <;> exact ⟨_, rfl⟩
  | _ => exact ⟨_, rfl⟩

theorem exists_writeChars_scalar (pretty : Bool) (level : Nat) {v : Value} (h : v.Scalar) :
    ∃ cs, writeChars pretty level v = .ok cs := by
  cases h with
  | bool b => cases b <;> simp [writeChars]
  | _ => simp [writeChars]

-- Along the recursion of the writer.
mutual

theorem exists_writeChars (pretty : Bool) (level : Nat) : ∀ {v : Value}, v.IsDocument →
    ∃ cs, writeChars pretty level v = .ok cs
  | .null, h | .bool _, h | .int _, h | .float _, h | .str _, h | .bytes _, h | .moment _, h
  | .tuple _, h | .host _, h => by
    cases h with
    | scalar h => exact exists_writeChars_scalar pretty level h
  | .list items, h => by
    have hitems := Value.document_domain.list.mp h
    simpa only [writeChars] using exists_writeList pretty level hitems
  | .map [], _ => by simp [writeChars]
  | .map (entry :: rest), h => by
    obtain ⟨hentry, hrest⟩ := List.forall_mem_cons.mp (Value.document_domain.map.mp h)
    obtain ⟨cs, hcs⟩ := exists_writeMember pretty (level + 1) entry hentry.1 hentry.2
    obtain ⟨more, hmore⟩ := exists_writeMembers pretty (level + 1) hrest
    simp only [writeChars, hcs, hmore]
    exact ⟨_, rfl⟩

theorem exists_writeList (pretty : Bool) (level : Nat) : ∀ {items : List Value},
    (∀ v ∈ items, v.IsDocument) → ∃ cs, writeList pretty level items = .ok cs
  | [], _ => by simp [writeList]
  | v :: rest, h => by
    obtain ⟨hv, hrest⟩ := List.forall_mem_cons.mp h
    obtain ⟨cs, hcs⟩ := exists_writeChars pretty (level + 1) hv
    obtain ⟨more, hmore⟩ := exists_writeItems pretty (level + 1) hrest
    simp only [writeList, hcs, hmore]
    exact ⟨_, rfl⟩

theorem exists_writeItems (pretty : Bool) (level : Nat) : ∀ {items : List Value},
    (∀ v ∈ items, v.IsDocument) → ∃ cs, writeItems pretty level items = .ok cs
  | [], _ => by simp [writeItems]
  | v :: rest, h => by
    obtain ⟨hv, hrest⟩ := List.forall_mem_cons.mp h
    obtain ⟨cs, hcs⟩ := exists_writeChars pretty level hv
    obtain ⟨more, hmore⟩ := exists_writeItems pretty level hrest
    simp only [writeItems, hcs, hmore]
    exact ⟨_, rfl⟩

theorem exists_writeMember (pretty : Bool) (level : Nat) : ∀ entry : Value × Value,
    entry.1.Scalar → entry.2.IsDocument → ∃ cs, writeMember pretty level entry = .ok cs
  | (k, v), hk, hv => by
    obtain ⟨key, hkey⟩ := exists_name hk
    obtain ⟨cs, hcs⟩ := exists_writeChars pretty level hv
    simp only [writeMember, hkey, hcs]
    exact ⟨_, rfl⟩

theorem exists_writeMembers (pretty : Bool) (level : Nat) : ∀ {entries : List (Value × Value)},
    Mapping.Within IsDocument Scalar entries → ∃ cs, writeMembers pretty level entries = .ok cs
  | [], _ => by simp [writeMembers]
  | entry :: rest, h => by
    obtain ⟨hentry, hrest⟩ := List.forall_mem_cons.mp h
    obtain ⟨cs, hcs⟩ := exists_writeMember pretty level entry hentry.1 hentry.2
    obtain ⟨more, hmore⟩ := exists_writeMembers pretty level hrest
    simp only [writeMembers, hcs, hmore]
    exact ⟨_, rfl⟩

end

/-- Every document has a form in JSON. -/
theorem exists_write (pretty : Bool) {v : Value} (h : v.IsDocument) :
    ∃ text, write pretty v = .ok text := by
  obtain ⟨cs, hcs⟩ := exists_writeChars pretty 0 h
  exact ⟨String.ofList cs, by rw [write, hcs]; rfl⟩

end Document.Json

/-! ## Runs on documents -/

variable {σ α : Type}

/-- What is made of failures has the property that results have. -/
theorem Run.Meets.recover {c : Contract} {x : Run σ α} {P : α → Prop} {f : Failure → Option α}
    (hx : x.Meets c P) (hf : ∀ e a, f e = some a → P a) : (Run.recover f x).Meets c P := by
  intro s
  cases h : (x s).result with
  | ok a =>
    have heq : Run.recover f x s = ⟨.ok a, (x s).events, (x s).state⟩ := by
      simp only [Run.recover, h]
    rw [heq]
    intro hs
    obtain ⟨hevents, hok, -⟩ := hx s hs
    exact Outcome.meets_ok hevents (hok a h)
  | error e =>
    have heq : Run.recover f x s = ⟨(f e).elim (.error e) .ok, (x s).events, (x s).state⟩ := by
      simp only [Run.recover, h]
    rw [heq]
    intro hs
    obtain ⟨hevents, -, herror⟩ := hx s hs
    cases hfe : f e with
    | some a => exact Outcome.meets_ok hevents (hf e a hfe)
    | none => exact Outcome.meets_error hevents (herror e h)

namespace Engine

open Value (IsDocument)

/-- The files that an engine can include are documents. -/
def OfDocuments (E : Engine σ) : Prop :=
  ∀ path bytes doc, E.file? path = some bytes → E.decode path bytes = .ok doc → doc.IsDocument

/-- No document can be called, so any host will do. -/
theorem obeys_documents (E : Engine σ) (trace : List Event) :
    E.Obeys (.free trace) IsDocument where
  host := {
    engine := fun _ _ => trivial
    position := trivial
    apply := fun hr => absurd rfl (hr.ne_host _)
    select := fun hr => absurd rfl (hr.ne_host _) }
  search _ _ _ _ := trivial
  refused _ _ := trivial

theorem processWithin_documents {E : Engine σ} (hfiles : E.OfDocuments) {template : Value}
    (htemplate : template.IsDocument) {scope : Scope} (hs : ∀ frame ∈ scope, frame.IsDocument)
    (depth : Nat) (trace : List Event) :
    (E.processWithin depth template scope).Meets (.free trace) IsDocument := by
  refine processWithin_within (E.obeys_documents trace) Value.document_domain trivial
    (fun _ => trivial) ?_ depth htemplate hs
  rintro doc ⟨_, path, bytes, -, hfile, hdoc⟩
  exact hfiles path bytes doc hfile hdoc

theorem report_documents {E : Engine σ} (hfiles : E.OfDocuments) {template : Value}
    (htemplate : template.IsDocument) {scope : Scope} (hs : ∀ frame ∈ scope, frame.IsDocument)
    (trace : List Event) :
    (E.report template scope).Meets (.free trace) fun r => r.value.IsDocument := by
  refine .recover ?_ fun e r hr => ?_
  · exact (processWithin_documents hfiles htemplate hs includeDepth trace).bind fun v hv => .pure hv
  · unfold Report.ofFailure? at hr
    split at hr
    all_goals cases hr
    all_goals exact .scalar .null

end Engine

namespace Session

open Value (IsDocument)

theorem load_documents {disk : Files.Disk}
    (hdisk : ∀ path doc, disk.load path = .ok doc → doc.IsDocument) {template : String}
    {data : Option String} {doc value : Value} (h : load disk template data = .ok (doc, value)) :
    doc.IsDocument ∧ value.IsDocument := by
  unfold load at h
  cases hdoc : disk.load template with
  | error e =>
    rw [hdoc] at h
    cases h
  | ok found =>
    rw [hdoc] at h
    dsimp only [bind, Except.bind] at h
    split at h
    · cases h
      exact ⟨hdisk template _ hdoc, .scalar .null⟩
    · cases h
      exact ⟨hdisk template _ hdoc, .scalar .null⟩
    · rename_i path _
      cases hvalue : disk.load path with
      | error e =>
        rw [hvalue] at h
        cases h
      | ok given =>
        rw [hvalue] at h
        cases h
        exact ⟨hdisk template _ hdoc, hdisk path _ hvalue⟩

theorem ofLoadFault_value {e : Files.LoadFault} {r : Report} (h : Report.ofLoadFault e = .ok r) :
    r.value = .null := by
  unfold Report.ofLoadFault at h
  split at h
  all_goals cases h
  rfl

/-- Which folders are searched makes no difference to what an engine takes for a document. -/
theorem runFiles_documents {S : Session σ} (hfiles : S.engine.OfDocuments) {disk : Files.Disk}
    (hdisk : ∀ path doc, disk.load path = .ok doc → doc.IsDocument) {template : String}
    {data : Option String} {r : Report}
    (hr : (S.runFiles disk template data).1.result = .ok r) : r.value.IsDocument := by
  have hrun : ∀ T : Session σ, T.engine.OfDocuments → ∀ doc value : Value, doc.IsDocument →
      value.IsDocument → (T.run fun E => E.report doc [value]).1.result = .ok r →
        r.value.IsDocument := by
    intro T hT doc value hdoc hvalue hr
    have hmeets := Engine.report_documents hT hdoc
      (List.forall_mem_singleton.mpr hvalue) (T.engine.report doc [value] T.state).events
    exact (hmeets T.state fun _ h => h).ok r hr
  unfold runFiles at hr
  cases hload : load disk template data with
  | error e =>
    rw [hload] at hr
    rw [ofLoadFault_value hr]
    exact .scalar .null
  | ok loaded =>
    obtain ⟨doc, value⟩ := loaded
    obtain ⟨hdoc, hvalue⟩ := load_documents hdisk hload
    rw [hload] at hr
    dsimp only at hr
    split at hr
    · exact hrun S hfiles doc value hdoc hvalue hr
    · exact hrun (S.withPaths (_ :: _)) hfiles doc value hdoc hvalue hr

end Session

namespace CommandLine

open Value (IsDocument)

/-- All files around the program are documents, those that a command line names and those that are
included. -/
structure Surroundings.OfDocuments (env : Surroundings) : Prop where
  named {path : String} {doc : Value} (h : env.disk.load path = .ok doc) : doc.IsDocument
  included {path : String} {bytes : List UInt8} {doc : Value}
    (hfile : env.disk.loader env.home path = some bytes)
    (hdoc : Document.readAt path bytes = .ok doc) : doc.IsDocument

/-- What a command line comes to before anything is printed. -/
def reported (env : Surroundings) (args : Arguments) : Shown Report :=
  let session : Session Unit :=
    ⟨engine host env (defaultPaths env.includePath ++ args.includePaths), ()⟩
  (session.runFiles env.disk (args.files.headD "") args.files[1]?).1

theorem ok_of_mapError {ε ε' : Type} {f : ε → ε'} {x : Except ε α} {a : α}
    (h : x.mapError f = .ok a) : x = .ok a := by
  cases x with
  | error e => cases h
  | ok b =>
    cases h
    rfl

theorem run_of_read {env : Surroundings} {words : List String} {args : Arguments}
    (h : read words = .ok args) {r : Report} (hr : (reported env args).result = .ok r) :
    (run env words).result =
      (print args.format (traceText env (reported env args).events) r).mapError .fault := by
  unfold reported at hr
  simp only [run, h, hr]
  rfl

theorem exists_print {r : Report} (h : r.value.IsDocument) (trace : String) :
    ∃ out, print .json trace r = .ok out := by
  unfold print
  cases r.error with
  | some e => exact ⟨_, rfl⟩
  | none =>
    obtain ⟨text, htext⟩ := Document.Json.exists_write true h
    refine ⟨⟨endLine text, trace, 0⟩, ?_⟩
    have hname : Document.Format.ofName? (Document.Format.json.name.map Char.toLower) =
        some .json := by decide +kernel
    simp only [Document.write, hname, htext]
    rfl

/-- **Documents in, documents out.**  Whenever a template that is a document is processed with
documents for data and for files, and with includes nested up to any depth (that of `process` among
them), the value is a document;
and since every document has a form in JSON, whatever a command line comes to can be printed. -/
theorem documents_in_documents_out :
    (∀ E : Engine σ, E.OfDocuments → ∀ template : Value, template.IsDocument →
      ∀ scope : Scope, (∀ frame ∈ scope, frame.IsDocument) → ∀ depth s v,
        (E.processWithin depth template scope s).result = .ok v → v.IsDocument) ∧
    (∀ v : Value, v.IsDocument → ∀ pretty, ∃ text, Document.Json.write pretty v = .ok text) ∧
    ∀ env : Surroundings, env.OfDocuments → ∀ words args, read words = .ok args →
      ∀ r, (reported env args).result = .ok r → r.value.IsDocument ∧
        (args.format = .json → ∃ out, (run env words).result = .ok out) := by
  refine ⟨fun E hfiles template htemplate scope hs depth s v hv => ?_,
    fun v hv pretty => Document.Json.exists_write pretty hv,
    fun env henv words args hread r hr => ?_⟩
  · exact (Engine.processWithin_documents hfiles htemplate hs depth _ s fun _ h => h).ok v hv
  · have hvalue : r.value.IsDocument := by
      refine Session.runFiles_documents ?_ (fun path doc hdoc => henv.named hdoc) hr
      intro path bytes doc hfile hdoc
      refine henv.included hfile ?_
      exact ok_of_mapError hdoc
    refine ⟨hvalue, fun hjson => ?_⟩
    obtain ⟨out, hout⟩ := exists_print hvalue (traceText env (reported env args).events)
    refine ⟨out, ?_⟩
    rw [run_of_read hread hr, hjson, hout]
    rfl

/-- A list that is selected, and a page that is an empty file. -/
theorem documents_in_documents_out_list :
    let E : Engine Unit := ⟨host, ["."], fun _ => some [], fun _ _ => .ok (.list [.int 1])⟩
    let scope : Scope := [.map [(.str "x", .list [.null])]]
    let env : Surroundings := { disk := fun _ => .file [] }
    (E.OfDocuments ∧ (E.processWithin 1 (.str "&x") scope ()).result = .ok (.list [.null]) ∧
      (Value.list [.null]).IsDocument) ∧
    env.OfDocuments ∧ ∃ out, (run env ["page"]).result = .ok out := by
  intro E scope env
  have hfiles : E.OfDocuments := by
    rintro path bytes doc - hdoc
    cases hdoc
    exact .list (by simp [Value.document_domain.int])
  have hresult : (E.processWithin 1 (.str "&x") scope ()).result = .ok (.list [.null]) := by
    have hx : Expr.parse? "x" = some (.named ['x']) := by cbv
    have hread : Node.ofValue (.str "&x") = .leaf "&x" (.direct false "x") := rfl
    simp only [Engine.processWithin, Engine.emitted, Engine.read, bind_assoc, pure_bind, hread,
      Engine.run_succ, Node.run, Engine.leafDirective?, Engine.leaf, Engine.evaluate,
      Expr.evaluate, hx]
    rfl
  have hempty : ∀ path doc, Document.readAt path [] = .ok doc → doc.IsDocument := by
    intro path doc hdoc
    have hread : Document.readAt path [] =
        Document.readAs ((Document.Format.detect (some path) (some [])).getD .yaml) [] := rfl
    rw [hread] at hdoc
    generalize (Document.Format.detect (some path) (some [])).getD .yaml = format at hdoc
    cases format with
    | json => cases hdoc
    | yaml =>
      cases hdoc
      exact .scalar .null
    | toml =>
      cases hdoc
      show (Value.map []).IsDocument
      exact .map (by simp) (by simp)
  have henv : env.OfDocuments := by
    refine ⟨fun {path doc} h => ?_, fun {path bytes doc} hfile hdoc => ?_⟩
    · simp only [Files.Disk.load, env] at h
      exact hempty _ doc (ok_of_mapError h)
    · cases hfile
      exact hempty path doc hdoc
  have hscope : ∀ frame ∈ scope, frame.IsDocument := by
    refine List.forall_mem_singleton.mpr (.map (by simp [Value.Scalar.str]) ?_)
    exact List.forall_mem_singleton.mpr (.list (by simp [Value.document_domain.null]))
  have hreported : (reported env { files := ["page"] }).result = .ok { value := .null } := by
    rfl
  obtain ⟨hprocess, -, hline⟩ := documents_in_documents_out (σ := Unit)
  refine ⟨⟨hfiles, hresult, ?_⟩, henv, ?_⟩
  · exact hprocess E hfiles (.str "&x") (.scalar (.str _)) scope hscope 1 () _ hresult
  · exact (hline env henv ["page"] { files := ["page"] } rfl { value := .null } hreported).2 rfl

end CommandLine
end TreeTemplate
