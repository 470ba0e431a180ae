import TreeTemplate.CommandLine
import TreeTemplate.Proofs.Template.Emission
import TreeTemplate.Proofs.Template.Reading

/-! # Search paths of a session

While a template from a file runs, its folder is searched besides the paths of the session
(`Session.searching`), and afterwards the session has the paths it had, however the run ended
(`Session.runFiles_of_ok`).  So a session that runs many files never forgets or gains a path
(`Session.search_paths_survive`).

A folder that is one of the paths of the session already keeps its place among them.  The files
beside a template are found first if it is no such folder, and otherwise only if no earlier path
has a file of that name (`Session.own_folder_first`, `Session.configured_folder_keeps_its_place`).
-/
namespace TreeTemplate.Session

variable {σ : Type} (S : Session σ)

/-! ## One run -/

/-- The session while a template of a folder runs. -/
def searching (folder : String) : Session σ :=
  if S.engine.includePaths.contains folder then S
  else S.withPaths (folder :: S.engine.includePaths)

section
variable {disk : Files.Disk} {template : String} {data : Option String}

theorem runFiles_of_error {e : Files.LoadFault} (h : load disk template data = .error e) :
    S.runFiles disk template data = (⟨Report.ofLoadFault e, []⟩, S) := by
  rw [runFiles, h]

/-- A run of loaded documents changes the state of the host and nothing else. -/
theorem runFiles_of_ok {doc value : Value} (h : load disk template data = .ok (doc, value)) :
    S.runFiles disk template data =
      (((S.searching (Files.folder template)).run fun E => E.report doc [value]).1,
        ⟨S.engine, ((S.searching (Files.folder template)).run fun E =>
          E.report doc [value]).2.state⟩) := by
  rw [runFiles, h]
  by_cases hc : S.engine.includePaths.contains (Files.folder template) = true
  · simp only [searching, hc, if_true]
    rfl
  · simp only [searching, hc]
    simp [run, withPaths]

theorem engine_runFiles : (S.runFiles disk template data).2.engine = S.engine := by
  cases h : load disk template data with
  | error e => rw [S.runFiles_of_error h]
  | ok docs => rw [S.runFiles_of_ok h]

end

/-! ## Many runs -/

/-- A template to be run from a file with the data of another one, and the disk at that time. -/
structure FileRun where
  disk : Files.Disk
  template : String
  data : Option String

/-- What a run of files shows, and the session after it. -/
def runFile (r : FileRun) : Shown Report × Session σ := S.runFiles r.disk r.template r.data

/-- The session after a row of runs, whatever each of them ends with. -/
def after (runs : List FileRun) : Session σ := runs.foldl (fun T r => (T.runFile r).2) S

/-- By induction on the runs: none of them changes the engine. -/
theorem engine_after (runs : List FileRun) : (S.after runs).engine = S.engine := by
  induction runs generalizing S with
  | nil => rfl
  | cons r rest ih =>
    show ((S.runFile r).2.after rest).engine = S.engine
    rw [ih, runFile, engine_runFiles]

/-- **Search paths survive every run.**  After any row of runs the session searches the same paths
in the same order, and the next run shows and leaves what it would in a session that never ran
anything, with the host as it stands. -/
theorem search_paths_survive (runs : List FileRun) :
    (S.after runs).engine.includePaths = S.engine.includePaths ∧
    ∀ next : FileRun,
      (S.after runs).runFile next = (Session.mk S.engine (S.after runs).state).runFile next := by
  have hengine := S.engine_after runs
  refine ⟨by rw [hengine], fun next => ?_⟩
  rw [← hengine]

/-! ## The folder of a template -/

@[simp] theorem file?_searching (folder : String) :
    (S.searching folder).engine.file? = S.engine.file? := by
  unfold searching
  split <;> rfl

@[simp] theorem decode_searching (folder : String) :
    (S.searching folder).engine.decode = S.engine.decode := by
  unfold searching
  split <;> rfl

/-- The template's folder is searched before the paths of the session, or in its place among
them. -/
theorem found?_searching {folder filename : String} {bytes : List UInt8}
    (hfile : S.engine.file? (Files.join folder filename) = some bytes)
    (hfirst : folder ∈ S.engine.includePaths →
      ∀ path ∈ S.engine.includePaths.takeWhile (· ≠ folder),
        S.engine.file? (Files.join path filename) = none) :
    (S.searching folder).engine.found? filename = some (Files.join folder filename) := by
  have hown : (S.engine.file? (Files.join folder filename)).isSome = true := by
    rw [hfile]
    rfl
  rw [Engine.found?, file?_searching]
  by_cases hc : folder ∈ S.engine.includePaths
  · have hpaths : S.searching folder = S := if_pos (List.contains_iff_mem.mpr hc)
    rw [hpaths]
    refine Files.find?_candidates hc hown fun path hpath => ?_
    rw [hfirst hc path hpath]
    rfl
  · have hpaths : S.searching folder = S.withPaths (folder :: S.engine.includePaths) :=
      if_neg (by simpa using hc)
    rw [hpaths]
    exact List.find?_cons_of_pos hown

/-- A report is made of a run once it is over. -/
theorem events_report (E : Engine σ) (template : Value) (scope : Scope) (s : σ) :
    (E.report template scope s).events = (E.process template scope s).events := by
  unfold Engine.report Run.recover
  rw [Run.map_apply]
  cases (E.process template scope s).result <;> rfl

/-- Every search of a run for a file comes to the same file: no text of a template is a search. -/
theorem probes_of_found? (E : Engine σ) {filename own : String}
    (hfound : E.found? filename = some own) (template : Value) (scope : Scope) (s : σ)
    {path : String} {found : Bool}
    (h : .probe filename path found ∈ (E.process template scope s).events) :
    (found = true → path = own) ∧
      .probe filename own true ∈ (E.process template scope s).events := by
  refine Engine.of_mem_events (P := fun e => ∀ path found, e = .probe filename path found →
    (found = true → path = own) ∧ .probe filename own true ∈ (E.process template scope s).events)
    (fun call path found he => by cases he) (fun name hsub e hmem path found he => ?_)
    (fun doc _ place source _ e hsaid path found he => ?_) _ h path found rfl
  · subst he
    obtain ⟨_, _, he, hpath⟩ := Files.eq_probe_of_mem hmem
    cases he
    refine ⟨fun htrue => ?_, hsub (Files.probe_mem_probes hfound)⟩
    exact Option.some.inj ((hpath htrue).symm.trans hfound)
  · subst he
    exact hsaid.elim

/-- **The files beside a template are found first**, if its folder is no path of the session, or no
path of the session before it has a file of that name.  Then an include of the file, wherever it
stands, comes to the document beside the template, and so does every search that the run reports. -/
theorem own_folder_first (disk : Files.Disk) (template : String) (data : Option String)
    (filename : String) {bytes : List UInt8}
    (hfile : S.engine.file? (Files.join (Files.folder template) filename) = some bytes)
    (hfirst : Files.folder template ∈ S.engine.includePaths →
      ∀ path ∈ S.engine.includePaths.takeWhile (· ≠ Files.folder template),
        S.engine.file? (Files.join path filename) = none) :
    let own := Files.join (Files.folder template) filename
    let inner := (S.searching (Files.folder template)).engine
    (∀ scope clause s, (inner.insert scope clause s).result = .ok filename →
      (inner.document scope clause s).result = (S.engine.decode own bytes).mapError fun detail =>
        .engine (.includeDecode own detail) none) ∧
    ∀ path found, .probe filename path found ∈ (S.runFiles disk template data).1.events →
      (found = true → path = own) ∧
      .probe filename own true ∈ (S.runFiles disk template data).1.events := by
  intro own inner
  have hfound : inner.found? filename = some own := S.found?_searching hfile hfirst
  have hbytes : inner.file? own = some bytes := by rw [S.file?_searching, hfile]
  refine ⟨fun scope clause s hname => ?_, fun path found hprobe => ?_⟩
  · rw [Engine.document_apply hname]
    show inner.contents filename = _
    simp only [Engine.contents, hfound, hbytes, Option.getD_some, inner, decode_searching]
  · cases hload : load disk template data with
    | error e =>
      rw [S.runFiles_of_error hload] at hprobe
      cases hprobe
    | ok docs =>
      have hevents : (S.runFiles disk template data).1.events =
          (inner.process docs.1 [docs.2] (S.searching (Files.folder template)).state).events := by
        rw [S.runFiles_of_ok hload]
        exact events_report _ _ _ _
      rw [hevents] at hprobe ⊢
      exact probes_of_found? inner hfound _ _ _ hprobe

/-! ## A folder that is a path already -/

/-- A folder with a template that includes `x`, and another folder with an `x` of its own. -/
def twoFolders : Files.Disk
  | "sub/t.json" => .file [34, 46, 39, 120, 39, 34]
  | "sub/x" => .file [50]
  | "lib/x" => .file [49]
  | "sub/y" => .file [50]
  | _ => .missing

/-- A session that searches both folders, the one of the template last. -/
def libFirst : Session Unit :=
  ⟨CommandLine.engine CommandLine.host { disk := twoFolders } ["lib", "sub"], ()⟩

/-- A file that no path before the template's folder has is found in that folder. -/
theorem own_folder_first_unrivalled :
    let inner := (libFirst.searching (Files.folder "sub/t.json")).engine
    Files.folder "sub/t.json" = "sub" ∧ "sub" ∈ libFirst.engine.includePaths ∧
    ∀ scope clause s, (inner.insert scope clause s).result = .ok "y" →
      (inner.document scope clause s).result = .ok (.int 2) := by
  intro inner
  have hfolder : Files.folder "sub/t.json" = "sub" := by decide +kernel
  have hown : Files.join "sub" "y" = "sub/y" := by decide +kernel
  have hother : Files.join "lib" "y" = "lib/y" := by decide +kernel
  have hyes : libFirst.engine.file? "sub/y" = some [50] := by cbv
  have hno : libFirst.engine.file? "lib/y" = none := by cbv
  have hpaths : libFirst.engine.includePaths.takeWhile (· ≠ "sub") = ["lib"] := by decide +kernel
  have hdecode : libFirst.engine.decode "sub/y" [50] = .ok (.int 2) := rfl
  obtain ⟨hinclude, -⟩ := libFirst.own_folder_first twoFolders "sub/t.json" none "y"
    (by rw [hfolder, hown, hyes])
    (fun _ => by rw [hfolder, hpaths, List.forall_mem_singleton, hother, hno])
  refine ⟨hfolder, by decide +kernel, fun scope clause s hname => ?_⟩
  rw [hinclude scope clause s hname, hfolder, hown, hdecode]
  rfl

/-- A file that an earlier path has as well is not found in the template's folder: the folder is
one of the paths of the session, so it is not put before them. -/
theorem configured_folder_keeps_its_place :
    Files.folder "sub/t.json" = "sub" ∧
    (libFirst.engine.file? (Files.join "sub" "x")).isSome = true ∧
    (libFirst.runFiles twoFolders "sub/t.json" none).1 =
      ⟨.ok (.success (.int 1)), [.directive .include ".'x'", .clause "'x'",
        .probe "x" "lib/x" true]⟩ := by
  have hfolder : Files.folder "sub/t.json" = "sub" := by decide +kernel
  have hown : Files.join "sub" "x" = "sub/x" := by decide +kernel
  have hother : Files.join "lib" "x" = "lib/x" := by decide +kernel
  have hyes : libFirst.engine.file? "sub/x" = some [50] := by cbv
  have hlib : libFirst.engine.file? "lib/x" = some [49] := by cbv
  have hload : load twoFolders "sub/t.json" none = .ok (.str ".'x'", .null) := by
    have hplace : Files.normalize "sub/t.json" = "sub/t.json" := by decide +kernel
    have hbytes : twoFolders "sub/t.json" = .file [34, 46, 39, 120, 39, 34] := rfl
    have hread : Document.readAt "sub/t.json" [34, 46, 39, 120, 39, 34] = .ok (.str ".'x'") := rfl
    simp only [load, Files.Disk.load, hplace, hbytes, hread]
    rfl
  have hparse : Expr.parse? "'x'" = some (.literal (.str "x")) := by cbv
  have hsearching : libFirst.searching "sub" = libFirst := if_pos (by decide +kernel)
  refine ⟨hfolder, by rw [hown, hyes]; rfl, ?_⟩
  have hdoc : libFirst.engine.document [.null] "'x'" () =
      ⟨.ok (.int 1), [.clause "'x'", .probe "x" "lib/x" true], ()⟩ := by
    have hinsert : libFirst.engine.insert [.null] "'x'" () = ⟨.ok "x", [.clause "'x'"], ()⟩ := by
      simp only [Engine.insert, Engine.evaluate, Expr.evaluate, hparse]
      rfl
    have hpaths : libFirst.engine.includePaths = ["lib", "sub"] := rfl
    have hprobes : libFirst.engine.probes "x" = [.probe "x" "lib/x" true] := by
      simp [Engine.probes, Files.probes, Files.candidates, hpaths, hother, hlib]
    have hcontents : libFirst.engine.contents "x" = .ok (.int 1) := by
      simp only [Engine.contents, Engine.found?, Files.candidates, hpaths, List.map_cons, hother,
        List.find?_cons, hlib, Option.isSome_some, Option.getD_some]
      rfl
    rw [Engine.document_apply (by rw [hinsert]), hinsert, hprobes, hcontents]
    rfl
  have hvalue : ∀ depth s, libFirst.engine.emitted depth (.int 1) [.null] .single false s =
      ⟨.ok [.int 1], [], s⟩ := by
    intro depth s
    rw [Engine.emitted_eq]
    cases depth <;> rfl
  have hemitted : libFirst.engine.emitted Engine.includeDepth (.str ".'x'") [.null] .single false
      () = ⟨.ok [.int 1],
        [.directive .include ".'x'", .clause "'x'", .probe "x" "lib/x" true], ()⟩ := by
    have hread : Node.ofValue (.str ".'x'") = .leaf ".'x'" (.include false "'x'") := rfl
    rw [Engine.emitted_eq, hread, show Engine.includeDepth = 399 + 1 from rfl, Engine.run_succ]
    simp only [Node.run, Engine.leafDirective?, Engine.leaf, Run.bind_def, Run.bind, Run.emit, hdoc,
      Bool.or_false, hvalue]
    rfl
  have hprocess : libFirst.engine.process (.str ".'x'") [.null] () =
      ⟨.ok (.int 1), [.directive .include ".'x'", .clause "'x'", .probe "x" "lib/x" true], ()⟩ := by
    simp only [Engine.process, Engine.processWithin, Run.bind_def, Run.bind, hemitted]
    rfl
  have hreport : libFirst.engine.report (.str ".'x'") [.null] () = ⟨.ok (.success (.int 1)),
      [.directive .include ".'x'", .clause "'x'", .probe "x" "lib/x" true], ()⟩ := by
    simp only [Engine.report, Run.recover, Run.map_apply, hprocess, Except.map]
  rw [libFirst.runFiles_of_ok hload, hfolder, hsearching]
  exact congrArg (fun o => (⟨o.result, o.events⟩ : Shown Report)) hreport

end TreeTemplate.Session
