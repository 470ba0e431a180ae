import TreeTemplate.Host.Library
import TreeTemplate.Proofs.Expr.ParserGrammar
import TreeTemplate.Proofs.Template.Conduct
import TreeTemplate.Proofs.Template.Depth
import TreeTemplate.Proofs.Template.ReadAlike

/-! # Documents in the place of their includes

A text that includes a file by its name stands for the document in the file.  Where the document is
a list or a mapping, it may be written in the place of the text (`Engine.Inlined`), and nothing
changes but the search for the file, which is no call into the host, and the depth to which
includes are nested (`Engine.include_transparency`).
-/
namespace TreeTemplate

variable {σ α : Type}

/-- Nothing matters of what is not looked at. -/
theorem Run.sameOnceFinished_congr {seen : Event → Bool} {x x' y y' : Run σ α}
    (hx : ∀ s, (x' s).only seen = (x s).only seen) (hy : ∀ s, (y' s).only seen = (y s).only seen)
    (h : (sameOnceFinished seen).rel x y) : (sameOnceFinished seen).rel x' y' := by
  intro s hs
  have hresult : (x' s).result = (x s).result := congrArg (fun q => q.result) (hx s)
  rw [hx, hy]
  exact h s ⟨fun _ _ => trivial, fun e he => hs.failure e (hresult.trans he)⟩

/-! ## Templates with documents written out -/

namespace Engine

variable (E : Engine σ)

/-- A text that includes a file by its name, and the list or mapping that is in the file. -/
inductive Includes : Value → Value → Prop
  | mk {name : String} {doc : Value} (hname : '\'' ∉ name.toList)
    (hdoc : E.contents name = .ok doc)
    (hcontainer : doc.items?.isSome = true ∨ doc.entries?.isSome = true) :
    Includes (.str (".'" ++ name ++ "'")) doc

mutual

/-- The same template with some documents written out where they were included: as the template,
as an item of a list or as a value of a mapping. -/
inductive Inlined : Value → Value → Prop
  | same (v : Value) : Inlined v v
  | document {v doc : Value} (h : E.Includes v doc) : Inlined v doc
  | list {items others : List Value} (h : ItemsInlined items others) :
    Inlined (.list items) (.list others)
  | tuple {items others : List Value} (h : ItemsInlined items others) :
    Inlined (.tuple items) (.tuple others)
  | map {entries others : List (Value × Value)} (h : EntriesInlined entries others) :
    Inlined (.map entries) (.map others)

/-- The same items, with documents written out in them. -/
inductive ItemsInlined : List Value → List Value → Prop
  | nil : ItemsInlined [] []
  | cons {v w : Value} {items others : List Value} (h : Inlined v w)
    (hrest : ItemsInlined items others) : ItemsInlined (v :: items) (w :: others)

/-- The same entries, with documents written out in the values.  What stands under a key that asks
for a switch is no document. -/
inductive EntriesInlined : List (Value × Value) → List (Value × Value) → Prop
  | nil : EntriesInlined [] []
  | value {key v w : Value} {entries others : List (Value × Value)} (hk : ¬key.AsksSwitch)
    (h : Inlined v w) (hrest : EntriesInlined entries others) :
    EntriesInlined ((key, v) :: entries) ((key, w) :: others)
  | switch {key v w : Value} {entries others : List (Value × Value)} (hk : key.AsksSwitch)
    (h : SwitchInlined v w) (hrest : EntriesInlined entries others) :
    EntriesInlined ((key, v) :: entries) ((key, w) :: others)

/-- The same value under a key that asks for a switch, with documents written out below it. -/
inductive SwitchInlined : Value → Value → Prop
  | same (v : Value) : SwitchInlined v v
  | list {items others : List Value} (h : ItemsInlined items others) :
    SwitchInlined (.list items) (.list others)
  | tuple {items others : List Value} (h : ItemsInlined items others) :
    SwitchInlined (.tuple items) (.tuple others)
  | cases {entries others : List (Value × Value)} (h : CasesInlined entries others) :
    SwitchInlined (.map entries) (.map others)

/-- The same cases, with documents written out in them. -/
inductive CasesInlined : List (Value × Value) → List (Value × Value) → Prop
  | nil : CasesInlined [] []
  | cons (key : Value) {v w : Value} {entries others : List (Value × Value)} (h : Inlined v w)
    (hrest : CasesInlined entries others) :
    CasesInlined ((key, v) :: entries) ((key, w) :: others)

end

/-! ## The text of an include -/

/-- A name in quotes is an expression for the name. -/
theorem parse_quoted {name : String} (hname : '\'' ∉ name.toList) :
    Expr.parse? ("'" ++ name ++ "'") = some (.literal (.str name)) := by
  have htext : ("'" ++ name ++ "'").toList =
      [] ++ (('\'' :: (name.toList ++ ['\''])) ++ ([] ++ [])) := by
    simp
  have hchain : Expr.Grammar.Chain ("'" ++ name ++ "'").toList (.literal (.str name)) := by
    have hquoted : Expr.Grammar.Alternative ('\'' :: (name.toList ++ ['\'']))
        (Expr.ofQuoted name.toList) := .string (.mk (by decide) hname)
    have hblank : Expr.Grammar.Blank [] := by simp [Expr.Grammar.Blank]
    have h := Expr.Grammar.Chain.steps hblank hquoted .nil hblank
    rw [htext]
    simpa [Expr.ofQuoted, Expr.ofChain] using h
  exact Expr.parse?_eq_some_iff.mpr hchain

/-- The name of an included file is inserted as it is. -/
theorem insert_quoted {name : String} (hname : '\'' ∉ name.toList) (scope : Scope) (s : σ) :
    E.insert scope ("'" ++ name ++ "'") s = ⟨.ok name, [.clause ("'" ++ name ++ "'")], s⟩ := by
  simp only [insert, evaluate, Expr.evaluate, parse_quoted hname]
  rfl

/-- A file that is included by its name is searched for at once. -/
theorem document_quoted {name : String} (hname : '\'' ∉ name.toList) (scope : Scope) :
    E.document scope ("'" ++ name ++ "'") = (do
      Run.emitAll (.clause ("'" ++ name ++ "'") :: E.probes name)
      Run.ofExcept (E.contents name)) := by
  funext s
  have hdocument : E.document scope ("'" ++ name ++ "'") s = _ :=
    document_apply (congrArg (·.result) (E.insert_quoted hname scope s))
  rw [hdocument, E.insert_quoted hname scope s, Run.bind_apply_ok rfl]
  simp [Run.emitAll, Run.ofExcept]

theorem ofValue_including (name : String) : Node.ofValue (.str (".'" ++ name ++ "'")) =
    .leaf (".'" ++ name ++ "'") (.include false ("'" ++ name ++ "'")) := by
  have htext : (".'" ++ name ++ "'").toList = '.' :: '\'' :: (name.toList ++ ['\'']) := by simp
  have hclause : Leaf.strippedClause ('\'' :: (name.toList ++ ['\''])) = "'" ++ name ++ "'" := by
    have hblank : Text.isBlank '\'' = false := by decide
    rw [Leaf.strippedClause, Inline.skipBlanks, List.dropWhile_cons_of_neg (by simp [hblank])]
    exact String.toList_inj.mp (by simp)
  have hdash : Leaf.splitDash ('\'' :: (name.toList ++ ['\''])) =
      (false, '\'' :: (name.toList ++ ['\''])) := rfl
  simp only [Node.ofValue, Node.ofText, htext, Leaf.ofChars, hdash, hclause]

/-- The events of an include before those of the document are no calls. -/
theorem run_including {name : String} {doc : Value} (hname : '\'' ∉ name.toList)
    (hdoc : E.contents name = .ok doc) (include_ : Includer σ) (scope : Scope) (context : Context)
    (splice : Bool) (s : σ) :
    ((Node.ofValue (.str (".'" ++ name ++ "'"))).run E include_ scope context splice s).only
      Event.isCall = (include_ doc scope context splice s).only Event.isCall := by
  have hprobes : (E.probes name).filter Event.isCall = [] := by
    refine List.filter_eq_nil_iff.mpr fun e he => ?_
    obtain ⟨path, found, rfl, -⟩ := Files.eq_probe_of_mem he
    simp [Event.isCall]
  have hfound : Run.ofExcept (.ok doc) = (pure doc : Run σ Value) := rfl
  have hemit : ∀ (e : Event) (f : Run σ (List Value)), (Run.emit e >>= fun _ => f) s =
      ⟨(f s).result, e :: (f s).events, (f s).state⟩ := fun _ _ => rfl
  have hemitAll : ∀ (events : List Event) (f : Run σ (List Value)),
      (Run.emitAll events >>= fun _ => f) s =
        ⟨(f s).result, events ++ (f s).events, (f s).state⟩ := fun _ _ => rfl
  rw [ofValue_including]
  simp only [Node.run, leafDirective?, leaf, Bool.or_false, E.document_quoted hname, hdoc, hfound,
    bind_assoc, pure_bind]
  rw [hemit, hemitAll]
  simp [Outcome.only, hprobes, Event.isCall]

end Engine

/-! ## Nodes with documents written out -/

namespace Node

section
variable {E : Engine σ} {M : Congruence}
  (hdocument : ∀ {v doc : Value}, E.Includes v doc → M.rel (ofValue v) (ofValue doc))
include hdocument

theorem readAlike_of_includes {v doc : Value} (h : E.Includes v doc) : M.ReadAlike v doc := by
  have hrel := hdocument h
  cases h with
  | mk hname hdoc hcontainer =>
    refine .unmarked ?_ ?_ hrel
    · simp [Value.Unmarked]
    · cases doc with
      | str s => simp [Value.items?, Value.entries?] at hcontainer
      | _ => trivial

-- Along the recursion of the template.
set_option linter.unusedSectionVars false in
mutual

/-- Templates are read alike when documents are related to the texts that include them. -/
theorem readAlike_of_inlined : ∀ (v : Value) {w : Value}, E.Inlined v w → M.ReadAlike v w
  | .str s, _, h => by
    cases h with
    | same => exact .refl _
    | document h => exact readAlike_of_includes hdocument h
  | .list items, _, h => by
    cases h with
    | same => exact .refl _
    | document h => cases h
    | list h => exact .unmarked trivial trivial (Congruence.ofItems (readAlike_of_items items h))
  | .tuple items, _, h => by
    cases h with
    | same => exact .refl _
    | document h => cases h
    | tuple h => exact .unmarked trivial trivial (Congruence.ofItems (readAlike_of_items items h))
  | .map entries, _, h => by
    cases h with
    | same => exact .refl _
    | document h => cases h
    | map h =>
      exact .unmarked trivial trivial (Congruence.ofMap (entriesAlike_of_inlined entries h))
  | .null, _, h | .bool _, _, h | .int _, _, h | .float _, _, h | .bytes _, _, h
  | .moment _, _, h | .host _, _, h => by
    cases h with
    | same => exact .refl _
    | document h => cases h

theorem readAlike_of_items : ∀ (items : List Value) {others : List Value},
    E.ItemsInlined items others → List.Forall₂ M.ReadAlike items others
  | [], _, h => by
    cases h
    exact .nil
  | v :: rest, _, h => by
    cases h with
    | cons h hrest => exact .cons (readAlike_of_inlined v h) (readAlike_of_items rest hrest)

theorem entriesAlike_of_inlined : ∀ (entries : List (Value × Value))
    {others : List (Value × Value)}, E.EntriesInlined entries others →
    List.Forall₂ M.EntryAlike entries others
  | [], _, h => by
    cases h
    exact .nil
  | (key, v) :: rest, _, h => by
    cases h with
    | value hk h hrest =>
      exact .cons (.value hk (readAlike_of_inlined v h)) (entriesAlike_of_inlined rest hrest)
    | switch hk h hrest =>
      refine .cons ?_ (entriesAlike_of_inlined rest hrest)
      cases key with
      | str s => exact .switch hk fun clause => rel_of_switchInlined s clause v h
      | _ => exact hk.elim

theorem rel_of_switchInlined (key clause : String) : ∀ (v : Value) {w : Value},
    E.SwitchInlined v w → M.rel (ofSwitch key clause v) (ofSwitch key clause w)
  | .map cases, _, h => by
    cases h with
    | same => exact M.refl _
    | cases h => exact Congruence.ofSwitch key clause (casesAlike_of_inlined cases h)
  | .list _, _, h | .tuple _, _, h | .null, _, h | .bool _, _, h | .int _, _, h | .float _, _, h
  | .str _, _, h | .bytes _, _, h | .moment _, _, h | .host _, _, h => by
    cases h <;> exact M.refl _

theorem casesAlike_of_inlined : ∀ (cases : List (Value × Value)) {others : List (Value × Value)},
    E.CasesInlined cases others →
    List.Forall₂ (fun c d => c.1 = d.1 ∧ M.rel (ofValue c.2) (ofValue d.2)) cases others
  | [], _, h => by
    cases h
    exact .nil
  | (_, v) :: rest, _, h => by
    cases h with
    | cons _ h hrest =>
      exact .cons ⟨rfl, (readAlike_of_inlined v h).rel⟩ (casesAlike_of_inlined rest hrest)

end

end

end Node

/-! ## Processing -/

namespace Engine

open Run

variable (E : Engine σ) {template inlined : Value}

/-- A document that is written out is run one level less deep. -/
theorem emitted_inlined (h : E.Inlined template inlined) (depth : Nat) (scope : Scope)
    (context : Context) (splice : Bool) :
    (sameOnceFinished Event.isCall).rel (E.emitted depth template scope context splice)
      (E.emitted depth inlined scope context splice) := by
  have C : Corresponds (sameOnceFinished Event.isCall) Eq E E (E.includer depth)
    (E.includer depth) := E.corresponds fun _ _ _ _ => Congruence.refl _ _
  have hdocument : ∀ {v doc : Value}, E.Includes v doc →
      (Node.alike C).rel (Node.ofValue v) (Node.ofValue doc) := by
    rintro _ doc ⟨hname, hdoc, -⟩ scope _ rfl context splice
    have hdeeper := E.includer_deeper Event.isCall depth doc scope context splice
    rw [includer_succ] at hdeeper
    exact sameOnceFinished_congr (E.run_including hname hdoc _ scope context splice)
      (fun _ => rfl) hdeeper
  rw [emitted_eq, emitted_eq, run_eq, run_eq]
  exact (Node.readAlike_of_inlined hdocument template h).rel rfl context splice

/-- With includes nested one level deeper, a document that is included is run as deeply as one that
is written out. -/
theorem emitted_of_inlined (h : E.Inlined template inlined) (depth : Nat) (scope : Scope)
    (context : Context) (splice : Bool) :
    (sameOnceFinished Event.isCall).rel (E.emitted depth inlined scope context splice)
      (E.emitted (depth + 1) template scope context splice) := by
  have C : Corresponds (sameOnceFinished Event.isCall) Eq E E (E.includer depth)
    (E.includer (depth + 1)) := E.corresponds (E.includer_deeper Event.isCall depth)
  have hdocument : ∀ {v doc : Value}, E.Includes v doc →
      (Node.alike C).flip.rel (Node.ofValue v) (Node.ofValue doc) := by
    rintro _ doc ⟨hname, hdoc, -⟩ scope _ rfl context splice
    refine sameOnceFinished_congr (fun _ => rfl)
      (E.run_including hname hdoc _ scope context splice) ?_
    rw [includer_succ]
    exact Congruence.refl _ _
  rw [emitted_eq, emitted_eq, run_eq, run_eq]
  exact (Node.readAlike_of_inlined hdocument template h).rel rfl context splice

/-- **A document may be written in the place of its include.**  Where texts include lists and
mappings by the names of their files, a template with these written out comes to the same value or
the same error, calls the host alike and leaves it in the same state: at any depth that is enough
for the template itself, and the other way round, one level deeper. -/
theorem include_transparency (h : E.Inlined template inlined) (scope : Scope) (depth : Nat)
    (s : σ) :
    ((E.processWithin depth template scope s).result ≠ .error .unfinished →
      (E.processWithin depth template scope s).SameToHost
        (E.processWithin depth inlined scope s)) ∧
    ((E.processWithin depth inlined scope s).result ≠ .error .unfinished →
      (E.processWithin depth inlined scope s).SameToHost
        (E.processWithin (depth + 1) template scope s)) := by
  constructor
  · intro hfinished
    have hsame := processWithin_rel (E.emitted_inlined h depth scope .single false)
    exact .of_only (sameOnceFinished_apply hsame hfinished)
  · intro hfinished
    have hsame := processWithin_rel
      (E.emitted_of_inlined h depth scope .single false)
    exact .of_only (sameOnceFinished_apply hsame hfinished)

/-- A list is included after a marker and as the value of a key. -/
theorem include_transparency_list :
    let E : Engine Library.State :=
      ⟨Library.host, ["."], fun _ => some [], fun _ _ => .ok (.list [.int 1, .int 2])⟩
    let template : Value :=
      .list [.str "<", .str ".'part'", .map [(.str "k", .str ".'part'")]]
    let value : Value := .list [.int 1, .int 2, .map [(.str "k", .list [.int 1, .int 2])]]
    let inlined : Value :=
      .list [.str "<", .list [.int 1, .int 2], .map [(.str "k", .list [.int 1, .int 2])]]
    E.Inlined template inlined ∧ (E.processWithin 0 inlined [] default).result = .ok value ∧
      (E.processWithin 1 template [] default).result = .ok value := by
  intro E template value inlined
  have hpart : E.Includes (.str (".'" ++ "part" ++ "'")) (.list [.int 1, .int 2]) :=
    .mk (by decide) rfl (.inl rfl)
  have hentry : E.Inlined (.map [(.str "k", .str ".'part'")])
      (.map [(.str "k", .list [.int 1, .int 2])]) :=
    .map (.value (by simp [Value.AsksSwitch]) (.document hpart) .nil)
  have hinlined : E.Inlined template inlined :=
    .list (.cons (.same _) (.cons (.document hpart) (.cons hentry .nil)))
  have hvalue : (E.processWithin 0 inlined [] default).result = .ok value := by rfl
  have hsame := (E.include_transparency hinlined [] 0 default).2 (by simp [hvalue])
  exact ⟨hinlined, hvalue, hsame.result.trans hvalue⟩

end Engine
end TreeTemplate
