import Mathlib.Data.List.TakeWhile
import TreeTemplate.Proofs.Run.Alike
import TreeTemplate.Proofs.Template.Failing
import TreeTemplate.Proofs.Template.PlainList
import TreeTemplate.Proofs.Template.ScanOrder

/-! # Visits to the parts of a template

Processing pays visits to the parts of a template (`Engine.Visit`): it processes a part in a scope,
in a place and in a state of the host.  Which visits it pays to the parts of a template at a visit
to the template is known of every directive (`Engine.LoopVisit`, `Engine.ItemVisit`,
`Engine.ContentVisit`, `Engine.EntryVisit`), and what comes of the template is a matter of what
comes of its parts at these visits alone (`Engine.outcome_loop`, `Engine.outcome_elements` and what
follows them).
-/
namespace TreeTemplate

variable {σ : Type}

/-! ## Reading, one part after another -/

/-- Whether a value is a text. -/
def Value.isText : Value → Bool
  | .str _ => true
  | _ => false

/-- The same text, or two values that are no texts. -/
def Value.SameText (v w : Value) : Prop := v = w ∨ v.isText = false ∧ w.isText = false

theorem PlainList.begins_singleton (c : Char) (v : Value) : begins [c] v = v.startsWith c := by
  cases v with
  | str s =>
    rw [begins, Value.startsWith]
    cases s.toList <;> simp [List.isPrefixOf, Bool.beq_eq_decide_eq, eq_comm]
  | _ => rfl

namespace Value.SameText

variable {v w : Value} (h : v.SameText w)
include h

theorem begins (cs : List Char) : PlainList.begins cs v = PlainList.begins cs w := by
  rcases h with rfl | ⟨hv, hw⟩
  · rfl
  · cases v <;> cases w <;> simp_all [isText, PlainList.begins]

theorem startsWith (c : Char) : v.startsWith c = w.startsWith c := by
  rw [← PlainList.begins_singleton, ← PlainList.begins_singleton, h.begins]

theorem takesPlace : Node.takesPlace v = Node.takesPlace w := by
  rw [Node.takesPlace, Node.takesPlace, h.startsWith, h.startsWith]

theorem eq_of_startsWith {c : Char} (hc : v.startsWith c = true) : v = w := by
  rcases h with rfl | ⟨hv, hw⟩
  · rfl
  · cases v <;> simp_all [isText, Value.startsWith]

end Value.SameText

theorem option_map_congr {α β : Type} {f : α → β} {a b : Option α} (h : a.isSome = b.isSome)
    (hf : ∀ x ∈ a, ∀ y ∈ b, f x = f y) : a.map f = b.map f := by
  cases a <;> cases b <;> simp_all

theorem takeWhile_congr {α : Type} {p q : α → Bool} {items : List α}
    (h : ∀ a ∈ items, p a = q a) : items.takeWhile p = items.takeWhile q := by
  induction items with
  | nil => rfl
  | cons a items ih =>
    obtain ⟨ha, hitems⟩ := List.forall_mem_cons.mp h
    rw [List.takeWhile_cons, List.takeWhile_cons, ha, ih hitems]

namespace Node

theorem ofValues_eq_map (items : List Value) : ofValues items = items.map ofValue := by
  induction items with
  | nil => rfl
  | cons v items ih => rw [ofValues, ih, List.map_cons]

theorem ofValue_items {v : Value} {items : List Value} (h : v.items? = some items) :
    ofValue v = ofItems items := by
  cases v with
  | list | tuple =>
    cases h
    rw [ofValue]
  | _ => cases h

/-- The branch that a condition chooses. -/
def chosenBranch (value : Value) (branches : List Value) : Option Value :=
  if value.truthy then branches[0]? else branches[1]?

/-- The element that a value is read as, unless a plain list ends there. -/
def elementOf (v : Value) : Element := (readElements [v]).head?.getD .skip

/-- The elements of a plain list, up to the mark at which it ends. -/
def upToStop (items : List Value) : List Value := items.takeWhile fun x => !PlainList.isStop x

theorem elementOf_of_not_isText {v : Value} (h : v.isText = false) :
    elementOf v = .item (ofValue v) := by
  cases v with
  | str s => cases h
  | _ => rfl

theorem readElements_eq_map (items : List Value) :
    readElements items = (upToStop items).map elementOf := by
  induction items with
  | nil => rfl
  | cons x items ih =>
    obtain ⟨read, hkind, hread⟩ := PlainList.exists_kind x
    have helement : elementOf x = (read []).head?.getD .skip :=
      congrArg (·.head?.getD .skip) (hread [])
    rw [hread, upToStop, List.takeWhile_cons]
    cases hkind with
    | stop h => simp [h]
    | skip h | capture h | splice h | item h =>
      simp only [h, Bool.not_false, if_true, List.map_cons, helement, List.head?_cons,
        Option.getD_some, ih]
      rfl

/-- A plain list that is written like another one, part by part and mark by mark. -/
theorem ofItems_map_plain {α : Type} {p q : α → Value} {parts : List α}
    (hmarks : ∀ part ∈ parts, ∀ cs, PlainList.begins cs (q part) = PlainList.begins cs (p part))
    (hplain : ∀ part ∈ parts.head?,
      PlainList.begins ['@'] (p part) = false ∧ PlainList.begins ['?'] (p part) = false) :
    ofItems (parts.map q) = .elements (parts.head?.any fun part => PlainList.asksSplice (p part))
      ((parts.takeWhile fun part => !PlainList.isStop (p part)).map fun part =>
        elementOf (q part)) := by
  have hhead : ∀ x ∈ (parts.map q).head?,
      PlainList.begins ['@'] x = false ∧ PlainList.begins ['?'] x = false := by
    simp only [List.head?_map, Option.mem_def, Option.map_eq_some_iff]
    rintro _ ⟨part, hpart, rfl⟩
    rw [hmarks part (List.mem_of_mem_head? hpart), hmarks part (List.mem_of_mem_head? hpart)]
    exact hplain part hpart
  have hforced : (parts.map q).head?.any PlainList.asksSplice =
      parts.head?.any fun part => PlainList.asksSplice (p part) := by
    cases parts with
    | nil => rfl
    | cons part rest => simp [PlainList.asksSplice, hmarks]
  have hlive : parts.takeWhile (fun part => !PlainList.isStop (q part)) =
      parts.takeWhile fun part => !PlainList.isStop (p part) :=
    takeWhile_congr fun part hpart => congrArg _ (hmarks part hpart _)
  rw [PlainList.ofItems_plain hhead, hforced, readElements_eq_map, upToStop, List.takeWhile_map,
    List.map_map, ← hlive]
  rfl

/-! ## Plain lists, one element after another -/

section
variable (E : Engine σ) (include_ : Includer σ) (scope : Scope)

/-- What an element of a plain list emits, and the effects that are pending after it. -/
def runElement (pending : Engine.Pending) : Element → Run σ (List Value × Engine.Pending)
  | .skip => pure ([], { pending with skip := true })
  | .capture clause => do
    let f ← E.callee scope clause
    pure ([], { pending with capture := some f })
  | .splice => pure ([], { pending with splice := true })
  | .item node =>
    if pending.skip then pure ([], { pending with skip := false })
    else do
      let emitted ← runItem E include_ node scope pending
      pure (emitted, { pending with capture := none, splice := false })

/-- Everything that elements emit, and the effects that are pending after them. -/
def runPart (parts : List Element) : Run σ (List Value × Engine.Pending) :=
  Run.carry (fun made e => (fun p => (made.1 ++ p.1, p.2)) <$> runElement E include_ scope made.2 e)
    ([], .nothing) parts

theorem runElements_cons (e : Element) (rest : List Element) (pending : Engine.Pending) :
    runElements E include_ (e :: rest) scope pending =
      runElement E include_ scope pending e >>= fun p =>
        (p.1 ++ ·) <$> runElements E include_ rest scope p.2 := by
  cases e with
  | skip => simp [runElements, runElement]
  | capture clause => simp [runElements, runElement]
  | splice => simp [runElements, runElement]
  | item node =>
    by_cases hskip : pending.skip = true
    · simp [runElements, runElement, hskip]
    · cases hcapture : pending.capture <;>
        simp [runElements, runElement, runItem, hskip, hcapture]

/-- A plain list is run element by element, and at its end. -/
theorem runElements_eq (parts : List Element) : runElements E include_ parts scope .nothing =
    runPart E include_ scope parts >>= fun p => (p.1 ++ ·) <$> E.finish p.2 := by
  have hcarry : ∀ (parts : List Element) (emitted : List Value) (pending : Engine.Pending),
      (emitted ++ ·) <$> runElements E include_ parts scope pending =
        Run.carry (fun made e => (fun p => (made.1 ++ p.1, p.2)) <$>
          runElement E include_ scope made.2 e) (emitted, pending) parts >>= fun p =>
            (p.1 ++ ·) <$> E.finish p.2 := by
    intro parts
    induction parts with
    | nil => intro emitted pending; simp [runElements, Run.carry]
    | cons e rest ih =>
      intro emitted pending
      simp only [runElements_cons, Run.carry, bind_assoc, bind_map_left, map_bind, Functor.map_map,
        ← ih, List.append_assoc]
  simpa [runPart] using hcarry parts [] .nothing

end

/-! ## Switches -/

theorem readEntry_cases {key clause : String}
    (hclause : KeyMark.ofChars key.toList = .switch clause) (cases : Mapping.Entries) :
    readEntry (.str key, .map cases) = .whole (.switch key clause (readCases cases)) := by
  rw [readEntry_switch hclause, ofSwitch]

theorem keys_readCases (cases : Mapping.Entries) :
    (readCases cases).map (·.1) = cases.map (·.1) := by
  rw [readCases_eq_map, List.map_map]
  rfl

/-- The case that is run is the entry of its key. -/
theorem runCase_readCases (E : Engine σ) (include_ : Includer σ) (cases : Mapping.Entries)
    (case : Value) (scope : Scope) (context : Context) (splice : Bool) :
    runCase E include_ (readCases cases) case scope context splice =
      runBranch E include_ ((Mapping.find? cases case).map ofValue) scope context splice := by
  rw [runCase_eq, readCases_eq_map, List.find?_map, Mapping.find?, Option.map_map, Option.map_map]
  rfl

/-! ## Mappings, one entry after another -/

section
variable (E : Engine σ) (include_ : Includer σ) (scope : Scope)

/-- A mapping is run as the directive that takes its place, or else entry by entry. -/
theorem run_map (entries : Mapping.Entries) (context : Context) (splice : Bool) (s : σ) :
    run E include_ (ofValue (.map entries)) scope context splice s =
      run E include_ (((honoured? (Value.text (E.host.shows s)) entries).bind fun row =>
        (readEntry row).whole?).getD
          (.merge (liveEntries (scanned (Value.text (E.host.shows s)) entries))))
        scope context splice s := by
  rw [← ofReadings_scanned, ofValue, ofRows, run]
  rfl

theorem runEntries_liveEntries (rows made : Mapping.Entries) :
    runEntries E include_ (liveEntries rows) scope made = Run.carry (fun made row =>
      runEntries E include_ (readEntry row).live?.toList scope made) made rows := by
  induction rows generalizing made with
  | nil =>
    rw [liveEntries_nil, runEntries]
    rfl
  | cons row rows ih =>
    rw [liveEntries_cons, runEntries_append, Run.carry]
    exact congrArg _ (funext ih)

end

theorem unlessCommented_live {value : Value} (h : value.startsWith '/' = false) (key : Value)
    (entry : Entry) : unlessCommented key value entry = .live entry := by
  cases value with
  | str s => simp_all [unlessCommented, looksCommented, Value.startsWith]
  | _ => rfl

end Node

namespace Engine

open Run Node

/-! ## Visits -/

/-- A visit that processing pays to a part of a template. -/
structure Visit (σ : Type) where
  scope : Scope
  context : Context
  splice : Bool
  state : σ

variable (E : Engine σ) (include_ : Includer σ)

/-- What comes of a part at a visit. -/
def Visit.outcome (x : Visit σ) (part : Value) : Outcome σ (List Value) :=
  (ofValue part).run E include_ x.scope x.context x.splice x.state

/-- The visits to an element of the body of a loop: one for every item, after the same was done
with all items before it and with the elements before this one. -/
inductive LoopVisit (clause : String) (body before : List Value) (x : Visit σ) : Visit σ → Prop
  | item {first rest made begun : List Value} {item : Value} {t u w : σ}
    (hitems : (E.evaluate x.scope clause >>= loopItems clause).Ends x.state
      (first ++ item :: rest) t)
    (hfirst : (Run.collect (fun item =>
      runAll E include_ (ofValues body) (x.scope.enter item)) first).Ends t made u)
    (hbefore : (runAll E include_ (ofValues before) (x.scope.enter item)).Ends u begun w) :
    LoopVisit clause body before x ⟨x.scope.enter item, .list, false, w⟩

/-- The visit to an item of a plain list, after the elements before it. -/
inductive ItemVisit (before : List Value) (x : Visit σ) : Visit σ → Prop
  | item {emitted : List Value} {pending : Pending} {t : σ}
    (hstop : ∀ element ∈ before, PlainList.isStop element = false)
    (hbefore : (runPart E include_ x.scope (before.map elementOf)).Ends x.state
      (emitted, pending) t)
    (hskip : pending.skip = false) (hcapture : pending.capture = none) :
    ItemVisit before x ⟨x.scope, .list, pending.splice, t⟩
  | argument {emitted : List Value} {pending : Pending} {f : Value} {t : σ}
    (hstop : ∀ element ∈ before, PlainList.isStop element = false)
    (hbefore : (runPart E include_ x.scope (before.map elementOf)).Ends x.state
      (emitted, pending) t)
    (hskip : pending.skip = false) (hcapture : pending.capture = some f) :
    ItemVisit before x ⟨x.scope, .single, false, t⟩

/-- The visits to a body that is repeated for every entry of a mapping. -/
inductive ContentVisit (key clause : String) (body : Value) (x : Visit σ) : Visit σ → Prop
  | entry {first rest made : Mapping.Entries} {entry : Value × Value} {t u : σ}
    (hentries : (E.evaluate x.scope clause >>=
      entriesOf ("result of expression " ++ Text.quote clause) clause).Ends x.state
        (first ++ entry :: rest) t)
    (hfirst : (Run.carry (runContent E include_ key (ofValue body) x.scope) [] first).Ends t
      made u) :
    ContentVisit key clause body x ⟨x.scope.enterEntry entry, .single, false, u⟩

/-- The visits to the parts of an entry, which is neither left out nor takes the place of the
mapping: to its value, and before that to its key if it is to be bound. -/
inductive EntryVisit (key : Value) (scope : Scope) (t : σ) :
    (Value × Value → Value) → Visit σ → Prop
  | merged (hkey : key.startsWith '<' = true) :
    EntryVisit key scope t Prod.snd ⟨scope, .mapping, true, t⟩
  | argument {source clause : String} {f : Value} {u : σ} (hkey : key = .str source)
    (hclause : KeyMark.ofChars source.toList = .apply clause)
    (hcallee : (E.callee scope clause).Ends t f u) :
    EntryVisit key scope t Prod.snd ⟨scope, .single, false, u⟩
  | key (hkey : ∀ c ∈ keyMarks, key.startsWith c = false) :
    EntryVisit key scope t Prod.fst ⟨scope, .single, false, t⟩
  | bound {emitted : List Value} {u : σ} (hkey : ∀ c ∈ keyMarks, key.startsWith c = false)
    (hrun : ((ofValue key).run E include_ scope .single false).Ends t emitted u) :
    EntryVisit key scope t Prod.snd ⟨scope, .single, false, u⟩

/-- No visit is paid to what is left out. -/
theorem EntryVisit.live {key : Value} {scope : Scope} {t : σ} {p : Value × Value → Value}
    {y : Visit σ} (h : EntryVisit E include_ key scope t p y) : key.startsWith '/' = false := by
  refine Bool.eq_false_iff.mpr fun hdead => ?_
  cases h with
  | merged hkey => cases Value.startsWith_unique hdead hkey
  | argument hkey hclause =>
    subst hkey
    obtain ⟨cs, hs⟩ := List.head?_eq_some_iff.mp (of_decide_eq_true hdead)
    rw [hs] at hclause
    cases hclause
  | key hkey | bound hkey => simp [hkey '/' (by simp [keyMarks])] at hdead

/-! ## Parts that come to the same at every visit -/

section
variable {E : Engine σ} {include_ : Includer σ} {x : Visit σ} {v w : Value}
  {parts : List (Value × Value)}

/-- A branch that may be absent, where what comes of it is known. -/
theorem runBranch_apply (branch : Option Value) (scope : Scope) (context : Context) (splice : Bool)
    (t : σ) : runBranch E include_ (branch.map ofValue) scope context splice t =
      (branch.map (Visit.outcome E include_ ⟨scope, context, splice, t⟩)).getD ⟨.ok [], [], t⟩ := by
  cases branch with
  | none => rw [Option.map_none, runBranch]; rfl
  | some part => rw [Option.map_some, runBranch]; rfl

/-- A mapping comes to what the directive comes to that takes its place. -/
theorem outcome_of_honoured {entries : Mapping.Entries} {row : Value × Value} {node : Node}
    (h : honoured? (Value.text (E.host.shows x.state)) entries = some row)
    (hread : readEntry row = .whole node) : x.outcome E include_ (.map entries) =
      node.run E include_ x.scope x.context x.splice x.state := by
  rw [Visit.outcome, run_map, h, Option.bind_some, hread]
  rfl

/-- What comes of a loop is a matter of what comes of its body at the visits to it. -/
theorem outcome_loop {source clause : String} {dash : Bool}
    (hhead : Head.ofChars source.toList = .loop dash clause)
    (hv : v.items? = some (.str source :: parts.map (·.1)))
    (hw : w.items? = some (.str source :: parts.map (·.2)))
    (h : ∀ before part after, parts = before ++ part :: after → ∀ y,
      LoopVisit E include_ clause (parts.map (·.1)) (before.map (·.1)) x y →
        y.outcome E include_ part.1 = y.outcome E include_ part.2) :
    x.outcome E include_ v = x.outcome E include_ w := by
  have hread : ∀ body, ofItems (.str source :: body) = .loop source dash clause (ofValues body) :=
    fun body => by rw [ofItems, hhead]
  have hbody : ∀ (p : Value × Value → Value) (parts : List (Value × Value)) (scope : Scope),
      runAll E include_ (ofValues (parts.map p)) scope =
        Run.collect (fun part => (ofValue (p part)).run E include_ scope .list false) parts :=
    fun p parts scope => by
      rw [runAll_eq_collect, ofValues_eq_map, List.map_map, Run.collect_map]
      rfl
  rw [Visit.outcome, Visit.outcome, ofValue_items hv, ofValue_items hw, hread, hread, Node.run,
    Node.run, ← bind_assoc (E.evaluate _ _), ← bind_assoc (E.evaluate _ _)]
  refine emit_apply_congr (bind_apply_congr rfl fun items t hitems =>
    bind_apply_congr ?_ fun _ _ _ => rfl)
  refine collect_apply_congr fun first item rest made u hsplit hfirst => ?_
  rw [hbody, hbody]
  refine collect_apply_congr fun before part after begun w hparts hbefore => ?_
  rw [← hbody] at hbefore
  exact h before part after hparts _ (.item (hsplit ▸ hitems) hfirst hbefore)

/-- What comes of a condition is a matter of what comes of the branch that it chooses. -/
theorem outcome_condition {source clause : String} {dash : Bool} {branches redrawn : List Value}
    (hhead : Head.ofChars source.toList = .condition dash clause)
    (hv : v.items? = some (.str source :: branches))
    (hw : w.items? = some (.str source :: redrawn))
    (h : ∀ value t, (E.evaluate x.scope clause).Ends x.state value t →
      (chosenBranch value branches).map
          (Visit.outcome E include_ ⟨x.scope, x.context, x.splice || dash, t⟩) =
        (chosenBranch value redrawn).map
          (Visit.outcome E include_ ⟨x.scope, x.context, x.splice || dash, t⟩)) :
    x.outcome E include_ v = x.outcome E include_ w := by
  have hread : ∀ branches, ofItems (.str source :: branches) =
      .condition source dash clause (ofBranch branches) (ofSecondBranch branches) :=
    fun branches => by rw [ofItems, hhead]
  have hbranch : ∀ (value : Value) (branches : List Value) (splice : Bool),
      (if value.truthy then runBranch E include_ (ofBranch branches) x.scope x.context splice
        else runBranch E include_ (ofSecondBranch branches) x.scope x.context splice) =
      runBranch E include_ ((chosenBranch value branches).map ofValue) x.scope x.context
        splice := by
    intro value branches splice
    rw [chosenBranch]
    split
    · cases branches <;> rfl
    · match branches with
      | [] | [_] | _ :: _ :: _ => rfl
  rw [Visit.outcome, Visit.outcome, ofValue_items hv, ofValue_items hw, hread, hread, Node.run,
    Node.run]
  refine emit_apply_congr (bind_apply_congr rfl fun value t hvalue => ?_)
  rw [hbranch, hbranch, runBranch_apply, runBranch_apply, h value t hvalue]

/-- What comes of an item of a plain list is a matter of what comes of it at the visit to it. -/
theorem runElement_congr {scope : Scope} {pending : Pending} {t : σ} (htext : v.SameText w)
    (hitem : pending.skip = false → pending.capture = none →
      Visit.outcome E include_ ⟨scope, .list, pending.splice, t⟩ v =
        Visit.outcome E include_ ⟨scope, .list, pending.splice, t⟩ w)
    (hargument : ∀ f, pending.skip = false → pending.capture = some f →
      Visit.outcome E include_ ⟨scope, .single, false, t⟩ v =
        Visit.outcome E include_ ⟨scope, .single, false, t⟩ w) :
    runElement E include_ scope pending (elementOf v) t =
      runElement E include_ scope pending (elementOf w) t := by
  rcases htext with rfl | ⟨hv, hw⟩
  · rfl
  rw [elementOf_of_not_isText hv, elementOf_of_not_isText hw, runElement, runElement]
  cases hskip : pending.skip with
  | true => rfl
  | false =>
    refine bind_apply_congr ?_ fun _ _ _ => rfl
    rw [runItem, runItem]
    cases hcapture : pending.capture with
    | none => exact hitem hskip hcapture
    | some f => exact bind_apply_congr (hargument f hskip hcapture) fun _ _ _ => rfl

/-- What comes of a plain list is a matter of what comes of its items at the visits to them. -/
theorem outcome_elements (hv : v.items? = some (parts.map (·.1)))
    (hw : w.items? = some (parts.map (·.2)))
    (hplain : ∀ part ∈ parts.head?,
      PlainList.begins ['@'] part.1 = false ∧ PlainList.begins ['?'] part.1 = false)
    (htexts : ∀ part ∈ parts, part.1.SameText part.2)
    (h : ∀ before part after, parts = before ++ part :: after → ∀ y,
      ItemVisit E include_ (before.map (·.1)) x y →
        y.outcome E include_ part.1 = y.outcome E include_ part.2) :
    x.outcome E include_ v = x.outcome E include_ w := by
  have hread : ofItems (parts.map (·.1)) = _ := ofItems_map_plain (fun _ _ _ => rfl) hplain
  have hredrawn : ofItems (parts.map (·.2)) = _ :=
    ofItems_map_plain (fun part hpart cs => ((htexts part hpart).begins cs).symm) hplain
  rw [Visit.outcome, Visit.outcome, ofValue_items hv, ofValue_items hw, hread, hredrawn]
  simp only [Node.run, runElements_eq, runPart, Run.carry_map, bind_assoc]
  refine bind_apply_congr (carry_apply_congr ?_) fun _ _ _ => rfl
  intro before part after made t hparts hbefore
  have hpart : parts = before ++ part :: (after ++ parts.dropWhile fun part =>
      !PlainList.isStop part.1) := by
    conv_lhs => rw [← List.takeWhile_append_dropWhile (p := fun part => !PlainList.isStop part.1)
      (l := parts), hparts]
    simp
  have hstop : ∀ element ∈ before.map (·.1), PlainList.isStop element = false := by
    intro element helement
    obtain ⟨other, hother, rfl⟩ := List.mem_map.mp helement
    have hmem : other ∈ parts.takeWhile fun part => !PlainList.isStop part.1 :=
      hparts ▸ List.mem_append_left _ hother
    simpa using List.mem_takeWhile_imp hmem
  have hrun : (runPart E include_ x.scope ((before.map (·.1)).map elementOf)).Ends x.state made
      t := by
    rwa [List.map_map, runPart, Run.carry_map]
  have hvisit := h before part _ hpart
  exact map_apply_congr _ <| runElement_congr (htexts part (hpart ▸ by simp))
    (fun hskip hcapture => hvisit _ (.item hstop hrun hskip hcapture))
    fun f hskip hcapture => hvisit _ (.argument hstop hrun hskip hcapture)

/-- What comes of a body that is repeated for every entry of a mapping is a matter of what comes of
it at the visits to it. -/
theorem outcome_each {entries others : Mapping.Entries} {key clause : String} {body redrawn : Value}
    (hclause : KeyMark.ofChars key.toList = .each clause)
    (hv : honoured? (Value.text (E.host.shows x.state)) entries = some (.str key, body))
    (hw : honoured? (Value.text (E.host.shows x.state)) others = some (.str key, redrawn))
    (h : ∀ y, ContentVisit E include_ key clause body x y →
      y.outcome E include_ body = y.outcome E include_ redrawn) :
    x.outcome E include_ (.map entries) = x.outcome E include_ (.map others) := by
  rw [outcome_of_honoured hv (readEntry_each hclause body),
    outcome_of_honoured hw (readEntry_each hclause redrawn), Node.run, Node.run,
    ← bind_assoc (E.evaluate _ _), ← bind_assoc (E.evaluate _ _)]
  refine emit_apply_congr (bind_apply_congr rfl fun source t hsource =>
    bind_apply_congr ?_ fun _ _ _ => rfl)
  refine carry_apply_congr fun first entry rest made u hsplit hfirst => ?_
  exact bind_apply_congr (h _ (.entry (hsplit ▸ hsource) hfirst)) fun _ _ _ => rfl

/-- What comes of a switch is a matter of what comes of the case that it chooses. -/
theorem outcome_switch {entries others cases redrawn : Mapping.Entries} {key clause : String}
    (hclause : KeyMark.ofChars key.toList = .switch clause)
    (hv : honoured? (Value.text (E.host.shows x.state)) entries = some (.str key, .map cases))
    (hw : honoured? (Value.text (E.host.shows x.state)) others = some (.str key, .map redrawn))
    (hcases : cases.map (·.1) = redrawn.map (·.1))
    (h : ∀ case t, (E.evaluate x.scope clause >>= E.chooseCase (cases.map (·.1))).Ends x.state
        (some case) t →
      (Mapping.find? cases case).map (Visit.outcome E include_ ⟨x.scope, x.context, x.splice, t⟩) =
        (Mapping.find? redrawn case).map
          (Visit.outcome E include_ ⟨x.scope, x.context, x.splice, t⟩)) :
    x.outcome E include_ (.map entries) = x.outcome E include_ (.map others) := by
  rw [outcome_of_honoured hv (readEntry_cases hclause cases),
    outcome_of_honoured hw (readEntry_cases hclause redrawn), Node.run, Node.run, keys_readCases,
    keys_readCases, ← hcases, ← bind_assoc (E.evaluate _ _), ← bind_assoc (E.evaluate _ _)]
  refine emit_apply_congr (bind_apply_congr rfl fun case t hcase => ?_)
  cases case with
  | none => rfl
  | some case =>
    simp only [runCase_readCases]
    rw [runBranch_apply, runBranch_apply, h case t hcase]

/-- A switch whose cases are no mapping comes to the same whatever they are made of. -/
theorem outcome_badSwitch {entries others : Mapping.Entries} {key clause : String}
    {cases redrawn : Value} (hclause : KeyMark.ofChars key.toList = .switch clause)
    (hv : honoured? (Value.text (E.host.shows x.state)) entries = some (.str key, cases))
    (hw : honoured? (Value.text (E.host.shows x.state)) others = some (.str key, redrawn))
    (hcases : ∀ rows, cases ≠ .map rows) (hredrawn : ∀ rows, redrawn ≠ .map rows)
    (htype : cases.typeName = redrawn.typeName) :
    x.outcome E include_ (.map entries) = x.outcome E include_ (.map others) := by
  have hread : ∀ {cases : Value}, (∀ rows, cases ≠ .map rows) →
      readEntry (.str key, cases) = .whole (.badSwitch key cases.typeName) :=
    fun {cases} hcases => by
    rw [readEntry_switch hclause]
    cases cases with
    | map rows => exact (hcases rows rfl).elim
    | _ => rfl
  rw [outcome_of_honoured hv (hread hcases), outcome_of_honoured hw (hread hredrawn), htype]

/-- What comes of an entry is a matter of what comes of its parts at the visits to them.  An entry
whose value looks like a comment is refused with its key. -/
theorem runEntry_congr {entry other : Value × Value} {scope : Scope} {t : σ}
    (hplace : takesPlace entry.1 = false) (hdead : entry.1.startsWith '/' = false)
    (hkey : entry.1.SameText other.1)
    (hrefused : entry.2.startsWith '/' = true ∨ other.2.startsWith '/' = true → entry = other)
    (h : ∀ p y, EntryVisit E include_ entry.1 scope t p y →
      y.outcome E include_ (p entry) = y.outcome E include_ (p other)) (made : Mapping.Entries) :
    runEntries E include_ (readEntry entry).live?.toList scope made t =
      runEntries E include_ (readEntry other).live?.toList scope made t := by
  by_cases hcomment : entry.2.startsWith '/' = true ∨ other.2.startsWith '/' = true
  · rw [hrefused hcomment]
  obtain ⟨key, v⟩ := entry
  obtain ⟨otherKey, w⟩ := other
  simp only [not_or, Bool.not_eq_true] at hcomment
  obtain ⟨hv, hw⟩ := hcomment
  cases hmerge : key.startsWith '<' with
  | true =>
    obtain rfl : key = otherKey := hkey.eq_of_startsWith hmerge
    obtain ⟨source, hread⟩ := readEntry_merge hmerge
    rw [hread, hread, unlessCommented_live hv, unlessCommented_live hw]
    simp only [Reading.live?, Option.toList, runEntries]
    exact bind_apply_congr (h _ _ (.merged hmerge)) fun _ _ _ => rfl
  | false =>
    cases hcall : key.startsWith '^' with
    | true =>
      obtain rfl : key = otherKey := hkey.eq_of_startsWith hcall
      obtain ⟨source, clause, rfl, hclause, hread⟩ := readEntry_apply hcall
      rw [hread, hread, unlessCommented_live hv, unlessCommented_live hw]
      simp only [Reading.live?, Option.toList, runEntries]
      refine bind_apply_congr rfl fun f u hcallee => ?_
      exact bind_apply_congr (h _ _ (.argument rfl hclause hcallee)) fun _ _ _ => rfl
    | false =>
      have hput : ∀ c ∈ keyMarks, key.startsWith c = false := by
        obtain ⟨heach, hswitch⟩ := Bool.or_eq_false_iff.mp hplace
        simp [keyMarks, heach, hswitch, hdead, hmerge, hcall]
      rw [readEntry_put hput, readEntry_put fun c hc => (hkey.startsWith c).symm.trans (hput c hc),
        unlessCommented_live hv, unlessCommented_live hw]
      simp only [Reading.live?, Option.toList, runEntries]
      refine bind_apply_congr (h _ _ (.key hput)) fun emitted u hrun => ?_
      exact bind_apply_congr (h _ _ (.bound hput hrun)) fun _ _ _ => rfl

/-- What comes of a mapping without a directive that takes its place is a matter of what comes of
the parts of its entries at the visits to them. -/
theorem outcome_merge {entries others : Mapping.Entries}
    {rows : List ((Value × Value) × Value × Value)}
    (hv : scanned (Value.text (E.host.shows x.state)) entries = rows.map (·.1))
    (hw : scanned (Value.text (E.host.shows x.state)) others = rows.map (·.2))
    (hmarks : ∀ row ∈ rows, takesPlace row.1.1 = false)
    (hkeys : ∀ row ∈ rows, row.1.1.SameText row.2.1)
    (hrefused : ∀ row ∈ rows, row.1.1.startsWith '/' = false →
      row.1.2.startsWith '/' = true ∨ row.2.2.startsWith '/' = true → row.1 = row.2)
    (h : ∀ before row after, rows = before ++ row :: after → ∀ made t,
      (runEntries E include_ (liveEntries (before.map (·.1))) x.scope []).Ends x.state made t →
        ∀ p y, EntryVisit E include_ row.1.1 x.scope t p y →
          y.outcome E include_ (p row.1) = y.outcome E include_ (p row.2)) :
    x.outcome E include_ (.map entries) = x.outcome E include_ (.map others) := by
  have hnone : honoured? (Value.text (E.host.shows x.state)) entries = none := by
    rw [honoured?_of_scanned hv, Option.map_eq_none_iff, List.find?_eq_none]
    exact fun row hrow => by simp [hmarks row hrow]
  have hother : honoured? (Value.text (E.host.shows x.state)) others = none := by
    rw [honoured?_of_scanned hw, Option.map_eq_none_iff, List.find?_eq_none]
    exact fun row hrow => by simp [← (hkeys row hrow).takesPlace, hmarks row hrow]
  rw [Visit.outcome, Visit.outcome, run_map, run_map, hnone, hother, hv, hw]
  simp only [Option.bind_none, Option.getD_none, Node.run, runEntries_liveEntries, Run.carry_map]
  refine bind_apply_congr (carry_apply_congr ?_) fun _ _ _ => rfl
  intro before row after made t hrows hbefore
  have hrow : row ∈ rows := hrows ▸ by simp
  cases hdead : row.1.1.startsWith '/' with
  | true =>
    have hread : readEntry row.1 = .dead := readEntry_dead hdead row.1.2
    have hother : readEntry row.2 = .dead :=
      readEntry_dead (((hkeys row hrow).startsWith '/').symm.trans hdead) row.2.2
    rw [hread, hother]
  | false =>
    refine runEntry_congr (hmarks row hrow) hdead (hkeys row hrow) (hrefused row hrow hdead) ?_ made
    refine h before row after hrows made t ?_
    rwa [runEntries_liveEntries, Run.carry_map]

end

end Engine

end TreeTemplate
