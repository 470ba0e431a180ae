import Mathlib.Data.List.Find
import TreeTemplate.Proofs.Template.Visits

/-! # Dead parts of templates

A template may be redrafted at a visit (`Engine.Redrafted`): each of its parts may be redrafted in
the same way at every visit that processing pays to it from there, and what is never looked at may
be anything.  These are the values of keys that are left out (`Engine.Redrafted.leftOut`), the
branches of a condition that are not chosen, the entries beside a directive that takes the place of
their mapping (`Engine.Redrafted.beside_later`), and the cases that a switch does not choose.  A
redrafted template does what the template does, down to every event
(`Engine.dead_parts_have_no_influence`).  The value of a case is not dead for a slash before its
key, and keys are looked at as they are written
(`Engine.slashed_cases_and_written_keys_have_influence`).
-/
namespace TreeTemplate

variable {σ : Type}

namespace Engine

open Run Node

variable (E : Engine σ) (include_ : Includer σ)

/-! ## Redrafting -/

/-- A template is redrafted at a visit: it is left as it is, or its parts are redrafted at the
visits to them, and what is not visited may be anything. -/
inductive Redrafted : Value → Value → Visit σ → Prop
  | same (v : Value) (x : Visit σ) : Redrafted v v x
  /-- The body of a loop, each element for all the scopes in which it is processed. -/
  | loop {v w : Value} {x : Visit σ} {source clause : String} {dash : Bool}
    {parts : List (Value × Value)} (hhead : Head.ofChars source.toList = .loop dash clause)
    (hv : v.items? = some (.str source :: parts.map (·.1)))
    (hw : w.items? = some (.str source :: parts.map (·.2)))
    (h : ∀ before part after, parts = before ++ part :: after → ∀ y,
      LoopVisit E include_ clause (parts.map (·.1)) (before.map (·.1)) x y →
        Redrafted part.1 part.2 y) : Redrafted v w x
  /-- The branch that a condition chooses; the other one and all that stands after them may be
  anything. -/
  | condition {v w : Value} {x : Visit σ} {source clause : String} {dash : Bool}
    {branches redrawn : List Value}
    (hhead : Head.ofChars source.toList = .condition dash clause)
    (hv : v.items? = some (.str source :: branches))
    (hw : w.items? = some (.str source :: redrawn))
    (hpresent : ∀ value t, (E.evaluate x.scope clause).Ends x.state value t →
      (chosenBranch value branches).isSome = (chosenBranch value redrawn).isSome)
    (h : ∀ value t, (E.evaluate x.scope clause).Ends x.state value t →
      ∀ branch ∈ chosenBranch value branches, ∀ other ∈ chosenBranch value redrawn,
        Redrafted branch other ⟨x.scope, x.context, x.splice || dash, t⟩) : Redrafted v w x
  /-- The items of a plain list; its marks are texts, which stay. -/
  | elements {v w : Value} {x : Visit σ} {parts : List (Value × Value)}
    (hv : v.items? = some (parts.map (·.1))) (hw : w.items? = some (parts.map (·.2)))
    (hplain : ∀ part ∈ parts.head?,
      PlainList.begins ['@'] part.1 = false ∧ PlainList.begins ['?'] part.1 = false)
    (htexts : ∀ part ∈ parts, part.1.SameText part.2)
    (h : ∀ before part after, parts = before ++ part :: after → ∀ y,
      ItemVisit E include_ (before.map (·.1)) x y → Redrafted part.1 part.2 y) : Redrafted v w x
  /-- The body that is repeated for every entry of a mapping; the other entries of the mapping in
  which it stands may be anything, as long as it is this one that is honoured. -/
  | each {x : Visit σ} {entries others : Mapping.Entries} {key clause : String}
    {body redrawn : Value} (hclause : KeyMark.ofChars key.toList = .each clause)
    (hv : honoured? (Value.text (E.host.shows x.state)) entries = some (.str key, body))
    (hw : honoured? (Value.text (E.host.shows x.state)) others = some (.str key, redrawn))
    (h : ∀ y, ContentVisit E include_ key clause body x y → Redrafted body redrawn y) :
    Redrafted (.map entries) (.map others) x
  /-- The case that a switch chooses; the other cases, and the other entries of the mapping in which
  the switch stands, may be anything. -/
  | switch {x : Visit σ} {entries others cases redrawn : Mapping.Entries} {key clause : String}
    (hclause : KeyMark.ofChars key.toList = .switch clause)
    (hv : honoured? (Value.text (E.host.shows x.state)) entries = some (.str key, .map cases))
    (hw : honoured? (Value.text (E.host.shows x.state)) others = some (.str key, .map redrawn))
    (hcases : cases.map (·.1) = redrawn.map (·.1))
    (h : ∀ case t, (E.evaluate x.scope clause >>= E.chooseCase (cases.map (·.1))).Ends x.state
        (some case) t →
      ∀ part ∈ Mapping.find? cases case, ∀ other ∈ Mapping.find? redrawn case,
        Redrafted part other ⟨x.scope, x.context, x.splice, t⟩) :
    Redrafted (.map entries) (.map others) x
  /-- A switch whose cases are no mapping, and the entries beside it. -/
  | badSwitch {x : Visit σ} {entries others : Mapping.Entries} {key clause : String}
    {cases redrawn : Value} (hclause : KeyMark.ofChars key.toList = .switch clause)
    (hv : honoured? (Value.text (E.host.shows x.state)) entries = some (.str key, cases))
    (hw : honoured? (Value.text (E.host.shows x.state)) others = some (.str key, redrawn))
    (hcases : ∀ rows, cases ≠ .map rows) (hredrawn : ∀ rows, redrawn ≠ .map rows)
    (htype : cases.typeName = redrawn.typeName) : Redrafted (.map entries) (.map others) x
  /-- The parts of entries; what is left out may have any value, and what is refused stays. -/
  | merge {x : Visit σ} {entries others : Mapping.Entries}
    {rows : List ((Value × Value) × Value × Value)}
    (hv : scanned (Value.text (E.host.shows x.state)) entries = rows.map (·.1))
    (hw : scanned (Value.text (E.host.shows x.state)) others = rows.map (·.2))
    (hmarks : ∀ row ∈ rows, takesPlace row.1.1 = false)
    (hkeys : ∀ row ∈ rows, row.1.1.SameText row.2.1)
    (hrefused : ∀ row ∈ rows, row.1.1.startsWith '/' = false →
      row.1.2.startsWith '/' = true ∨ row.2.2.startsWith '/' = true → row.1 = row.2)
    (h : ∀ before row after, rows = before ++ row :: after → ∀ made t,
      (runEntries E include_ (liveEntries (before.map (·.1))) x.scope []).Ends x.state made t →
        ∀ p y, EntryVisit E include_ row.1.1 x.scope t p y → Redrafted (p row.1) (p row.2) y) :
    Redrafted (.map entries) (.map others) x

variable {E include_}

/-- Beside the entry that is honoured there may be any others, as long as it still is. -/
theorem Redrafted.beside {x : Visit σ} {entries others : Mapping.Entries} {row : Value × Value}
    (hv : honoured? (Value.text (E.host.shows x.state)) entries = some row)
    (hw : honoured? (Value.text (E.host.shows x.state)) others = some row) :
    Redrafted E include_ (.map entries) (.map others) x := by
  obtain ⟨key, value⟩ := row
  have hplace : takesPlace key = true := by simpa using List.find?_some hv
  obtain ⟨source, clause, rfl, hmark | hmark⟩ := exists_mark hplace
  · exact .each hmark hv hw fun y _ => .same value y
  · cases value with
    | map cases =>
      refine .switch hmark hv hw rfl fun case t _ part hpart other hother => ?_
      rw [Option.mem_unique hpart hother]
      exact .same other _
    | _ => exact .badSwitch hmark hv hw (by simp) (by simp) rfl

/-- Beside the entry that is honoured there may be any others that come after it. -/
theorem Redrafted.beside_later {x : Visit σ} {entries before after : Mapping.Entries}
    {row : Value × Value}
    (hv : honoured? (Value.text (E.host.shows x.state)) entries = some row)
    (hbefore : ∀ other ∈ before, takesPlace other.1 = true →
      ¬ScanLE (Value.text (E.host.shows x.state)) other row)
    (hafter : ∀ other ∈ after, takesPlace other.1 = true →
      ScanLE (Value.text (E.host.shows x.state)) row other) :
    Redrafted E include_ (.map entries) (.map (before ++ row :: after)) x :=
  .beside hv (honoured?_eq_some (by simpa using List.find?_some hv) hbefore hafter)

/-- The value of an entry that is left out may be any. -/
theorem Redrafted.leftOut {key : Value} (hkey : key.startsWith '/' = true)
    (before after : Mapping.Entries) (v w : Value) (x : Visit σ) : Redrafted E include_
      (.map (before ++ (key, v) :: after)) (.map (before ++ (key, w) :: after)) x := by
  let rows := before.map (fun row => (row, row)) ++ ((key, v), (key, w)) ::
    after.map fun row => (row, row)
  have hrows : ∀ row ∈ rows, row.1 = row.2 ∨ row = ((key, v), (key, w)) := by
    simp only [rows, List.mem_append, List.mem_cons, List.mem_map]
    rintro _ (⟨_, _, rfl⟩ | rfl | ⟨_, _, rfl⟩) <;> simp
  have hentries : rows.map (·.1) = before ++ (key, v) :: after := by
    simp [rows, Function.comp_def]
  have hothers : rows.map (·.2) = before ++ (key, w) :: after := by
    simp [rows, Function.comp_def]
  have hkeys : ∀ row ∈ rows, row.2.1 = row.1.1 := fun row hrow => by
    rcases hrows row hrow with h | rfl
    · rw [h]
    · rfl
  obtain ⟨sorted, hperm, hv, hw⟩ := scanned_map (Value.text (E.host.shows x.state)) hkeys
  rw [hentries] at hv
  rw [hothers] at hw
  have hsame : ∀ row ∈ sorted, row.1.1.startsWith '/' = false → row.1 = row.2 :=
    fun row hrow hlive => by
      rcases hrows row (hperm.mem_iff.mp hrow) with h | rfl
      · exact h
      · rw [hkey] at hlive
        cases hlive
  cases hfind : sorted.find? fun row => takesPlace row.1.1 with
  | some row =>
    have hplace : takesPlace row.1.1 = true := by simpa using List.find?_some hfind
    have hlive : row.1.1.startsWith '/' = false := Bool.eq_false_iff.mpr fun hdead => by
      simp [not_takesPlace_of_dead hdead] at hplace
    have hboth : row.1 = row.2 := hsame row (List.mem_of_find?_eq_some hfind) hlive
    have hfirst : honoured? (Value.text (E.host.shows x.state)) (before ++ (key, v) :: after) =
        some row.1 := by
      rw [honoured?_of_scanned hv, hfind, Option.map_some]
    have hsecond : honoured? (Value.text (E.host.shows x.state)) (before ++ (key, w) :: after) =
        some row.1 := by
      have hplaces : ∀ row ∈ sorted, takesPlace row.2.1 = takesPlace row.1.1 :=
        fun row hrow => congrArg _ (hkeys row (hperm.mem_iff.mp hrow))
      rw [honoured?_of_scanned hw, List.find?_congr hplaces, hfind, hboth, Option.map_some]
    exact .beside hfirst hsecond
  | none =>
    refine .merge hv hw (fun row hrow => ?_) (fun row hrow => .inl ?_)
      (fun row hrow hlive _ => hsame row hrow hlive) ?_
    · simpa using List.find?_eq_none.mp hfind row hrow
    · exact (hkeys row (hperm.mem_iff.mp hrow)).symm
    · intro before row after hsplit made t _ p y hy
      rw [hsame row (hsplit ▸ by simp) hy.live]
      exact .same _ y

/-- By induction on what was redrafted: the same comes of a part at every visit. -/
theorem Redrafted.outcome_eq {v w : Value} {x : Visit σ} (h : Redrafted E include_ v w x) :
    x.outcome E include_ v = x.outcome E include_ w := by
  induction h with
  | same => rfl
  | loop hhead hv hw _ ih => exact outcome_loop hhead hv hw ih
  | condition hhead hv hw hpresent _ ih =>
    exact outcome_condition hhead hv hw fun value t hvalue =>
      option_map_congr (hpresent value t hvalue) (ih value t hvalue)
  | elements hv hw hplain htexts _ ih => exact outcome_elements hv hw hplain htexts ih
  | each hclause hv hw _ ih => exact outcome_each hclause hv hw ih
  | switch hclause hv hw hcases _ ih =>
    refine outcome_switch hclause hv hw hcases fun case t hcase =>
      option_map_congr ?_ (ih case t hcase)
    exact (Mapping.contains_eq_any _ case).trans
      (hcases ▸ (Mapping.contains_eq_any _ case).symm)
  | badSwitch hclause hv hw hcases hredrawn htype =>
    exact outcome_badSwitch hclause hv hw hcases hredrawn htype
  | merge hv hw hmarks hkeys hrefused _ ih => exact outcome_merge hv hw hmarks hkeys hrefused ih

variable (E)

/-- **Dead parts have no influence.**  A template that is redrafted comes to the same value or
failure, by the same events, and leaves the host in the same state. -/
theorem dead_parts_have_no_influence {depth : Nat} {template redrafted : Value} {scope : Scope}
    {s : σ} (h : Redrafted E (E.includer depth) template redrafted ⟨scope, .single, false, s⟩) :
    E.processWithin depth template scope s = E.processWithin depth redrafted scope s := by
  rw [processWithin_eq, processWithin_eq, emitted_eq, emitted_eq, Engine.run_eq, Engine.run_eq]
  exact bind_apply_congr h.outcome_eq fun _ _ _ => rfl

/-- In the body of a loop, the branch that no item chooses, the case that none selects and the entry
beside the switch may be replaced by what could not be processed. -/
theorem dead_parts_have_no_influence_in_loop :
    let E : Engine Library.State := ⟨Library.host, ["."], fun _ => none, fun _ _ => .ok .null⟩
    let cases (dead : Value) : Value := .map [(.str "a", .int 1), (.str "b", dead)]
    let looped (dead : Value) (key : String) : Value := .list [.str "@xs", .list [.str "?_",
      .map [(.str "?_", cases dead), (.str key, dead)], dead]]
    let scope : Scope := [.map [(.str "xs", .list [.str "a", .str "a"])]]
    Redrafted E (E.includer 0) (looped (.int 2) "z") (looped (.str "&((") "?z")
        ⟨scope, .single, false, default⟩ ∧
      E.processWithin 0 (looped (.int 2) "z") scope default =
        E.processWithin 0 (looped (.str "&((") "?z") scope default := by
  intro E cases looped scope
  have hswitch : ∀ s, Redrafted E (E.includer 0)
      (.map [(.str "?_", cases (.int 2)), (.str "z", .int 2)])
      (.map [(.str "?_", cases (.str "&((")), (.str "?z", .str "&((")])
      ⟨scope.enter (.str "a"), .list, false, s⟩ := fun s => by
    refine @Redrafted.switch _ E _ _ _ _ [(.str "a", .int 1), (.str "b", .int 2)]
      [(.str "a", .int 1), (.str "b", .str "&((")] "?_" "_" rfl ?_ ?_ rfl ?_
    · refine @honoured?_eq_some _ (.str "?_", cases (.int 2)) rfl [] [(.str "z", .int 2)]
        (by simp) ?_
      simp [takesPlace, Value.startsWith]
    · refine @honoured?_eq_some _ (.str "?_", cases (.str "&((")) rfl [] [(.str "?z", .str "&((")]
        (by simp) fun other hother _ => ?_
      cases List.mem_singleton.mp hother
      show (Rank.ofText "?_").le (Rank.ofText "?z") = true
      decide
    intro case t hcase part hpart other hother
    cases hcase.1
    cases hpart
    cases hother
    exact .same _ _
  have hcondition : ∀ s, Redrafted E (E.includer 0)
      (.list [.str "?_", .map [(.str "?_", cases (.int 2)), (.str "z", .int 2)], .int 2])
      (.list [.str "?_", .map [(.str "?_", cases (.str "&((")), (.str "?z", .str "&((")],
        .str "&(("])
      ⟨scope.enter (.str "a"), .list, false, s⟩ := fun s => by
    refine @Redrafted.condition _ E _ _ _ _ "?_" "_" false _ _ rfl rfl rfl ?_ ?_
    · intro value t hvalue
      cases hvalue.1
      rfl
    · intro value t hvalue branch hbranch other hother
      cases hvalue.1
      cases hbranch
      cases hother
      exact hswitch t
  have hredrafted : Redrafted E (E.includer 0) (looped (.int 2) "z") (looped (.str "&((") "?z")
      ⟨scope, .single, false, default⟩ := by
    refine @Redrafted.loop _ E _ _ _ _ "@xs" "xs" false [(_, _)] rfl rfl rfl ?_
    rintro (_ | ⟨_, _⟩) part after hparts y hy
    · cases hparts
      cases hy with
      | @item first rest _ _ item _ _ w hitems _ _ =>
        have hmem : item ∈ [Value.str "a", .str "a"] := by
          rw [show [Value.str "a", .str "a"] = first ++ item :: rest from
            Except.ok.inj hitems.1]
          simp
        obtain rfl : item = .str "a" := by simpa using hmem
        exact hcondition w
    · simp at hparts
  exact ⟨hredrafted, E.dead_parts_have_no_influence hredrafted⟩
/-- What stands under a slash among the cases of a switch is no dead part, and neither is what
stands in a key: the text of the key decides in which order entries are processed, whether it is
selected as a case, and with which words its entry is refused. -/
theorem slashed_cases_and_written_keys_have_influence :
    let E : Engine Library.State := ⟨Library.host, ["."], fun _ => none, fun _ _ => .ok .null⟩
    let key (dead : String) : Value := .tuple [.str "?t", .str "&x", .str dead]
    let scope : Scope := [.map [(.str "t", .bool true), (.str "x", .str "/a"), (.str "p", key "b")]]
    let result (template : Value) := (E.processWithin 0 template scope default).result
    let slashed (dead : Int) : Value := .map [(.str "?x", .map [(.str "/a", .int dead)])]
    let sorted (dead : String) : Value := .map [(key dead, .int 1), (key "c", .int 2)]
    let selected (dead : String) : Value := .map [(.str "?p", .map [(key dead, .int 1)])]
    let refused (dead : String) : Value := .map [(key dead, .str "/")]
    (result (slashed 1) = .ok (.int 1) ∧ result (slashed 2) = .ok (.int 2)) ∧
      (result (sorted "b") = .ok (.map [(.str "/a", .int 2)]) ∧
        result (sorted "d") = .ok (.map [(.str "/a", .int 1)])) ∧
      (result (selected "b") = .ok (.int 1) ∧ result (selected "d") = .ok .null) ∧
      result (refused "b") =
          .error (.engine (.commentedValue "('?t', '&x', 'b')" "'/'") none) ∧
        result (refused "d") =
          .error (.engine (.commentedValue "('?t', '&x', 'd')" "'/'") none) :=
  ⟨⟨rfl, rfl⟩, ⟨rfl, rfl⟩, ⟨rfl, rfl⟩, rfl, rfl⟩

end Engine

end TreeTemplate
