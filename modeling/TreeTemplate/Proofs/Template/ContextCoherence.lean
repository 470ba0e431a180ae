import TreeTemplate.Host.Library
import TreeTemplate.Proofs.Template.Emission
import TreeTemplate.Proofs.Template.Ranks

/-! # Templates emit the same everywhere

Every node is coherent: what it emits is made by one run and then placed.  The induction
follows the nodes that take the place of a node, which are the branches of conditions, the
cases of switches and included documents; everything below other nodes stands in places of its
own.  What a template emits into a list, a merge or a single place is then told from one run
(`Engine.context_coherence`).
-/
namespace TreeTemplate

namespace Node

/-! ## Nodes as they are read -/

/-- A node as it is read from data: a value that stands for itself in the place of the node is
no list. -/
inductive WellRead : Node → Prop
  | verbatim {v : Value} (h : v.items? = none) : WellRead (.verbatim v)
  | leaf (source : String) (content : Leaf) : WellRead (.leaf source content)
  | loop (source : String) (dash : Bool) (clause : String) (body : List Node) :
    WellRead (.loop source dash clause body)
  | condition {source clause : String} {dash : Bool} {yes no : Option Node}
    (hyes : ∀ node ∈ yes, WellRead node) (hno : ∀ node ∈ no, WellRead node) :
    WellRead (.condition source dash clause yes no)
  | elements (forced : Bool) (parts : List Element) : WellRead (.elements forced parts)
  | each (key clause : String) (body : Node) : WellRead (.each key clause body)
  | switch {key clause : String} {cases : List (Value × Node)}
    (h : ∀ case ∈ cases, WellRead case.2) : WellRead (.switch key clause cases)
  | badSwitch (key typeName : String) : WellRead (.badSwitch key typeName)
  | merge (entries : List Entry) : WellRead (.merge entries)
  | mapping {given : (Value → String) → Node} (h : ∀ text, WellRead (given text)) :
    WellRead (.mapping given)

theorem wellRead_ofReadings {readings : List Reading}
    (h : ∀ node, .whole node ∈ readings → WellRead node) : WellRead (ofReadings readings) := by
  simp only [ofReadings]
  split
  · rename_i node hnode
    obtain ⟨reading, hmem, hr⟩ := List.exists_of_findSome?_eq_some hnode
    cases reading with
    | whole => exact h node (Option.some.inj hr ▸ hmem)
    | dead | live => cases hr
  · exact .merge _

theorem wellRead_ofRows {rows : List (Value × Reading)}
    (h : ∀ row ∈ rows, ∀ node, row.2 = .whole node → WellRead node) : WellRead (ofRows rows) := by
  refine .mapping fun text => wellRead_ofReadings fun node hnode => ?_
  obtain ⟨row, hrow, hr⟩ := exists_row_of_mem_inOrder hnode
  exact h row hrow node hr

mutual

theorem wellRead_ofValue : ∀ v : Value, WellRead (ofValue v)
  | .str s => .leaf s _
  | .list items | .tuple items => by
    simp only [ofValue]
    exact wellRead_ofItems items
  | .map entries => by
    simp only [ofValue]
    exact wellRead_ofRows (wellRead_readEntries entries)
  | .null | .bool _ | .int _ | .float _ | .bytes _ | .moment _ | .host _ => by
    simp only [ofValue]
    exact .verbatim rfl

theorem wellRead_ofItems : ∀ items : List Value, WellRead (ofItems items)
  | [] => .elements false []
  | v :: rest => by
    have hyes := wellRead_ofBranch rest
    have hno := wellRead_ofSecondBranch rest
    cases v with
    | str s =>
      simp only [ofItems]
      cases Head.ofChars s.toList with
      | loop dash clause => exact .loop s dash clause _
      | condition dash clause => exact .condition hyes hno
      | plain => exact .elements _ _
    | _ =>
      simp only [ofItems]
      exact .elements false _

theorem wellRead_ofBranch : ∀ items : List Value, ∀ node ∈ ofBranch items, WellRead node
  | [], _, h => by cases h
  | v :: _, _, h => by
    cases h
    exact wellRead_ofValue v

theorem wellRead_ofSecondBranch :
    ∀ items : List Value, ∀ node ∈ ofSecondBranch items, WellRead node
  | [], _, h => by cases h
  | _ :: rest, node, h => wellRead_ofBranch rest node h

theorem wellRead_readEntries : ∀ (entries : List (Value × Value)),
    ∀ row ∈ readEntries entries, ∀ node, row.2 = .whole node → WellRead node
  | [], _, h, _, _ => by cases h
  | (k, v) :: rest, row, h, node, hr => by
    rcases List.mem_cons.mp h with rfl | h
    · exact wellRead_readEntry (k, v) node hr
    · exact wellRead_readEntries rest row h node hr

theorem wellRead_readEntry : ∀ (entry : Value × Value) (node : Node),
    readEntry entry = .whole node → WellRead node
  | (k, v), node, h => by
    have hswitch := fun key clause => wellRead_ofSwitch key clause v
    have hlive : ∀ entry, unlessCommented k v entry ≠ .whole node := by
      intro entry h
      unfold unlessCommented at h
      split at h
      · split at h <;> cases h
      · cases h
    cases k with
    | str s =>
      simp only [readEntry] at h
      cases hmark : KeyMark.ofChars s.toList with
      | each clause =>
        rw [hmark] at h
        cases h
        exact .each s clause _
      | switch clause =>
        rw [hmark] at h
        cases h
        exact hswitch s clause
      | dead =>
        rw [hmark] at h
        cases h
      | merge | apply | none =>
        rw [hmark] at h
        exact absurd h (hlive _)
    | _ => exact absurd h (hlive _)

theorem wellRead_ofSwitch (key clause : String) : ∀ v : Value,
    WellRead (ofSwitch key clause v)
  | .map cases => by
    simp only [ofSwitch]
    exact .switch (wellRead_readCases cases)
  | .null | .bool _ | .int _ | .float _ | .str _ | .bytes _ | .moment _ | .list _ | .tuple _
  | .host _ => by
    simp only [ofSwitch]
    exact .badSwitch key _

theorem wellRead_readCases : ∀ (cases : List (Value × Value)),
    ∀ case ∈ readCases cases, WellRead case.2
  | [], _, h => by cases h
  | (_, v) :: rest, case, h => by
    rcases List.mem_cons.mp h with rfl | h
    · exact wellRead_ofValue v
    · exact wellRead_readCases rest case h

end

/-! ## Every node is coherent -/

section
variable {σ : Type} (E : Engine σ)

/-- The texts that are comments without a plus sign. -/
theorem ofChars_eq_comment {cs : List Char} :
    Leaf.ofChars cs = .comment false ↔ ∃ rest, cs = '#' :: rest ∧ rest.head? ≠ some '+' := by
  unfold Leaf.ofChars
  split <;> simp_all

/-- From a state, a node emits nothing but a comment that vanishes: it is one, or it leads to
one through branches, cases and documents.  What documents lead to is given. -/
inductive LeadsToComment (included : Value → Scope → σ → Prop) (scope : Scope) :
    Node → σ → Prop
  | comment (source : String) (s : σ) :
    LeadsToComment included scope (.leaf source (.comment false)) s
  | document {source clause : String} {dash : Bool} {doc : Value} {s t : σ}
    (hdoc : (E.document scope clause).Ends s doc t) (h : included doc scope t) :
    LeadsToComment included scope (.leaf source (.include dash clause)) s
  | whenTrue {source clause : String} {dash : Bool} {yes : Node} {no : Option Node} {v : Value}
    {s t : σ} (hv : (E.evaluate scope clause).Ends s v t) (hb : v.truthy = true)
    (h : LeadsToComment included scope yes t) :
    LeadsToComment included scope (.condition source dash clause (some yes) no) s
  | whenFalse {source clause : String} {dash : Bool} {yes : Option Node} {no : Node} {v : Value}
    {s t : σ} (hv : (E.evaluate scope clause).Ends s v t) (hb : v.truthy = false)
    (h : LeadsToComment included scope no t) :
    LeadsToComment included scope (.condition source dash clause yes (some no)) s
  | case {key clause : String} {cases : List (Value × Node)} {v chosen : Value}
    {case : Value × Node} {s t u : σ} (hv : (E.evaluate scope clause).Ends s v t)
    (hchosen : (E.chooseCase (cases.map (·.1)) v).Ends t (some chosen) u)
    (hcase : cases.find? (·.1.sameKey chosen) = some case)
    (h : LeadsToComment included scope case.2 u) :
    LeadsToComment included scope (.switch key clause cases) s
  | mapping {given : (Value → String) → Node} {s : σ}
    (h : LeadsToComment included scope (given (Value.text (E.host.shows s))) s) :
    LeadsToComment included scope (.mapping given) s

variable {included : Value → Scope → σ → Prop} {include_ : Includer σ}

theorem leadsToComment_condition {scope : Scope} {source clause : String} {dash : Bool}
    {yes no : Option Node} {s : σ} :
    LeadsToComment E included scope (.condition source dash clause yes no) s ↔
      ∃ v t, (E.evaluate scope clause).Ends s v t ∧
        ∃ node ∈ (if v.truthy then yes else no), LeadsToComment E included scope node t := by
  constructor
  · intro h
    cases h with
    | whenTrue hv hb h | whenFalse hv hb h => exact ⟨_, _, hv, _, by rw [hb]; rfl, h⟩
  · rintro ⟨v, t, hv, node, hnode, h⟩
    cases hb : v.truthy with
    | true =>
      rw [hb, if_pos rfl, Option.mem_def] at hnode
      subst hnode
      exact .whenTrue hv hb h
    | false =>
      rw [hb, if_neg Bool.false_ne_true, Option.mem_def] at hnode
      subst hnode
      exact .whenFalse hv hb h

theorem leadsToComment_switch {scope : Scope} {key clause : String}
    {cases : List (Value × Node)} {s : σ} :
    LeadsToComment E included scope (.switch key clause cases) s ↔
      ∃ v t, (E.evaluate scope clause).Ends s v t ∧
        ∃ chosen u, (E.chooseCase (cases.map (·.1)) v).Ends t chosen u ∧
          ∃ key ∈ chosen, ∃ case, cases.find? (·.1.sameKey key) = some case ∧
            LeadsToComment E included scope case.2 u := by
  constructor
  · intro h
    cases h with
    | case hv hchosen hcase h => exact ⟨_, _, hv, _, _, hchosen, _, rfl, _, hcase, h⟩
  · rintro ⟨v, t, hv, chosen, u, hu, key, rfl, case, hcase, h⟩
    exact .case hv hu hcase h

theorem leadsToComment_mapping {scope : Scope} {given : (Value → String) → Node} {s : σ} :
    LeadsToComment E included scope (.mapping given) s ↔
      LeadsToComment E included scope (given (Value.text (E.host.shows s))) s :=
  ⟨fun h => by cases h with | mapping h => exact h, .mapping⟩

theorem coherent_leaf (hi : ∀ doc scope, Coherent (included doc scope) (include_ doc scope))
    (scope : Scope) (source : String) (content : Leaf) :
    Coherent (LeadsToComment E included scope (.leaf source content))
      fun context splice => E.leaf include_ scope context splice content := by
  cases content with
  | direct dash clause =>
    simp only [Engine.leaf]
    exact (Coherent.bind_nowhere fun v => (Coherent.value v).forced dash).never fun s h => nomatch h
  | string clause =>
    simp only [Engine.leaf]
    exact (Coherent.bind_nowhere fun text => .scalar rfl).never fun s h => nomatch h
  | comment keep =>
    cases keep with
    | false =>
      simp only [Engine.leaf, Bool.not_false, Bool.and_true, decide_eq_true_eq]
      exact Coherent.comment.congr fun s => ⟨fun _ => .comment source s, fun _ => trivial⟩
    | true =>
      simp only [Engine.leaf, Bool.not_true, Bool.and_false, Bool.false_eq_true, if_false]
      exact (Coherent.scalar rfl).never fun s h => nomatch h
  | «include» dash clause =>
    simp only [Engine.leaf]
    refine (Coherent.bind fun doc => (hi doc scope).forced dash).congr fun s => ?_
    constructor
    · rintro ⟨doc, t, hdoc, h⟩
      exact .document hdoc h
    · intro h
      cases h with
      | document hdoc h => exact ⟨_, _, hdoc, h⟩
  | call dash clause =>
    simp only [Engine.leaf]
    exact (Coherent.bind_nowhere fun f => Coherent.bind_nowhere fun v =>
      (Coherent.value v).forced dash).never fun s h => nomatch h
  | plain segments =>
    simp only [Engine.leaf]
    exact (Coherent.bind_nowhere fun text => .scalar rfl).never fun s h => nomatch h

mutual

theorem coherent_run (hi : ∀ doc scope, Coherent (included doc scope) (include_ doc scope))
    (scope : Scope) : ∀ node : Node, WellRead node →
      Coherent (LeadsToComment E included scope node)
        fun context splice => run E include_ node scope context splice
  | .verbatim v, h => by
    simp only [run]
    cases h with
    | verbatim hv => exact (Coherent.scalar hv).never fun s h => nomatch h
  | .leaf source content, _ => by
    have hleaf := coherent_leaf E hi scope source content
    simp only [run]
    cases Engine.leafDirective? content with
    | some directive => exact hleaf.report (Run.emit_ends _)
    | none => exact hleaf
  | .loop source dash clause body, _ => by
    simp only [run]
    exact (Coherent.report (Run.emit_ends _) <| Coherent.bind_nowhere fun v =>
      Coherent.bind_nowhere fun items => Coherent.bind_nowhere fun result =>
        (Coherent.value (.list result)).forced dash).never fun s h => nomatch h
  | .condition source dash clause yes no, h => by
    obtain ⟨hyes, hno⟩ : (∀ node ∈ yes, WellRead node) ∧ ∀ node ∈ no, WellRead node := by
      cases h with
      | condition hyes hno => exact ⟨hyes, hno⟩
    have hyes := (coherent_branch hi scope yes hyes).forced dash
    have hno := (coherent_branch hi scope no hno).forced dash
    -- the branch is known once the value of the clause is
    have htaken : ∀ b : Bool, Coherent
        (fun s => ∃ node ∈ (if b then yes else no), LeadsToComment E included scope node s)
        fun context splice =>
          if b then runBranch E include_ yes scope context (splice || dash)
          else runBranch E include_ no scope context (splice || dash) := by
      intro b
      cases b with
      | true => exact hyes
      | false => exact hno
    simp only [run]
    exact (Coherent.report (Run.emit_ends _) <| Coherent.bind fun v : Value =>
      htaken v.truthy).congr fun s => (leadsToComment_condition E).symm
  | .elements forced parts, _ => by
    simp only [run]
    exact (Coherent.bind_nowhere fun result =>
      (Coherent.value (.list result)).forced forced).never fun s h => nomatch h
  | .each key clause body, _ => by
    simp only [run]
    exact (Coherent.report (Run.emit_ends _) <| Coherent.bind_nowhere fun v =>
      Coherent.bind_nowhere fun source => Coherent.bind_nowhere fun result =>
        Coherent.value (.map result)).never fun s h => nomatch h
  | .switch key clause cases, h => by
    have hcases : ∀ case ∈ cases, WellRead case.2 := by
      cases h with
      | switch h => exact h
    have hcase := fun chosen => coherent_case hi scope chosen cases hcases
    have hchosen : ∀ chosen : Option Value, Coherent
        (fun s => ∃ key ∈ chosen, ∃ case, cases.find? (·.1.sameKey key) = some case ∧
          LeadsToComment E included scope case.2 s)
        fun context splice =>
          match chosen with
          | none => pure []
          | some key => runCase E include_ cases key scope context splice := by
      intro chosen
      cases chosen with
      | none => exact Coherent.nothing.never fun s h => nomatch h
      | some key => exact (hcase key).congr fun s => by simp
    simp only [run]
    exact (Coherent.report (Run.emit_ends _) <| Coherent.bind fun v => Coherent.bind fun chosen =>
      hchosen chosen).congr fun s => (leadsToComment_switch E).symm
  | .badSwitch key typeName, _ => by
    simp only [run]
    exact (Coherent.report (Run.emit_ends _) (Coherent.fail _)).never fun s h => nomatch h
  | .merge entries, _ => by
    simp only [run]
    exact (Coherent.bind_nowhere fun result =>
      Coherent.value (.map result)).never fun s h => nomatch h
  | .mapping given, h => by
    have hgiven : ∀ text, WellRead (given text) := by
      cases h with
      | mapping h => exact h
    simp only [run]
    exact (Coherent.state fun s =>
      coherent_run hi scope _ (hgiven (Value.text (E.host.shows s)))).congr
      fun s => (leadsToComment_mapping E).symm

theorem coherent_branch (hi : ∀ doc scope, Coherent (included doc scope) (include_ doc scope))
    (scope : Scope) : ∀ branch : Option Node, (∀ node ∈ branch, WellRead node) →
      Coherent (fun s => ∃ node ∈ branch, LeadsToComment E included scope node s)
        fun context splice => runBranch E include_ branch scope context splice
  | none, _ => by
    simp only [runBranch]
    exact Coherent.nothing.never fun s h => nomatch h
  | some node, h => by
    simp only [runBranch]
    exact (coherent_run hi scope node (h node rfl)).congr fun s => by simp

theorem coherent_case (hi : ∀ doc scope, Coherent (included doc scope) (include_ doc scope))
    (scope : Scope) (chosen : Value) : ∀ cases : List (Value × Node),
      (∀ case ∈ cases, WellRead case.2) →
      Coherent (fun s => ∃ case, cases.find? (·.1.sameKey chosen) = some case ∧
          LeadsToComment E included scope case.2 s)
        fun context splice => runCase E include_ cases chosen scope context splice
  | [], _ => by
    simp only [runCase]
    exact Coherent.nothing.never fun s h => by simp at h
  | (key, node) :: rest, h => by
    have hnode := coherent_run hi scope node (h _ List.mem_cons_self)
    have hrest := coherent_case hi scope chosen rest fun case hc =>
      h case (List.mem_cons_of_mem _ hc)
    cases hk : key.sameKey chosen with
    | true =>
      simp only [runCase, hk, if_true]
      exact hnode.congr fun s => by simp [hk]
    | false =>
      simp only [runCase, hk, Bool.false_eq_true, if_false]
      exact hrest.congr fun s => by simp [hk]

end

end

end Node

namespace Engine

variable {σ : Type} (E : Engine σ)

/-- From a state, a template emits nothing but a comment that vanishes, with includes nested up
to a depth. -/
def LeadsToComment : Nat → Value → Scope → σ → Prop
  | 0, template, scope, s =>
    (Node.ofValue template).LeadsToComment E (fun _ _ _ => False) scope s
  | depth + 1, template, scope, s =>
    (Node.ofValue template).LeadsToComment E (LeadsToComment depth) scope s

/-- By induction on the depth: what is included at one depth is a template at the one below. -/
theorem coherent_emitted : ∀ (depth : Nat) (template : Value) (scope : Scope),
    Coherent (E.LeadsToComment depth template scope)
      fun context splice => E.emitted depth template scope context splice
  | 0, template, scope => by
    have hi : ∀ (doc : Value) (scope : Scope), Coherent (σ := σ) (fun _ => False)
        fun _ _ => Run.fail .unfinished := fun _ _ => Coherent.fail _
    simp only [emitted_eq]
    exact Node.coherent_run E hi scope _ (Node.wellRead_ofValue template)
  | depth + 1, template, scope => by
    simp only [emitted_eq, run_succ]
    exact Node.coherent_run E (coherent_emitted depth) scope _ (Node.wellRead_ofValue template)

/-- **A template emits the same everywhere.**  From a state of the host, it emits at most one
value into a single place, whether or not that place splices.  In every place it reports the same
events, leaves the same state and fails with the same failure.  A comment that vanishes is an
empty text in a single place and nothing in lists and merges.  Whatever else is emitted into a
single place is emitted into a merge as it is, into a list that splices with the items of a list
in its place, and into another list in one of these two ways. -/
theorem context_coherence (depth : Nat) (template : Value) (scope : Scope) (s : σ) :
    let out := fun context splice => E.emitted depth template scope context splice s
    ((∀ splice, out .single splice = out .single false) ∧
      ∀ vs, (out .single false).result = .ok vs → vs.length ≤ 1) ∧
    (∀ context splice, (out context splice).events = (out .single false).events ∧
      (out context splice).state = (out .single false).state ∧
      ∀ e, (out context splice).result = .error e ↔ (out .single false).result = .error e) ∧
    (E.LeadsToComment depth template scope s →
      (out .single false).result = .ok [.str ""] ∧ ∀ splice,
        (out .list splice).result = .ok [] ∧ (out .mapping splice).result = .ok []) ∧
    (¬E.LeadsToComment depth template scope s → ∀ vs, (out .single false).result = .ok vs →
      (∀ splice, (out .mapping splice).result = .ok vs) ∧
      (out .list true).result = .ok (Emission.spliced vs) ∧
      ((out .list false).result = .ok vs ∨
        (out .list false).result = .ok (Emission.spliced vs))) := by
  intro out
  obtain ⟨o, ho, hcomment⟩ := (E.coherent_emitted depth template scope).outcome s
  have hout : ∀ context splice, out context splice =
      ⟨o.result.map (Emission.place context splice), o.events, o.state⟩ := ho
  -- what is left is how one emission is placed
  simp only [hout, ← hcomment]
  cases ho : o.result with
  | error e => simp [Except.map]
  | ok emission =>
    simp only [Except.map, Except.ok.injEq, reduceCtorEq]
    refine ⟨⟨fun splice => ?_, ?_⟩, by simp, ?_, ?_⟩
    · rw [Emission.place_single]
    · rintro vs rfl
      exact Emission.length_place_single emission
    · rintro rfl
      simp [Emission.place]
    · rintro he vs rfl
      exact ⟨Emission.place_mapping he, Emission.place_list_true he, Emission.place_list_false he⟩

/-- An engine all of whose files hold a remark. -/
def ofRemarks : Engine Library.State :=
  ⟨Library.host, ["."], fun _ => some [], fun _ _ => .ok (.str "#gone")⟩

/-- A remark reached through a condition and an include vanishes in lists, and the values of a
name are spliced on request. -/
theorem context_coherence_remark :
    let scope : Scope := [.map [(.str "on", .bool true), (.str "xs", .list [.int 1, .int 2])]]
    let remark := Value.list [.str "?on", .str ".'remark'"]
    let out := fun template context splice =>
      (ofRemarks.emitted 1 template scope context splice default).result
    ofRemarks.LeadsToComment 1 remark scope default ∧
      out remark .single true = .ok [.str ""] ∧ out remark .list false = .ok [] ∧
    ¬ofRemarks.LeadsToComment 1 (.str "&xs") scope default ∧
      out (.str "&xs") .single false = .ok [.list [.int 1, .int 2]] ∧
      out (.str "&xs") .list true = .ok [.int 1, .int 2] := by
  intro scope remark out
  have hon : Expr.parse? "on" = some (.named ['o', 'n']) := by cbv
  have hxs : Expr.parse? "xs" = some (.named ['x', 's']) := by cbv
  have hname : Expr.parse? "'remark'" = some (.literal (.str "remark")) := by cbv
  have hcond : (ofRemarks.evaluate scope "on").Ends default (.bool true) default := by
    simp only [evaluate, Expr.evaluate, hon]
    exact ⟨rfl, rfl⟩
  have hdoc : (ofRemarks.document scope "'remark'").Ends default (.str "#gone") default := by
    simp only [document, insert, evaluate, Expr.evaluate, hname]
    exact ⟨rfl, rfl⟩
  have hremark : ofRemarks.LeadsToComment 1 remark scope default := by
    have hread : Node.ofValue remark =
        .condition "?on" false "on" (some (.leaf ".'remark'" (.include false "'remark'")))
          none := by
      rfl
    have hgone : ofRemarks.LeadsToComment 0 (.str "#gone") scope default :=
      Node.LeadsToComment.comment "#gone" default
    show Node.LeadsToComment ofRemarks (ofRemarks.LeadsToComment 0) scope (Node.ofValue remark)
      default
    rw [hread]
    exact .whenTrue hcond rfl (.document hdoc hgone)
  have hvalue : ¬ofRemarks.LeadsToComment 1 (.str "&xs") scope default := by
    intro h
    cases h
  have hlist : out (.str "&xs") .single false = .ok [.list [.int 1, .int 2]] := by
    have hread : Node.ofValue (.str "&xs") = .leaf "&xs" (.direct false "xs") := by rfl
    show ((ofRemarks.run 1 (Node.ofValue (.str "&xs")) scope .single false) default).result = _
    rw [hread, run_succ]
    simp only [Node.run, leaf, leafDirective?, evaluate, Expr.evaluate, hxs]
    rfl
  obtain ⟨⟨hsingle, -⟩, -, hcomment, -⟩ := ofRemarks.context_coherence 1 remark scope default
  obtain ⟨hempty, hgone⟩ := hcomment hremark
  obtain ⟨-, -, -, hother⟩ := ofRemarks.context_coherence 1 (.str "&xs") scope default
  refine ⟨hremark, ?_, (hgone false).1, hvalue, hlist, (hother hvalue _ hlist).2.1⟩
  rw [← hempty]
  exact congrArg Outcome.result (hsingle true)
end Engine
end TreeTemplate
