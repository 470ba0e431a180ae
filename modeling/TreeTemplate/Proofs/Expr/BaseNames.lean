import TreeTemplate.Host.Library
import TreeTemplate.Proofs.Expr.Shape
import TreeTemplate.Proofs.Expr.Spacing
import TreeTemplate.Proofs.Scope.Agreement

/-! # The names that an expression looks up

An evaluation asks its scope for the keys of its look-ups and for nothing else (`AgreeOn`,
`eval_of_agreeOn`).  In a text a name is looked up where it stands in base position, which is
anywhere but right after a point: as a callee, as an argument, in parentheses, and after a `$`,
wherever that stands (`Token.inBase`).  A `$` in base position looks up a name that is computed.
The grammar is followed with the nodes that each of its rules makes (`Places`).  Where a text has
no `$` in base position it is evaluated alike in all scopes that agree on its names in base
position (`only_base_names_are_looked_up`).
-/
namespace TreeTemplate.Expr

/-! ## Look-ups -/

/-- The keys that a name may come to: a literal is its own, and anything else may be any. -/
def MayName : Expr → Value → Prop
  | .literal v, key => key = v
  | _, _ => True

/-- Two scopes give the same values to all that some nodes look up. -/
def AgreeOn (s t : Scope) (ns : List Expr) : Prop :=
  ∀ name, .lookup name ∈ ns → ∀ key, MayName name key → s.get key = t.get key

theorem AgreeOn.mono {s t : Scope} {ns ms : List Expr} (h : AgreeOn s t ms) (hsub : ns ⊆ ms) :
    AgreeOn s t ns := fun name hname => h name (hsub hname)

section
variable {σ : Type} (H : Host σ) {s t : Scope}

-- Along the recursion of the evaluator: a part agrees on its own nodes.
mutual

theorem eval_of_agreeOn : ∀ {e : Expr}, AgreeOn s t (nodes e) → eval H s e = eval H t e
  | .literal _, _ | .malformed _, _ | .surplus _ _, _ | .broken _, _ | .method _ _, _ => by
    simp only [eval]
  | .lookup name, h => by
    have hname := eval_of_agreeOn (h.mono (List.subset_cons_self _ _))
    have hget := h name List.mem_cons_self
    simp only [eval]
    cases name with
    | literal v => simp only [eval, pure_bind, hget v rfl]
    | _ => rw [hname, funext fun key => hget key trivial]
  | .group _, h => by
    simp only [eval]
    exact eval_of_agreeOn (h.mono (List.subset_cons_self _ _))
  | .dot base selectors, h => by
    have h := h.mono (List.subset_cons_self _ _)
    simp only [eval]
    rw [eval_of_agreeOn (h.mono (List.subset_append_left _ _)),
      evalSelectors_of_agreeOn (h.mono (List.subset_append_right _ _))]
  | .call callee args, h => by
    have h := h.mono (List.subset_cons_self _ _)
    simp only [eval]
    rw [eval_of_agreeOn (h.mono (List.subset_append_left _ _)),
      evalAll_of_agreeOn (h.mono (List.subset_append_right _ _))]
  | .not _, h => by
    simp only [eval]
    rw [eval_of_agreeOn (h.mono (List.subset_cons_self _ _))]
  | .chain first steps, h => by
    have h := h.mono (List.subset_cons_self _ _)
    simp only [eval]
    rw [eval_of_agreeOn (h.mono (List.subset_append_left _ _)),
      evalSteps_of_agreeOn (h.mono (List.subset_append_right _ _))]

theorem evalAll_of_agreeOn : ∀ {es : List Expr}, AgreeOn s t (allNodes es) →
    evalAll H s es = evalAll H t es
  | [], _ => by simp only [evalAll]
  | e :: es, h => by
    simp only [evalAll]
    rw [eval_of_agreeOn (h.mono (List.subset_append_left _ _)),
      evalAll_of_agreeOn (h.mono (List.subset_append_right _ _))]

theorem evalSelectors_of_agreeOn : ∀ {es : List Expr}, AgreeOn s t (allNodes es) →
    evalSelectors H s es = evalSelectors H t es
  | [], _ => by
    funext v
    simp only [evalSelectors]
  | e :: rest, h => by
    have he := h.mono (List.subset_append_left _ _)
    have hrest := evalSelectors_of_agreeOn (h.mono (List.subset_append_right _ _))
    funext v
    -- a method is no value of its own: only its arguments are evaluated
    cases e with
    | method name args =>
      simp only [evalSelectors]
      rw [evalAll_of_agreeOn (he.mono (List.subset_cons_self _ _)), hrest]
    | _ =>
      simp only [evalSelectors]
      rw [eval_of_agreeOn he, hrest]

theorem evalSteps_of_agreeOn : ∀ {steps : List (ChainOp × Expr)}, AgreeOn s t (stepNodes steps) →
    evalSteps H s steps = evalSteps H t steps
  | [], _ => by
    funext v
    simp only [evalSteps]
  | (op, operand) :: rest, h => by
    have hoperand := eval_of_agreeOn (h.mono (List.subset_append_left _ _))
    have hrest := evalSteps_of_agreeOn (h.mono (List.subset_append_right _ _))
    funext v
    simp only [evalSteps]
    rw [hoperand, hrest]

end

end

/-! ## Names in base position -/

/-- The tokens of a row that stand in base position: all but those right after a point.  `selector`
tells whether the row itself follows a point. -/
def Token.inBase (selector : Bool) : List Token → List Token
  | [] => []
  | t :: ts => if selector then inBase t.isPoint ts else t :: inBase t.isPoint ts

/-- What a row of tokens has in base position, against the nodes that are made of it: its names are
those of the nodes that look a name up, and a `$` stands for a node that looks up a computed one. -/
def Places (selector : Bool) (ts : List Token) (ns : List Expr) : Prop :=
  ∃ own, (∀ rest, Token.inBase selector (ts ++ rest) = own ++ Token.inBase false rest) ∧
    (∀ f, .name f ∈ own ↔ named f ∈ ns) ∧
    (.mark '$' ∈ own ↔ ∃ name, IsTerm name ∧ .lookup name ∈ ns)

/-- A node that looks nothing up. -/
def Aside (e : Expr) : Prop := ∀ name, e ≠ .lookup name

namespace Places

variable {selector : Bool} {ts us : List Token} {ns ms : List Expr} {e : Expr}

theorem nil : Places false [] [] := ⟨[], fun _ => rfl, by simp, by simp⟩

theorem append (h : Places selector ts ns) (h' : Places false us ms) :
    Places selector (ts ++ us) (ns ++ ms) := by
  obtain ⟨own, hown, hnames, hmarks⟩ := h
  obtain ⟨own', hown', hnames', hmarks'⟩ := h'
  refine ⟨own ++ own', fun rest => ?_, fun f => ?_, ?_⟩
  · rw [List.append_assoc, hown, hown', List.append_assoc]
  · rw [List.mem_append, List.mem_append, hnames, hnames']
  · simp only [List.mem_append, hmarks, hmarks', and_or_left, exists_or]

/-- A node that looks nothing up makes no difference. -/
theorem aside (he : Aside e) (h : Places selector ts ns) : Places selector ts (e :: ns) := by
  obtain ⟨own, hown, hnames, hmarks⟩ := h
  refine ⟨own, hown, fun f => ?_, ?_⟩
  · have hne : named f ≠ e := fun heq => he _ heq.symm
    simp [hnames, hne]
  · have hne : ∀ name, .lookup name ≠ e := fun name heq => he _ heq.symm
    simp [hmarks, hne]

theorem ofChain {first : Expr} {steps : List (ChainOp × Expr)}
    (h : Places selector ts (nodes first ++ stepNodes steps)) :
    Places selector ts (nodes (ofChain first steps)) := by
  cases steps with
  | nil => simpa only [stepNodes, List.append_nil, ofChain_nil] using h
  | cons => exact h.aside nofun

theorem ofDot {base : Expr} {selectors : List Expr}
    (h : Places selector ts (nodes base ++ allNodes selectors)) :
    Places selector ts (nodes (ofDot base selectors)) := by
  cases selectors with
  | nil => simpa only [allNodes, List.append_nil, ofDot_nil] using h
  | cons => exact h.aside nofun

/-- The point before a selector. -/
theorem point (h : Places true ts ns) : Places false (.mark '.' :: ts) ns := by
  obtain ⟨own, hown, hnames, hmarks⟩ := h
  refine ⟨.mark '.' :: own, fun rest => ?_, by simpa using hnames, by simpa using hmarks⟩
  rw [List.cons_append, List.cons_append, ← hown]
  rfl

/-- What stands right after a point is not looked up. -/
theorem selected {t : Token} (ht : t.isPoint = false) : Places true [t] [] := by
  refine ⟨[], fun rest => ?_, by simp, by simp⟩
  simp [Token.inBase, ht]

/-- A token that is neither a point, a name nor a `$` stands anywhere. -/
theorem token {t : Token} (hpoint : t.isPoint = false) (hname : ∀ f, .name f ≠ t)
    (hmark : .mark '$' ≠ t) : Places selector [t] [] := by
  cases selector with
  | true => exact selected hpoint
  | false =>
    refine ⟨[t], fun rest => ?_, by simpa using hname, by simpa using hmark⟩
    simp [Token.inBase, hpoint]

theorem mark {c : Char} (hpoint : c ≠ '.') (hmark : c ≠ '$') : Places selector [.mark c] [] :=
  token (by simpa [Token.isPoint] using hpoint) (by simp) (by simpa using hmark.symm)

theorem literal {t : Token} (hpoint : t.isPoint = false) (hname : ∀ f, .name f ≠ t)
    (hmark : .mark '$' ≠ t) (v : Value) : Places selector [t] (nodes (.literal v)) :=
  (token hpoint hname hmark).aside nofun

/-- A name in base position. -/
theorem name (f : List Char) : Places false [.name f] (nodes (named f)) := by
  refine ⟨[.name f], fun rest => rfl, fun g => ?_, ?_⟩
  · have hinj : String.ofList g = String.ofList f ↔ g = f :=
      ⟨String.ofList_injective, congrArg _⟩
    simp [nodes, named, hinj]
  · constructor
    · simp
    · rintro ⟨_, hterm, hname⟩
      simp only [named, nodes, List.mem_cons, lookup.injEq, reduceCtorEq, List.not_mem_nil,
        or_false] at hname
      subst hname
      cases hterm

/-- A `$` in base position. -/
theorem lookup (h : IsTerm e) : Places false [.mark '$'] [.lookup e] := by
  refine ⟨[.mark '$'], fun rest => rfl, fun f => ?_, ?_⟩
  · constructor
    · simp
    · intro hname
      obtain rfl : e = .literal (.str (String.ofList f)) := by simpa [named, eq_comm] using hname
      cases h
  · simpa using h

theorem parenthesised (h : Places false ts ns) :
    Places selector (.mark '(' :: (ts ++ [.mark ')'])) ns := by
  have hclose := h.append (mark (by decide) (by decide) : Places false [.mark ')'] [])
  rw [List.append_nil] at hclose
  exact (mark (by decide) (by decide) : Places selector [.mark '('] []).append hclose

end Places

open TokenGrammar

-- By induction on the derivation: each rule adds its own tokens and its own node.
mutual

theorem TokenGrammar.Chain.places : ∀ {ts : List Token} {e : Expr}, Chain ts e →
    Places false ts (nodes e)
  | _, _, .steps ha hb => (ha.places.append hb.places).ofChain

theorem TokenGrammar.Steps.places : ∀ {us : List Token} {steps : List (ChainOp × Expr)},
    Steps us steps → Places false us (stepNodes steps)
  | _, _, .nil => .nil
  | _, _, .cons hc ha hb => by
    cases hc with
    | whenTrue | whenFalse =>
      exact (Places.mark (by decide) (by decide)).append (ha.places.append hb.places)

theorem TokenGrammar.Alternative.places : ∀ {ts : List Token} {e : Expr}, Alternative ts e →
    Places false ts (nodes e)
  | _, _, .negation h => ((Places.mark (by decide) (by decide)).append h.places).aside nofun
  | _, _, .string _ _ => .literal rfl (by simp) (by simp) _
  | _, _, .number _ => .literal rfl (by simp) (by simp) _
  | _, _, .term ha hb => (ha.places.append hb.places).ofDot

theorem TokenGrammar.Term.places : ∀ {ts : List Token} {e : Expr}, Term ts e →
    Places false ts (nodes e)
  | _, _, .group h => h.places.parenthesised.aside nofun
  | _, _, .call _ h => ((Places.name _).append h.places.parenthesised).aside nofun
  | _, _, .name _ => .name _
  | _, _, .lookup h => (Places.lookup h.shaped.1).append h.places

theorem TokenGrammar.Selectors.places : ∀ {us : List Token} {es : List Expr}, Selectors us es →
    Places false us (allNodes es)
  | _, _, .nil => .nil
  | _, _, .cons ha hb => ha.places.point.append hb.places

theorem TokenGrammar.Selector.places : ∀ {ts : List Token} {e : Expr}, Selector ts e →
    Places true ts (nodes e)
  | _, _, .group h => h.places.parenthesised.aside nofun
  | _, _, .method _ h => ((Places.selected rfl).append h.places.parenthesised).aside nofun
  | _, _, .key _ => (Places.selected rfl).aside nofun
  | _, _, .string _ _ => .literal rfl (by simp) (by simp) _
  | _, _, .integer _ => .literal rfl (by simp) (by simp) _
  | _, _, .subscript h => ((Places.selected rfl).append h.places).aside nofun

theorem TokenGrammar.Arguments.places : ∀ {ts : List Token} {es : List Expr}, Arguments ts es →
    Places false ts (allNodes es)
  | _, _, .none => .nil
  | _, _, .some ha hb => ha.places.append hb.places

theorem TokenGrammar.MoreArguments.places : ∀ {us : List Token} {es : List Expr},
    MoreArguments us es → Places false us (allNodes es)
  | _, _, .nil => .nil
  | _, _, .cons ha hb =>
    (Places.mark (by decide) (by decide)).append (ha.places.append hb.places)

end

/-- The tokens of a text in base position, and what is looked up in evaluating it. -/
theorem Terminals.inBase {text : String} {e : Expr} {ts : List Token} (h : Terminals text e ts) :
    (∀ f, .name f ∈ Token.inBase false ts ↔ named f ∈ e.nodes) ∧
      (.mark '$' ∈ Token.inBase false ts ↔ ∃ name, IsTerm name ∧ .lookup name ∈ e.nodes) := by
  obtain ⟨own, hown, hnames, hmarks⟩ := h.derives.places
  have heq : Token.inBase false ts = own := by simpa [Token.inBase] using hown []
  rw [heq]
  exact ⟨hnames, hmarks⟩

/-- Without a computed name, to agree on the names in base position is enough. -/
theorem Terminals.agreeOn {text : String} {e : Expr} {ts : List Token} (h : Terminals text e ts)
    (hmark : .mark '$' ∉ Token.inBase false ts) {s t : Scope}
    (hagree : ∀ f, .name f ∈ Token.inBase false ts →
      s.get (.str (String.ofList f)) = t.get (.str (String.ofList f))) :
    AgreeOn s t e.nodes := by
  obtain ⟨hnames, hmarks⟩ := h.inBase
  intro name hname key hkey
  cases h.derives.shaped.2 _ hname with
  | @name f _ =>
    obtain rfl : key = .str (String.ofList f) := hkey
    exact hagree f ((hnames f).mpr hname)
  | lookup hterm => exact absurd (hmarks.mpr ⟨name, hterm, hname⟩) hmark

/-- **Only the names in base position are looked up.**  In a text that is read as an expression, the
names that do not stand right after a point are those that its nodes look up, and a `$` that does
not stand right after a point looks up a name that is computed.  Without such a `$`, the text is
evaluated alike in scopes that give these names the same values, whatever else they bind: with the
same value or error, the same calls, and the same state of the host after it.  So a frame that binds
none of these names can be left out: what stands as a key, as the name of a method or in a string is
never asked for. -/
theorem only_base_names_are_looked_up {text : String} {e : Expr} (h : parse? text = some e) :
    ∃ ts, Terminals text e ts ∧
      (∀ f, .name f ∈ Token.inBase false ts ↔ named f ∈ e.nodes) ∧
      (.mark '$' ∈ Token.inBase false ts ↔ ∃ name, IsTerm name ∧ .lookup name ∈ e.nodes) ∧
      (.mark '$' ∉ Token.inBase false ts → ∀ {σ : Type} (H : Host σ),
        (∀ s t : Scope, (∀ f, .name f ∈ Token.inBase false ts →
            s.get (.str (String.ofList f)) = t.get (.str (String.ofList f))) →
          evaluate H s text = evaluate H t text) ∧
        ∀ (frame : Value) (scope : Scope), (∀ f, .name f ∈ Token.inBase false ts →
            Scope.ownValue? frame (.str (String.ofList f)) = none) →
          evaluate H (frame :: scope) text = evaluate H scope text) := by
  obtain ⟨ts, hc, hs⟩ := parse?_iff_spaced.mp h
  have hts : Terminals text e ts := ⟨hc, hs⟩
  refine ⟨ts, hts, hts.inBase.1, hts.inBase.2, fun hmark σ H => ?_⟩
  have hsame : ∀ s t : Scope, (∀ f, .name f ∈ Token.inBase false ts →
      s.get (.str (String.ofList f)) = t.get (.str (String.ofList f))) →
      evaluate H s text = evaluate H t text := by
    intro s t hagree
    simp only [evaluate, h, eval_of_agreeOn H (hts.agreeOn hmark hagree)]
  refine ⟨hsame, fun frame scope hframe => hsame _ _ fun f hf => ?_⟩
  rw [Scope.get_cons, hframe f hf, Option.getD_none]

/-- The callee, its argument and the name under the `$` are looked up.  The keys, the name of the
method and the text in quotes are bound in one of two scopes only. -/
theorem only_base_names_are_looked_up_keys :
    let text := "f(x).y.$k.m('z')"
    let base : List (Value × Value) := [(.str "f", .host (.function "wrap")), (.str "x", .int 1),
      (.str "k", .str "y")]
    let keys : List (Value × Value) := [(.str "y", .int 2), (.str "m", .null), (.str "z", .int 3)]
    (parse? text).isSome = true ∧ evaluate Library.host [.map keys, .map base] text =
      evaluate Library.host [.map base] text := by
  intro text base keys
  have hparse : parse? "f(x).y.$k.m('z')" = some (.dot (.call (.named ['f']) [.named ['x']])
      [.literal (.str "y"), .group (.named ['k']),
        .method (.str "m") [.literal (.str "z")]]) := by cbv
  obtain ⟨ts, hts, -, -, hsame⟩ := only_base_names_are_looked_up hparse
  have htokens : Token.ofText? "f(x).y.$k.m('z')".toList = some [.name ['f'], .mark '(',
      .name ['x'], .mark ')', .mark '.', .name ['y'], .mark '.', .mark '$', .name ['k'], .mark '.',
      .name ['m'], .mark '(', .quoted '\'' ['z'], .mark ')'] := by cbv
  have hscanned := hts.scanned
  rw [htokens] at hscanned
  cases hscanned
  refine ⟨by rw [hparse]; rfl, (hsame (by decide) Library.host).2 _ _ fun f hf => ?_⟩
  have hbase : f = ['f'] ∨ f = ['x'] ∨ f = ['k'] := by
    simpa [Token.inBase, Token.isPoint] using hf
  rcases hbase with rfl | rfl | rfl <;> decide +kernel

end TreeTemplate.Expr
