import TreeTemplate.Expr.Stored
import TreeTemplate.Proofs.Expr.PrintedExpr

/-! # The shape of expressions

The nodes of an expression that was read from a text obey one grammar of trees: what stands before
a selector, after a point, behind a negation or between operators is told by the node that it is a
part of (`Shaped`).  The reader makes no other nodes (`TokenGrammar.Chain.shaped`), and the printer
needs nothing else: a shaped expression has a printed text, and so has each part of it
(`WellShaped.print_ok`).
-/
namespace TreeTemplate.Expr

/-! ## The nodes of an expression -/

mutual

/-- The nodes of an expression, each one before its parts. -/
def nodes : Expr → List Expr
  | .literal v => [.literal v]
  | .lookup name => .lookup name :: nodes name
  | .group inner => .group inner :: nodes inner
  | .dot base selectors => .dot base selectors :: (nodes base ++ allNodes selectors)
  | .call callee args => .call callee args :: (nodes callee ++ allNodes args)
  | .method name args => .method name args :: allNodes args
  | .not operand => .not operand :: nodes operand
  | .chain first steps => .chain first steps :: (nodes first ++ stepNodes steps)
  | .malformed tree => [.malformed tree]
  | .surplus node tree => .surplus node tree :: nodes node
  | .broken cause => [.broken cause]

/-- The nodes of a row of expressions. -/
def allNodes : List Expr → List Expr
  | [] => []
  | e :: es => nodes e ++ allNodes es

/-- The nodes of the steps of a chain. -/
def stepNodes : List (ChainOp × Expr) → List Expr
  | [] => []
  | (_, e) :: rest => nodes e ++ stepNodes rest

end

theorem mem_nodes_self (e : Expr) : e ∈ nodes e := by
  cases e <;> simp [nodes]

-- By the recursion of `nodes`: a node of a part has its nodes there.
mutual

/-- The nodes of a node are nodes of the whole. -/
theorem nodes_subset : ∀ {e n : Expr}, n ∈ nodes e → nodes n ⊆ nodes e
  | .literal _, _, h | .malformed _, _, h | .broken _, _, h => by
    simp only [nodes, List.mem_singleton] at h
    exact h ▸ List.Subset.refl _
  | .lookup name, _, h | .group name, _, h | .not name, _, h | .surplus name _, _, h => by
    rw [nodes, List.mem_cons] at h
    rcases h with rfl | h
    · exact List.Subset.refl _
    · exact List.subset_cons_of_subset _ (nodes_subset h)
  | .dot base row, _, h | .call base row, _, h => by
    rw [nodes, List.mem_cons, List.mem_append] at h
    rcases h with rfl | h | h
    · exact List.Subset.refl _
    · exact List.subset_cons_of_subset _ (List.subset_append_of_subset_left _ (nodes_subset h))
    · exact List.subset_cons_of_subset _ (List.subset_append_of_subset_right _ (allNodes_subset h))
  | .method _ args, _, h => by
    rw [nodes, List.mem_cons] at h
    rcases h with rfl | h
    · exact List.Subset.refl _
    · exact List.subset_cons_of_subset _ (allNodes_subset h)
  | .chain first steps, _, h => by
    rw [nodes, List.mem_cons, List.mem_append] at h
    rcases h with rfl | h | h
    · exact List.Subset.refl _
    · exact List.subset_cons_of_subset _ (List.subset_append_of_subset_left _ (nodes_subset h))
    · exact List.subset_cons_of_subset _ (List.subset_append_of_subset_right _ (stepNodes_subset h))

theorem allNodes_subset : ∀ {es : List Expr} {n : Expr}, n ∈ allNodes es → nodes n ⊆ allNodes es
  | e :: es, _, h => by
    rw [allNodes, List.mem_append] at h
    rcases h with h | h
    · exact List.subset_append_of_subset_left _ (nodes_subset h)
    · exact List.subset_append_of_subset_right _ (allNodes_subset h)

theorem stepNodes_subset : ∀ {steps : List (ChainOp × Expr)} {n : Expr}, n ∈ stepNodes steps →
    nodes n ⊆ stepNodes steps
  | (_, e) :: rest, _, h => by
    rw [stepNodes, List.mem_append] at h
    rcases h with h | h
    · exact List.subset_append_of_subset_left _ (nodes_subset h)
    · exact List.subset_append_of_subset_right _ (stepNodes_subset h)

end

/-! ## Shapes -/

/-- What stands as a literal: a text that lacks a delimiter, or a number. -/
inductive IsLiteral : Value → Prop
  | text {s : String} {d : Char} (hd : d ∈ Token.delimiters) (hs : d ∉ s.toList) :
      IsLiteral (.str s)
  | integer (n : Int) : IsLiteral (.int n)
  | double (x : Binary64) : IsLiteral (.float x)

/-- What stands before a selector, or behind a mark for looking up a name that is computed. -/
inductive IsTerm : Expr → Prop
  | lookup (name : Expr) : IsTerm (.lookup name)
  | group (inner : Expr) : IsTerm (.group inner)
  | call (callee : Expr) (args : List Expr) : IsTerm (.call callee args)

/-- What stands after a point. -/
inductive IsSelector : Expr → Prop
  | text (s : String) : IsSelector (.literal (.str s))
  | integer (n : Int) : IsSelector (.literal (.int n))
  | group (inner : Expr) : IsSelector (.group inner)
  | method {f : List Char} (hf : Grammar.Name f) (args : List Expr) :
      IsSelector (.method (.str (String.ofList f)) args)

/-- What stands behind a negation and between operators, which is no chain. -/
inductive IsOperand : Expr → Prop
  | literal (v : Value) : IsOperand (.literal v)
  | not (operand : Expr) : IsOperand (.not operand)
  | dot (base : Expr) (selectors : List Expr) : IsOperand (.dot base selectors)
  | term {e : Expr} (h : IsTerm e) : IsOperand e

/-- What stands in parentheses and as an argument. -/
inductive IsExpression : Expr → Prop
  | operand {e : Expr} (h : IsOperand e) : IsExpression e
  | chain (first : Expr) (steps : List (ChainOp × Expr)) : IsExpression (.chain first steps)

/-- The operators that have a mark. -/
inductive IsOperator : ChainOp → Prop
  | whenTrue : IsOperator .whenTrue
  | whenFalse : IsOperator .whenFalse

/-- The nodes of the grammar of trees. -/
inductive Shaped : Expr → Prop
  | literal {v : Value} (h : IsLiteral v) : Shaped (.literal v)
  | name {f : List Char} (hf : Grammar.Name f) : Shaped (.lookup (ofQuoted f))
  | lookup {name : Expr} (h : IsTerm name) : Shaped (.lookup name)
  | group {inner : Expr} (h : IsExpression inner) : Shaped (.group inner)
  | dot {base : Expr} {selectors : List Expr} (hb : IsTerm base) (hne : selectors ≠ [])
      (hs : ∀ selector ∈ selectors, IsSelector selector) : Shaped (.dot base selectors)
  | call {f : List Char} {args : List Expr} (hf : Grammar.Name f)
      (ha : ∀ arg ∈ args, IsExpression arg) : Shaped (.call (named f) args)
  | method {f : List Char} {args : List Expr} (hf : Grammar.Name f)
      (ha : ∀ arg ∈ args, IsExpression arg) : Shaped (.method (.str (String.ofList f)) args)
  | not {operand : Expr} (h : IsOperand operand) : Shaped (.not operand)
  | chain {first : Expr} {steps : List (ChainOp × Expr)} (hf : IsOperand first) (hne : steps ≠ [])
      (hs : ∀ step ∈ steps, IsOperator step.1 ∧ IsOperand step.2) : Shaped (.chain first steps)

/-- Every node of an expression is one of the grammar of trees. -/
def WellShaped (e : Expr) : Prop := ∀ n ∈ e.nodes, n.Shaped

/-! ## The reader -/

theorem isLiteral_quoted {d : Char} {cs : List Char} (hd : d ∈ Token.delimiters) (hc : d ∉ cs) :
    IsLiteral (.str (String.ofList cs)) :=
  .text hd (by simpa using hc)

/-- No name holds a delimiter. -/
theorem delimiter_notMem {f : List Char} (hf : Grammar.Name f) : '"' ∉ f := by
  intro hmem
  cases f with
  | nil => cases hmem
  | cons c cs =>
    simp only [Grammar.Name, Text.isIdentifier, Bool.and_eq_true, List.all_eq_true] at hf
    rcases List.mem_cons.mp hmem with rfl | hmem
    · exact absurd hf.1 (by decide)
    · exact absurd (hf.2 _ hmem) (by decide)

theorem isLiteral_name {f : List Char} (hf : Grammar.Name f) : IsLiteral (.str (String.ofList f)) :=
  isLiteral_quoted (by decide : '"' ∈ Token.delimiters) (delimiter_notMem hf)

theorem isLiteral_number {cs : List Char} {v : Value} (h : Grammar.Number cs v) : IsLiteral v := by
  cases h with
  | whole h =>
    cases h with
    | mk => exact .integer _
  | decimal => exact .double _

theorem wellShaped_literal {v : Value} (h : IsLiteral v) : WellShaped (.literal v) := by
  simpa [WellShaped, nodes] using Shaped.literal h

theorem wellShaped_named {f : List Char} (hf : Grammar.Name f) : WellShaped (named f) :=
  List.forall_mem_cons.mpr ⟨.name hf, wellShaped_literal (isLiteral_name hf)⟩

theorem IsTerm.isExpression {e : Expr} (h : IsTerm e) : IsExpression e := .operand (.term h)

theorem isOperand_ofDot {base : Expr} (h : IsTerm base) (selectors : List Expr) :
    IsOperand (ofDot base selectors) := by
  cases selectors with
  | nil => exact .term h
  | cons => exact .dot _ _

theorem isExpression_ofChain {first : Expr} (h : IsOperand first) (steps : List (ChainOp × Expr)) :
    IsExpression (ofChain first steps) := by
  cases steps with
  | nil => exact .operand h
  | cons => exact .chain _ _

/-- A row of parts, each of one kind and well-shaped. -/
structure RowShaped (P : Expr → Prop) (es : List Expr) : Prop where
  kind : ∀ e ∈ es, P e
  shaped : ∀ n ∈ allNodes es, n.Shaped

theorem RowShaped.nil (P : Expr → Prop) : RowShaped P [] := ⟨by simp, by simp [allNodes]⟩

theorem RowShaped.cons {P : Expr → Prop} {e : Expr} {es : List Expr} (he : P e)
    (hs : e.WellShaped) (h : RowShaped P es) : RowShaped P (e :: es) :=
  ⟨List.forall_mem_cons.mpr ⟨he, h.kind⟩, List.forall_mem_append.mpr ⟨hs, h.shaped⟩⟩

/-- The steps of a chain, well-shaped. -/
structure StepsShaped (steps : List (ChainOp × Expr)) : Prop where
  kind : ∀ step ∈ steps, IsOperator step.1 ∧ IsOperand step.2
  shaped : ∀ n ∈ stepNodes steps, n.Shaped

theorem wellShaped_ofDot {base : Expr} {selectors : List Expr} (hb : IsTerm base)
    (h : base.WellShaped) (hs : RowShaped IsSelector selectors) :
    (ofDot base selectors).WellShaped := by
  cases selectors with
  | nil => exact h
  | cons =>
    exact List.forall_mem_cons.mpr
      ⟨.dot hb (by simp) hs.kind, List.forall_mem_append.mpr ⟨h, hs.shaped⟩⟩

theorem wellShaped_ofChain {first : Expr} {steps : List (ChainOp × Expr)} (hf : IsOperand first)
    (h : first.WellShaped) (hs : StepsShaped steps) : (ofChain first steps).WellShaped := by
  cases steps with
  | nil => exact h
  | cons =>
    exact List.forall_mem_cons.mpr
      ⟨.chain hf (by simp) hs.kind, List.forall_mem_append.mpr ⟨h, hs.shaped⟩⟩

theorem wellShaped_group {inner : Expr} (hi : IsExpression inner) (h : inner.WellShaped) :
    (group inner).WellShaped :=
  List.forall_mem_cons.mpr ⟨.group hi, h⟩

open TokenGrammar

-- By induction on the derivation: each rule makes one node, of parts that are of its kinds.
mutual

theorem TokenGrammar.Chain.shaped : ∀ {ts : List Token} {e : Expr}, Chain ts e →
    IsExpression e ∧ e.WellShaped
  | _, _, .steps ha hb => by
    obtain ⟨hkind, h⟩ := ha.shaped
    exact ⟨isExpression_ofChain hkind _, wellShaped_ofChain hkind h hb.shaped⟩

theorem TokenGrammar.Steps.shaped : ∀ {us : List Token} {steps : List (ChainOp × Expr)},
    Steps us steps → StepsShaped steps
  | _, _, .nil => ⟨by simp, by simp [stepNodes]⟩
  | _, _, @Steps.cons _ op _ _ _ _ hc ha hb => by
    obtain ⟨hkind, h⟩ := ha.shaped
    obtain ⟨hkinds, hs⟩ := hb.shaped
    have hop : IsOperator op := by
      cases hc with
      | whenTrue => exact .whenTrue
      | whenFalse => exact .whenFalse
    exact ⟨List.forall_mem_cons.mpr ⟨⟨hop, hkind⟩, hkinds⟩, List.forall_mem_append.mpr ⟨h, hs⟩⟩

theorem TokenGrammar.Alternative.shaped : ∀ {ts : List Token} {e : Expr}, Alternative ts e →
    IsOperand e ∧ e.WellShaped
  | _, _, .negation h => by
    obtain ⟨hkind, h⟩ := h.shaped
    exact ⟨.not _, List.forall_mem_cons.mpr ⟨.not hkind, h⟩⟩
  | _, _, .string hd hc => ⟨.literal _, wellShaped_literal (isLiteral_quoted hd hc)⟩
  | _, _, .number h => ⟨.literal _, wellShaped_literal (isLiteral_number h)⟩
  | _, _, .term ha hb => by
    obtain ⟨hkind, h⟩ := ha.shaped
    exact ⟨isOperand_ofDot hkind _, wellShaped_ofDot hkind h hb.shaped⟩

theorem TokenGrammar.Term.shaped : ∀ {ts : List Token} {e : Expr}, Term ts e →
    IsTerm e ∧ e.WellShaped
  | _, _, .group h => by
    obtain ⟨hkind, h⟩ := h.shaped
    exact ⟨.group _, wellShaped_group hkind h⟩
  | _, _, .call hf h => by
    obtain ⟨hkind, h⟩ := h.shaped
    exact ⟨.call _ _, List.forall_mem_cons.mpr
      ⟨.call hf hkind, List.forall_mem_append.mpr ⟨wellShaped_named hf, h⟩⟩⟩
  | _, _, .name hf => ⟨.lookup _, wellShaped_named hf⟩
  | _, _, .lookup h => by
    obtain ⟨hkind, h⟩ := h.shaped
    exact ⟨.lookup _, List.forall_mem_cons.mpr ⟨.lookup hkind, h⟩⟩

theorem TokenGrammar.Selectors.shaped : ∀ {us : List Token} {es : List Expr}, Selectors us es →
    RowShaped IsSelector es
  | _, _, .nil => .nil _
  | _, _, .cons ha hb => by
    obtain ⟨hkind, h⟩ := ha.shaped
    exact .cons hkind h hb.shaped

theorem TokenGrammar.Selector.shaped : ∀ {ts : List Token} {e : Expr}, Selector ts e →
    IsSelector e ∧ e.WellShaped
  | _, _, .group h => by
    obtain ⟨hkind, h⟩ := h.shaped
    exact ⟨.group _, wellShaped_group hkind h⟩
  | _, _, .method hf h => by
    obtain ⟨hkind, h⟩ := h.shaped
    exact ⟨.method hf _, List.forall_mem_cons.mpr ⟨.method hf hkind, h⟩⟩
  | _, _, .key hf => ⟨.text _, wellShaped_literal (isLiteral_name hf)⟩
  | _, _, .string hd hc => ⟨.text _, wellShaped_literal (isLiteral_quoted hd hc)⟩
  | _, _, .integer h => by
    have hliteral := wellShaped_literal (isLiteral_number (.whole h))
    cases h with
    | mk => exact ⟨.integer _, hliteral⟩
  | _, _, .subscript h => by
    obtain ⟨hkind, h⟩ := h.shaped
    exact ⟨.group _, wellShaped_group hkind.isExpression h⟩

theorem TokenGrammar.Arguments.shaped : ∀ {ts : List Token} {es : List Expr}, Arguments ts es →
    RowShaped IsExpression es
  | _, _, .none => .nil _
  | _, _, .some ha hb => by
    obtain ⟨hkind, h⟩ := ha.shaped
    exact .cons hkind h hb.shaped

theorem TokenGrammar.MoreArguments.shaped : ∀ {us : List Token} {es : List Expr},
    MoreArguments us es → RowShaped IsExpression es
  | _, _, .nil => .nil _
  | _, _, .cons ha hb => by
    obtain ⟨hkind, h⟩ := ha.shaped
    exact .cons hkind h hb.shaped

end

/-! ## The printer -/

/-- A text that lacks a delimiter, or a number, has a printed text. -/
theorem IsLiteral.print_ok (host : HostRef → String) {v : Value} (h : IsLiteral v) :
    ∃ cs, printLiteral host v = .ok cs := by
  cases h with
  | text hd hs =>
    obtain ⟨_, -, -, hprint⟩ := printString_of_notMem hd hs
    exact ⟨_, hprint⟩
  | integer | double => exact ⟨_, rfl⟩

theorem IsTerm.literalValue? {e : Expr} (h : IsTerm e) : literalValue? e = .ok none := by
  cases h <;> rfl

/-- No operand gets parentheses. -/
theorem IsOperand.not_isChain {e : Expr} (h : IsOperand e) : isChain e = .ok false := by
  cases h with
  | literal | not | dot => rfl
  | term h => cases h <;> rfl

/-- A selector is printed as it is, if not bare. -/
theorem IsSelector.print_ok (host : HostRef → String) {e : Expr} (h : IsSelector e)
    (hprint : ∃ cs, print host e = .ok cs) : ∃ cs, printSelector host e = .ok cs := by
  have hvalue : ∃ v, Expr.literalValue? e = .ok v := by cases h <;> exact ⟨_, rfl⟩
  obtain ⟨v, hv⟩ := hvalue
  simp only [printSelector, hv, bind, Except.bind]
  cases bareSelector? v with
  | some cs => exact ⟨cs, rfl⟩
  | none => exact hprint

section
variable (host : HostRef → String)

-- By the recursion of `print`: what stands in a part is told by the shape of the node before it.
mutual

theorem WellShaped.print_ok : ∀ {e : Expr}, e.WellShaped → ∃ cs, print host e = .ok cs
  | .literal _, h => by
    cases h _ (mem_nodes_self _) with
    | literal hv => exact hv.print_ok host
  | .lookup _, h => by
    obtain ⟨hn, h⟩ := List.forall_mem_cons.mp h
    cases hn with
    | name hf => exact ⟨_, print_named host hf⟩
    | lookup hname =>
      obtain ⟨cs, hcs⟩ := WellShaped.print_ok h
      exact ⟨'$' :: cs, by simp only [print, hname.literalValue?, bind, Except.bind, hcs]; rfl⟩
  | .group _, h => by
    obtain ⟨-, h⟩ := List.forall_mem_cons.mp h
    obtain ⟨cs, hcs⟩ := WellShaped.print_ok h
    exact ⟨_, by simp only [print, hcs, bind, Except.bind]; rfl⟩
  | .dot _ _, h => by
    obtain ⟨hn, h⟩ := List.forall_mem_cons.mp h
    obtain ⟨h, hs⟩ := List.forall_mem_append.mp h
    cases hn with
    | dot _ _ hkind =>
      obtain ⟨cs, hcs⟩ := WellShaped.print_ok h
      obtain ⟨ds, hds⟩ := printSelectors_ok ⟨hkind, hs⟩
      exact ⟨_, by simp only [print, hcs, hds, bind, Except.bind]; rfl⟩
  | .call _ _, h => by
    obtain ⟨-, h⟩ := List.forall_mem_cons.mp h
    obtain ⟨h, ha⟩ := List.forall_mem_append.mp h
    obtain ⟨cs, hcs⟩ := WellShaped.print_ok h
    obtain ⟨ds, hds⟩ := printArguments_ok ha
    exact ⟨_, by simp only [print, hcs, hds, bind, Except.bind]; rfl⟩
  | .method _ _, h => by
    obtain ⟨-, ha⟩ := List.forall_mem_cons.mp h
    obtain ⟨ds, hds⟩ := printArguments_ok ha
    exact ⟨_, by simp only [print, hds, bind, Except.bind]; rfl⟩
  | .not _, h => by
    obtain ⟨hn, h⟩ := List.forall_mem_cons.mp h
    cases hn with
    | not hkind =>
      obtain ⟨cs, hcs⟩ := WellShaped.print_ok h
      exact ⟨_, by simp only [print, hkind.not_isChain, hcs, bind, Except.bind]; rfl⟩
  | .chain _ _, h => by
    obtain ⟨hn, h⟩ := List.forall_mem_cons.mp h
    obtain ⟨h, hs⟩ := List.forall_mem_append.mp h
    cases hn with
    | chain hfirst _ hkind =>
      obtain ⟨cs, hcs⟩ := WellShaped.print_ok h
      obtain ⟨ds, hds⟩ := printSteps_ok ⟨hkind, hs⟩
      exact ⟨_, by simp only [print, hfirst.not_isChain, hcs, hds, bind, Except.bind]; rfl⟩
  | .malformed _, h | .surplus _ _, h | .broken _, h => nomatch h _ (mem_nodes_self _)

theorem printSelectors_ok : ∀ {es : List Expr}, RowShaped IsSelector es →
    ∃ cs, printSelectors host es = .ok cs
  | [], _ => ⟨[], rfl⟩
  | selector :: rest, h => by
    obtain ⟨hkind, hkinds⟩ := List.forall_mem_cons.mp h.kind
    obtain ⟨hshaped, hs⟩ := List.forall_mem_append.mp h.shaped
    obtain ⟨cs, hcs⟩ := hkind.print_ok host (WellShaped.print_ok hshaped)
    obtain ⟨ds, hds⟩ := printSelectors_ok ⟨hkinds, hs⟩
    exact ⟨_, by rw [printSelectors_cons]; simp only [hcs, hds, bind, Except.bind]; rfl⟩

theorem printArguments_ok : ∀ {es : List Expr}, (∀ n ∈ allNodes es, n.Shaped) →
    ∃ cs, printArguments host es = .ok cs
  | [], _ => ⟨[], rfl⟩
  | _ :: _, h => by
    obtain ⟨h, hs⟩ := List.forall_mem_append.mp h
    obtain ⟨cs, hcs⟩ := WellShaped.print_ok h
    obtain ⟨ds, hds⟩ := printMoreArguments_ok hs
    exact ⟨_, by simp only [printArguments, hcs, hds, bind, Except.bind]; rfl⟩

theorem printMoreArguments_ok : ∀ {es : List Expr}, (∀ n ∈ allNodes es, n.Shaped) →
    ∃ cs, printMoreArguments host es = .ok cs
  | [], _ => ⟨[], rfl⟩
  | _ :: _, h => by
    obtain ⟨h, hs⟩ := List.forall_mem_append.mp h
    obtain ⟨cs, hcs⟩ := WellShaped.print_ok h
    obtain ⟨ds, hds⟩ := printMoreArguments_ok hs
    exact ⟨_, by simp only [printMoreArguments, hcs, hds, bind, Except.bind]; rfl⟩

theorem printSteps_ok : ∀ {steps : List (ChainOp × Expr)}, StepsShaped steps →
    ∃ cs, printSteps host steps = .ok cs
  | [], _ => ⟨[], rfl⟩
  | (_, _) :: _, h => by
    obtain ⟨⟨-, hkind⟩, hkinds⟩ := List.forall_mem_cons.mp h.kind
    obtain ⟨hshaped, hs⟩ := List.forall_mem_append.mp h.shaped
    obtain ⟨cs, hcs⟩ := WellShaped.print_ok hshaped
    obtain ⟨ds, hds⟩ := printSteps_ok ⟨hkinds, hs⟩
    exact ⟨_, by simp only [printSteps, hkind.not_isChain, hcs, hds, bind, Except.bind]; rfl⟩

end

end

/-- A node of a known tag, with as many parts as its tag has. -/
inductive HasTag : Value → Prop
  | unary {tag : String} (h : tag ∈ unaryTags) (part : Value) : HasTag (node tag [part])
  | binary {tag : String} (h : tag ∈ binaryTags) (part parts : Value) :
      HasTag (node tag [part, parts])

/-- A node of the grammar of trees has a printer of its own. -/
theorem Shaped.hasTag {e : Expr} (h : e.Shaped) : HasTag e.toValue := by
  cases h with
  | literal | name | lookup | group | not => exact .unary (by decide) _
  | dot | call | method | chain => exact .binary (by decide) _ _

end TreeTemplate.Expr
