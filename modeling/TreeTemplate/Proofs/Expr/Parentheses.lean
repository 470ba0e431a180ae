import TreeTemplate.Host.Library
import TreeTemplate.Proofs.Expr.Spacing

/-! # Parentheses

A chain goes through its steps from left to right, and a selection through its selectors, so that
parentheses around the first parts of either only tell the order in which they are taken anyway
(`eval_group_chain`, `eval_group_dot`).  Around the last parts of a chain they tell another order:
from a value that does not take the step before the parentheses, the steps inside are not taken
either.  That is the same only where their operators are the one before the parentheses
(`eval_group_trailing`).  The laws are equations of runs, which say the same of the texts that are
read as these expressions (`parentheses_laws`).
-/
namespace TreeTemplate.Expr

section
variable {σ : Type} (H : Host σ) (scope : Scope)

/-! ## Steps and selectors in a row -/

theorem evalSteps_append (before after : List (ChainOp × Expr)) (v : Value) :
    evalSteps H scope (before ++ after) v =
      evalSteps H scope before v >>= evalSteps H scope after := by
  induction before generalizing v with
  | nil => simp only [List.nil_append, evalSteps, pure_bind]
  | cons step rest ih =>
    obtain ⟨op, operand⟩ := step
    rw [List.cons_append]
    simp only [evalSteps]
    by_cases htaken : op.taken v = true
    · simp only [htaken, if_true, bind_assoc, ih]
    · simp only [htaken, ih]
      rfl

theorem evalSelectors_append (before after : List Expr) (v : Value) :
    evalSelectors H scope (before ++ after) v =
      evalSelectors H scope before v >>= evalSelectors H scope after := by
  induction before generalizing v with
  | nil => simp only [List.nil_append, evalSelectors, pure_bind]
  | cons selector rest ih =>
    rw [List.cons_append]
    cases selector <;> simp only [evalSelectors, bind_assoc, ih]

/-- Steps of one operator, the first of which would not be taken, leave the value as it is. -/
theorem evalSteps_not_taken {op : ChainOp} {v : Value} (hv : op.taken v = false)
    {steps : List (ChainOp × Expr)} (h : ∀ step ∈ steps, step.1 = op) :
    evalSteps H scope steps v = pure v := by
  induction steps with
  | nil => simp only [evalSteps]
  | cons step rest ih =>
    obtain ⟨op', operand⟩ := step
    obtain ⟨rfl, hrest⟩ := List.forall_mem_cons.mp h
    simp only [evalSteps, hv, Bool.false_eq_true, if_false, ih hrest]

theorem eval_ofChain (first : Expr) (steps : List (ChainOp × Expr)) :
    eval H scope (ofChain first steps) = eval H scope first >>= evalSteps H scope steps := by
  cases steps with
  | nil =>
    have hend : evalSteps H scope [] = pure := funext fun v => by simp only [evalSteps]
    rw [ofChain_nil, hend, bind_pure]
  | cons => simp only [ofChain, List.isEmpty_cons, Bool.false_eq_true, if_false, eval]

theorem eval_ofDot (base : Expr) (selectors : List Expr) :
    eval H scope (ofDot base selectors) =
      eval H scope base >>= evalSelectors H scope selectors := by
  cases selectors with
  | nil =>
    have hend : evalSelectors H scope [] = pure := funext fun v => by simp only [evalSelectors]
    rw [ofDot_nil, hend, bind_pure]
  | cons => simp only [ofDot, List.isEmpty_cons, Bool.false_eq_true, if_false, eval]

theorem eval_group (inner : Expr) : eval H scope (.group inner) = eval H scope inner := by
  simp only [eval]

/-! ## Laws -/

/-- The first operands of a chain may stand in parentheses. -/
theorem eval_group_chain (first : Expr) (before after : List (ChainOp × Expr)) :
    eval H scope (ofChain (.group (ofChain first before)) after) =
      eval H scope (ofChain first (before ++ after)) := by
  rw [eval_ofChain, eval_group, eval_ofChain, eval_ofChain, bind_assoc]
  congr 1
  funext v
  exact (evalSteps_append H scope before after v).symm

/-- A step and the steps behind it may stand in parentheses if they have one operator. -/
theorem evalSteps_group {op : ChainOp} {after : List (ChainOp × Expr)}
    (h : ∀ step ∈ after, step.1 = op) (operand : Expr) (v : Value) :
    evalSteps H scope [(op, .group (ofChain operand after))] v =
      evalSteps H scope ((op, operand) :: after) v := by
  simp only [evalSteps]
  by_cases htaken : op.taken v = true
  · simp only [htaken, if_true]
    rw [eval_group, eval_ofChain]
    exact bind_pure _
  · rw [Bool.not_eq_true] at htaken
    simp only [htaken, Bool.false_eq_true, if_false]
    exact (evalSteps_not_taken H scope htaken h).symm

/-- The last operands of a chain may stand in parentheses if the operators between them are the one
before them. -/
theorem eval_group_trailing {op : ChainOp} {after : List (ChainOp × Expr)}
    (h : ∀ step ∈ after, step.1 = op) (first operand : Expr) (before : List (ChainOp × Expr)) :
    eval H scope (ofChain first (before ++ [(op, .group (ofChain operand after))])) =
      eval H scope (ofChain first (before ++ (op, operand) :: after)) := by
  rw [eval_ofChain, eval_ofChain]
  congr 1
  funext v
  rw [evalSteps_append, evalSteps_append]
  congr 1
  funext w
  exact evalSteps_group H scope h operand w

/-- The base and the first selectors of a selection may stand in parentheses. -/
theorem eval_group_dot (base : Expr) (before after : List Expr) :
    eval H scope (ofDot (.group (ofDot base before)) after) =
      eval H scope (ofDot base (before ++ after)) := by
  rw [eval_ofDot, eval_group, eval_ofDot, eval_ofDot, bind_assoc]
  congr 1
  funext v
  exact (evalSelectors_append H scope before after v).symm

end

/-! ## Parentheses in a text -/

/-- A row of tokens in parentheses. -/
def inParentheses (ts : List Token) : List Token := .mark '(' :: (ts ++ [.mark ')'])

/-- Texts that are read as expressions that in every scope come to the same value or error, by the
same calls and events, and leave the host in the same state. -/
def Interchangeable (text text' : String) : Prop :=
  ∃ e e', parse? text = some e ∧ parse? text' = some e' ∧
    ∀ {σ : Type} (H : Host σ) (scope : Scope), eval H scope e = eval H scope e'

open Token (Spaced)
open TokenGrammar

/-- Texts of derivable rows, of expressions with one meaning. -/
theorem interchangeable_of_spaced {text text' : String} {ts ts' : List Token} {e e' : Expr}
    (h : Chain ts e) (h' : Chain ts' e') (hs : Spaced ts text.toList)
    (hs' : Spaced ts' text'.toList)
    (heval : ∀ {σ : Type} (H : Host σ) (scope : Scope), eval H scope e = eval H scope e') :
    Interchangeable text text' :=
  ⟨e, e', parse?_iff_spaced.mpr ⟨ts, h, hs⟩, parse?_iff_spaced.mpr ⟨ts', h', hs'⟩, heval⟩

/-- **Parentheses that change nothing.**  In a chain of operands they may stand around the first
ones, however many these are and whatever the operators; and around the last ones, if the operators
among them are the one before them, as they are where all operators of the chain are the same.  In
a selection they may stand around the base and the first selectors.  White space is free. -/
theorem parentheses_laws :
    (∀ {ts us vs : List Token} {first : Expr} {before after : List (ChainOp × Expr)}
        {text text' : String},
      Alternative ts first → Steps us before → Steps vs after →
      Spaced (ts ++ us ++ vs) text.toList →
      Spaced (inParentheses (ts ++ us) ++ vs) text'.toList → Interchangeable text text') ∧
    (∀ {ts us ws vs : List Token} {first operand : Expr} {before after : List (ChainOp × Expr)}
        {c : Char} {op : ChainOp} {text text' : String},
      Alternative ts first → Steps us before → Grammar.Operator c op → Alternative ws operand →
      Steps vs after → (∀ step ∈ after, step.1 = op) →
      Spaced (ts ++ us ++ .mark c :: (ws ++ vs)) text.toList →
      Spaced (ts ++ us ++ .mark c :: inParentheses (ws ++ vs)) text'.toList →
        Interchangeable text text') ∧
    ∀ {ts us vs : List Token} {base : Expr} {before after : List Expr} {text text' : String},
      Term ts base → Selectors us before → Selectors vs after →
      Spaced (ts ++ us ++ vs) text.toList →
      Spaced (inParentheses (ts ++ us) ++ vs) text'.toList → Interchangeable text text' := by
  refine ⟨?_, ?_, ?_⟩
  · intro ts us vs first before after text text' hfirst hbefore hafter hs hs'
    have hplain : Chain (ts ++ us ++ vs) (ofChain first (before ++ after)) := by
      rw [List.append_assoc]
      exact .steps hfirst (hbefore.append hafter)
    have hgroup : Alternative (inParentheses (ts ++ us)) (.group (ofChain first before)) :=
      (Term.group (.steps hfirst hbefore)).alternative
    exact interchangeable_of_spaced hplain (.steps hgroup hafter) hs hs' fun H scope =>
      (eval_group_chain H scope first before after).symm
  · intro ts us ws vs first operand before after c op text text' hfirst hbefore hc hoperand hafter
      hops hs hs'
    have hplain : Chain (ts ++ us ++ .mark c :: (ws ++ vs))
        (ofChain first (before ++ (op, operand) :: after)) := by
      rw [List.append_assoc]
      exact .steps hfirst (hbefore.append (.cons hc hoperand hafter))
    have hgroup : Alternative (inParentheses (ws ++ vs)) (.group (ofChain operand after)) :=
      (Term.group (.steps hoperand hafter)).alternative
    have hparentheses : Chain (ts ++ us ++ .mark c :: inParentheses (ws ++ vs))
        (ofChain first (before ++ [(op, .group (ofChain operand after))])) := by
      have hstep := Steps.cons hc hgroup .nil
      rw [List.append_nil] at hstep
      rw [List.append_assoc]
      exact .steps hfirst (hbefore.append hstep)
    exact interchangeable_of_spaced hplain hparentheses hs hs' fun H scope =>
      (eval_group_trailing H scope hops first operand before).symm
  · intro ts us vs base before after text text' hbase hbefore hafter hs hs'
    have hplain : Chain (ts ++ us ++ vs) (ofDot base (before ++ after)) := by
      rw [List.append_assoc]
      exact (Alternative.term hbase (hbefore.append hafter)).chain
    have hgroup : Term (inParentheses (ts ++ us)) (.group (ofDot base before)) :=
      .group (Alternative.term hbase hbefore).chain
    exact interchangeable_of_spaced hplain (Alternative.term hgroup hafter).chain hs hs'
      fun H scope => (eval_group_dot H scope base before after).symm

/-- Parentheses around the first two of three operands, the last two of one operator, and a base
with its first selector.  Around the last two operands of a mixed chain they change its value. -/
theorem parentheses_laws_three_operands :
    Interchangeable "a ? b : c" "(a ? b): c" ∧ Interchangeable "a : b : c" "a:(b : c)" ∧
      Interchangeable "a.b.c" "( a.b ).c" ∧ ¬Interchangeable "a ? b : c" "a ? (b : c)" := by
  have hname (c : Char) (hc : Grammar.Name [c]) : Term [.name [c]] (named [c]) := .name hc
  have hoperand (c : Char) (hc : Grammar.Name [c]) := (hname c hc).alternative
  obtain ⟨hchain, htrailing, hdot⟩ := parentheses_laws
  refine ⟨?_, ?_, ?_, ?_⟩
  · exact hchain (hoperand 'a' rfl) (.cons .whenTrue (hoperand 'b' rfl) .nil)
      (.cons .whenFalse (hoperand 'c' rfl) .nil) (spaced_of_ofText? (by cbv))
      (spaced_of_ofText? (by cbv))
  · exact htrailing (hoperand 'a' rfl) .nil .whenFalse (hoperand 'b' rfl)
      (.cons .whenFalse (hoperand 'c' rfl) .nil) (by simp) (spaced_of_ofText? (by cbv))
      (spaced_of_ofText? (by cbv))
  · exact hdot (hname 'a' rfl) (.cons (.key (f := ['b']) rfl) .nil)
      (.cons (.key (f := ['c']) rfl) .nil) (spaced_of_ofText? (by cbv)) (spaced_of_ofText? (by cbv))
  · rintro ⟨e, e', he, he', heval⟩
    have hplain : parse? "a ? b : c" = some (.chain (.named ['a'])
        [(.whenTrue, .named ['b']), (.whenFalse, .named ['c'])]) := by cbv
    have hgrouped : parse? "a ? (b : c)" = some (.chain (.named ['a'])
        [(.whenTrue, .group (.chain (.named ['b']) [(.whenFalse, .named ['c'])]))]) := by cbv
    rw [hplain] at he
    rw [hgrouped] at he'
    cases he
    cases he'
    have hrun := congrFun (heval Library.host [.map [(.str "c", .int 1)]]) default
    have hresult := congrArg Outcome.result hrun
    cases hresult

end TreeTemplate.Expr
