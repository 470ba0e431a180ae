import Mathlib.Data.List.Forall2
import TreeTemplate.Expr.Eval
import TreeTemplate.Host.Library
import TreeTemplate.Proofs.Expr.Shape

/-! # Trees kept as data

A tree that is kept as data is made of tuples, and a document format gives them back as lists, all
or some of them (`Relisted`).  A tree that was read from a text is read back as itself whichever of
its tuples have become lists (`WellShaped.ofValue_relisted`): its nodes, and the rows of selectors,
arguments and steps in them, are taken apart alike, and its literals hold no tuples.  So it is
evaluated and printed as it was (`persisted_trees_alike`).
-/
namespace TreeTemplate.Expr

/-- A value in which some of the tuples, at any depth, have become lists. -/
inductive Relisted : Value → Value → Prop
  | same (v : Value) : Relisted v v
  | tuple {items others : List Value} (h : List.Forall₂ Relisted items others) :
    Relisted (.tuple items) (.tuple others)
  | list {items others : List Value} (h : List.Forall₂ Relisted items others) :
    Relisted (.tuple items) (.list others)

mutual

/-- A value in which all tuples have become lists, as a format without tuples gives them back. -/
def listed : Value → Value
  | .tuple items => .list (listedItems items)
  | v => v

def listedItems : List Value → List Value
  | [] => []
  | v :: vs => listed v :: listedItems vs

end

mutual

theorem relisted_listed : ∀ v : Value, Relisted v (listed v)
  | .tuple items => .list (relisted_listedItems items)
  | .null | .bool _ | .int _ | .float _ | .str _ | .bytes _ | .moment _ | .list _ | .map _
  | .host _ => .same _

theorem relisted_listedItems : ∀ items : List Value,
    List.Forall₂ Relisted items (listedItems items)
  | [] => .nil
  | v :: vs => .cons (relisted_listed v) (relisted_listedItems vs)

end

namespace Relisted

variable {items : List Value} {u v w : Value} {s tag : String}

theorem eq_str (h : Relisted (.str s) w) : w = .str s := by
  cases h
  rfl

/-- A literal holds no tuple. -/
theorem eq_literal (hv : IsLiteral v) (h : Relisted v w) : w = v := by
  cases hv <;> cases h <;> rfl

/-- What became of the items of a tuple. -/
theorem exists_items (h : Relisted (.tuple items) w) :
    ∃ others, List.Forall₂ Relisted items others ∧ (w = .tuple others ∨ w = .list others) := by
  cases h with
  | same => exact ⟨items, List.forall₂_same.mpr fun v _ => .same v, .inl rfl⟩
  | tuple h => exact ⟨_, h, .inl rfl⟩
  | list h => exact ⟨_, h, .inr rfl⟩

/-- A node keeps its tag, and what is read of it is read of its parts. -/
theorem exists_parts (h : Relisted (node tag items) w) :
    ∃ others, List.Forall₂ Relisted items others ∧ ofValue w = ofNode w (.str tag :: others) := by
  obtain ⟨_, hall, hw⟩ := h.exists_items
  cases hall with
  | cons htag hparts =>
    obtain rfl := htag.eq_str
    refine ⟨_, hparts, ?_⟩
    rcases hw with rfl | rfl <;> rw [ofValue]

theorem exists_part (h : Relisted (node tag [v]) w) :
    ∃ part, Relisted v part ∧ ofValue w = ofNode w [.str tag, part] := by
  obtain ⟨_, hparts, hread⟩ := h.exists_parts
  cases hparts with
  | cons hpart hnil =>
    cases hnil
    exact ⟨_, hpart, hread⟩

theorem exists_pair (h : Relisted (node tag [u, v]) w) :
    ∃ part row, Relisted u part ∧ Relisted v row ∧ ofValue w = ofNode w [.str tag, part, row] := by
  obtain ⟨_, hparts, hread⟩ := h.exists_parts
  cases hparts with
  | cons hpart hrest =>
    obtain ⟨row, _, hrow, hnil, rfl⟩ := List.forall₂_cons_left_iff.mp hrest
    cases hnil
    exact ⟨_, row, hpart, hrow, hread⟩

/-- What is read of a step is read of its operator and its operand. -/
theorem exists_step (h : Relisted (.tuple [u, v]) w) :
    ∃ op operand, Relisted u op ∧ Relisted v operand ∧
      ofStep w = [(.ofValue op, ofValue operand)] := by
  obtain ⟨_, hparts, hw⟩ := h.exists_items
  cases hparts with
  | cons hop hrest =>
    obtain ⟨operand, _, hoperand, hnil, rfl⟩ := List.forall₂_cons_left_iff.mp hrest
    cases hnil
    refine ⟨_, operand, hop, hoperand, ?_⟩
    rcases hw with rfl | rfl <;> rw [ofStep]

/-- A row of selectors or arguments, and a row of steps, are read item by item. -/
theorem exists_row (h : Relisted (.tuple items) w) :
    ∃ others, List.Forall₂ Relisted items others ∧ ofRow w = ofValues others ∧
      ofSteps w = ofStepItems others := by
  obtain ⟨others, hall, hw⟩ := h.exists_items
  refine ⟨others, hall, ?_⟩
  rcases hw with rfl | rfl <;> exact ⟨by rw [ofRow], by rw [ofSteps]⟩

end Relisted

-- Along the recursion of `toValue`: each part of a node is read back before the node is.
mutual

/-- As data, a shaped expression is read as itself, whichever of its tuples have become lists. -/
theorem WellShaped.ofValue_relisted : ∀ {e : Expr} {v : Value}, e.WellShaped →
    Relisted e.toValue v → ofValue v = e
  | .literal w, v, h, hv => by
    obtain ⟨_, hw, hread⟩ := Relisted.exists_part hv
    cases h _ (mem_nodes_self _) with
    | literal hliteral => rw [hread, hw.eq_literal hliteral, ofNode]
  | .lookup name, v, h, hv => by
    obtain ⟨_, hname, hread⟩ := Relisted.exists_part hv
    rw [hread, ofNode, WellShaped.ofValue_relisted (List.forall_mem_cons.mp h).2 hname]
  | .group inner, v, h, hv => by
    obtain ⟨_, hinner, hread⟩ := Relisted.exists_part hv
    rw [hread, ofNode, WellShaped.ofValue_relisted (List.forall_mem_cons.mp h).2 hinner]
  | .not operand, v, h, hv => by
    obtain ⟨_, hoperand, hread⟩ := Relisted.exists_part hv
    rw [hread, ofNode, WellShaped.ofValue_relisted (List.forall_mem_cons.mp h).2 hoperand]
  | .dot base selectors, v, h, hv => by
    obtain ⟨hb, hs⟩ := List.forall_mem_append.mp (List.forall_mem_cons.mp h).2
    obtain ⟨_, _, hbase, hrow, hread⟩ := Relisted.exists_pair hv
    obtain ⟨_, hselectors, hofRow, -⟩ := hrow.exists_row
    rw [hread, ofNode, WellShaped.ofValue_relisted hb hbase, hofRow,
      ofValues_relisted hs hselectors]
  | .call callee args, v, h, hv => by
    obtain ⟨hc, ha⟩ := List.forall_mem_append.mp (List.forall_mem_cons.mp h).2
    obtain ⟨_, _, hcallee, hrow, hread⟩ := Relisted.exists_pair hv
    obtain ⟨_, hargs, hofRow, -⟩ := hrow.exists_row
    rw [hread, ofNode, WellShaped.ofValue_relisted hc hcallee, hofRow, ofValues_relisted ha hargs]
  | .method name args, v, h, hv => by
    obtain ⟨hn, ha⟩ := List.forall_mem_cons.mp h
    obtain ⟨_, _, hname, hrow, hread⟩ := Relisted.exists_pair hv
    obtain ⟨_, hargs, hofRow, -⟩ := hrow.exists_row
    cases hn with
    | method => rw [hread, hname.eq_str, ofNode, hofRow, ofValues_relisted ha hargs]
  | .chain first steps, v, h, hv => by
    obtain ⟨hn, h⟩ := List.forall_mem_cons.mp h
    obtain ⟨hf, hs⟩ := List.forall_mem_append.mp h
    obtain ⟨_, _, hfirst, hrow, hread⟩ := Relisted.exists_pair hv
    obtain ⟨_, hsteps, -, hofSteps⟩ := hrow.exists_row
    cases hn with
    | chain _ _ hkind =>
      rw [hread, ofNode, WellShaped.ofValue_relisted hf hfirst, hofSteps,
        ofStepItems_relisted ⟨hkind, hs⟩ hsteps]
  | .malformed _, _, h, _ | .surplus _ _, _, h, _ | .broken _, _, h, _ =>
    nomatch h _ (mem_nodes_self _)

theorem ofValues_relisted : ∀ {es : List Expr} {vs : List Value}, (∀ n ∈ allNodes es, n.Shaped) →
    List.Forall₂ Relisted (toValues es) vs → ofValues vs = es
  | [], _, _, .nil => by rw [ofValues]
  | _ :: _, _, h, .cons hv hvs => by
    obtain ⟨h, hs⟩ := List.forall_mem_append.mp h
    rw [ofValues, WellShaped.ofValue_relisted h hv, ofValues_relisted hs hvs]

theorem ofStepItems_relisted : ∀ {steps : List (ChainOp × Expr)} {vs : List Value},
    StepsShaped steps → List.Forall₂ Relisted (stepValues steps) vs → ofStepItems vs = steps
  | [], _, _, .nil => by rw [ofStepItems]
  | (op, operand) :: rest, _, h, .cons hv hvs => by
    obtain ⟨⟨hop, -⟩, hkinds⟩ := List.forall_mem_cons.mp h.kind
    obtain ⟨hshaped, hs⟩ := List.forall_mem_append.mp h.shaped
    obtain ⟨_, _, hname, hoperand, hstep⟩ := Relisted.exists_step hv
    have hread := WellShaped.ofValue_relisted hshaped hoperand
    have hrest := ofStepItems_relisted ⟨hkinds, hs⟩ hvs
    cases hop with
    | whenTrue | whenFalse =>
      obtain rfl := hname.eq_str
      rw [ofStepItems, hstep, hread, hrest]
      rfl

end

/-- **Trees kept as data are evaluated and printed alike.**  A text that is read as an expression has
a tree, and whichever of the tuples of the tree have become lists, at any depth and all of them or
some, what is read back is evaluated as the tree is: in every scope it comes to the same value or
error by the same calls.  It is printed as the same text, too, and always has one. -/
theorem persisted_trees_alike {text : String} {e : Expr} (h : parse? text = some e) {v : Value}
    (hv : Relisted e.toValue v) :
    ofValue e.toValue = e ∧
      (∀ {σ : Type} (H : Host σ) (scope : Scope),
        eval H scope (ofValue v) = eval H scope (ofValue e.toValue)) ∧
      ∀ host : HostRef → String, toText host (ofValue v) = toText host (ofValue e.toValue) ∧
        ∃ printed, toText host (ofValue v) = .ok printed := by
  obtain ⟨ts, hts, -⟩ := parse?_iff_spaced.mp h
  have hshaped : e.WellShaped := hts.shaped.2
  have htree : ofValue e.toValue = e := hshaped.ofValue_relisted (.same _)
  have hread : ofValue v = e := hshaped.ofValue_relisted hv
  refine ⟨htree, fun H scope => by rw [hread, htree], fun host => ⟨by rw [hread, htree], ?_⟩⟩
  obtain ⟨cs, hcs⟩ := hshaped.print_ok host
  rw [hread, toText, hcs]
  exact ⟨_, rfl⟩

/-- A tree whose tuples have all become lists, and one that still has its nodes but not its rows. -/
theorem persisted_trees_alike_rows :
    let tree : Value := node "expression" [node "dot" [node "env" [node "literal" [.str "a"]],
      .tuple [node "literal" [.int 1]]], .tuple [.tuple [.str "?", node "literal" [.str "b"]]]]
    let rows : Value := node "expression" [node "dot" [node "env" [node "literal" [.str "a"]],
      .list [node "literal" [.int 1]]], .list [.list [.str "?", node "literal" [.str "b"]]]]
    ∃ e, parse? "a.1 ? 'b'" = some e ∧ e.toValue = tree ∧
      eval Library.host [] (ofValue (listed tree)) = eval Library.host [] (ofValue tree) ∧
      eval Library.host [] (ofValue rows) = eval Library.host [] (ofValue tree) ∧
      toText (fun _ => "") (ofValue (listed tree)) = .ok "a.1 ? \"b\"" ∧
      toText (fun _ => "") (ofValue rows) = .ok "a.1 ? \"b\"" := by
  intro tree rows
  have hparse : parse? "a.1 ? 'b'" = some (.chain (.dot (.named ['a']) [.literal (.int 1)])
      [(.whenTrue, .literal (.str "b"))]) := by cbv
  have hlisted : Relisted tree (listed tree) := relisted_listed tree
  have hrows : Relisted tree rows :=
    .tuple (.cons (.same _) (.cons (.tuple (.cons (.same _) (.cons (.same _)
      (.cons (.list (.cons (.same _) .nil)) .nil)))) (.cons (.list (.cons (.list (.cons (.same _)
        (.cons (.same _) .nil))) .nil)) .nil)))
  have hprinted : toText (fun _ => "") (ofValue tree) = .ok "a.1 ? \"b\"" := by decide +kernel
  obtain ⟨-, heval, htext⟩ := persisted_trees_alike hparse hlisted
  obtain ⟨-, heval', htext'⟩ := persisted_trees_alike hparse hrows
  exact ⟨_, hparse, rfl, heval _ _, heval' _ _, (htext _).1.trans hprinted,
    (htext' _).1.trans hprinted⟩

end TreeTemplate.Expr
