import TreeTemplate.Host.Library
import TreeTemplate.Proofs.Template.Correspondence
import TreeTemplate.Proofs.Template.PlainList

/-! # Two ways to ask for a splice

What an item makes is spliced into the list around it when a mark `<` stands before the item, and
when the item has a dash after its own marker.  The mark is a request of the place: it is handed
down to the item, and on through branches and included documents to whatever these emit.  The dash
is read by the item itself, which adds it to the request that it was given.  With either the item
emits the same (`Engine.emitted_dashed`).

In a list the mark has no turn of its own, so it leaves the turns around it as they are, and the
item has its turn after the elements since the one before.  Where nothing else is pending in these,
the two lists have the same turns (`Engine.two_ways_to_splice`).
-/
namespace TreeTemplate

/-- An item that can ask for a splice, without and with the dash that does: a value, an included
document, a loop or a condition. -/
inductive Dashed : Value → Value → Prop
  | text {marker : Char} {clause : List Char} (hmarker : marker ∈ ['&', ',', '.'])
    (hclause : clause.head? ≠ some '-') :
    Dashed (.str (String.ofList (marker :: clause)))
      (.str (String.ofList (marker :: '-' :: clause)))
  | list {marker : Char} {clause : List Char} (hmarker : marker ∈ ['@', '?'])
    (hclause : clause.head? ≠ some '-') (body : List Value) :
    Dashed (.list (.str (String.ofList (marker :: clause)) :: body))
      (.list (.str (String.ofList (marker :: '-' :: clause)) :: body))
  | tuple {marker : Char} {clause : List Char} (hmarker : marker ∈ ['@', '?'])
    (hclause : clause.head? ≠ some '-') (body : List Value) :
    Dashed (.tuple (.str (String.ofList (marker :: clause)) :: body))
      (.tuple (.str (String.ofList (marker :: '-' :: clause)) :: body))

namespace Leaf

theorem splitDash_of_head {clause : List Char} (h : clause.head? ≠ some '-') :
    splitDash clause = (false, clause) := by
  fun_cases splitDash clause with
  | case1 cs => simp at h
  | case2 => rfl

end Leaf

namespace PlainList

/-- An element that is an item wherever it stands, also as the first. -/
structure IsItem (x : Value) : Prop where
  noStop : isStop x = false
  noMark : isMark x = false
  noHead : begins ['@'] x = false ∧ begins ['?'] x = false
  unforced : asksSplice x = false

theorem isItem_of_not_str {x : Value} (h : ∀ s, x ≠ .str s) : IsItem x := by
  cases x with
  | str s => exact absurd rfl (h s)
  | _ => exact ⟨rfl, rfl, ⟨rfl, rfl⟩, rfl⟩

theorem isItem_of_marker {marker : Char} (h : marker ∈ ['&', ',', '.']) (cs : List Char) :
    IsItem (.str (String.ofList (marker :: cs))) := by
  simp only [List.mem_cons, List.not_mem_nil, or_false] at h
  constructor <;> rcases h with rfl | rfl | rfl <;>
    simp [isStop, isMark, isSkip, isSplice, asksSplice, begins, List.isPrefixOf]

/-- Whether a list is plain and asks to be spliced is up to what stands before an element that
decides neither. -/
theorem head_append {before : List Value} {y : Value} (rest : List Value)
    (hbefore : ∀ z ∈ before.head?, begins ['@'] z = false ∧ begins ['?'] z = false)
    (hhead : begins ['@'] y = false ∧ begins ['?'] y = false) (hforced : asksSplice y = false) :
    (∀ z ∈ (before ++ y :: rest).head?, begins ['@'] z = false ∧ begins ['?'] z = false) ∧
      (before ++ y :: rest).head?.any asksSplice = before.head?.any asksSplice := by
  cases before with
  | nil =>
    refine ⟨fun z hz => ?_, by simpa using hforced⟩
    cases hz
    exact hhead
  | cons => exact ⟨hbefore, rfl⟩

/-- Nothing is pending for the item after some elements: it is not left out, and no function waits
for it. -/
structure NothingPending (elements : List Value) : Prop where
  noSkip : skipped elements = false
  noCapture : ∀ y ∈ (turns [] elements).2, capture? y = none

end PlainList

theorem Dashed.isItem {x x' : Value} (h : Dashed x x') :
    PlainList.IsItem x ∧ PlainList.IsItem x' := by
  cases h with
  | text hmarker =>
    exact ⟨PlainList.isItem_of_marker hmarker _, PlainList.isItem_of_marker hmarker _⟩
  | list | tuple =>
    exact ⟨PlainList.isItem_of_not_str nofun, PlainList.isItem_of_not_str nofun⟩

namespace Node

variable {σ : Type} (E : Engine σ) (include_ : Includer σ)

/-- A dash in a leaf comes to the same as a request of its place. -/
theorem run_ofText_dashed {marker : Char} {clause : List Char}
    (hmarker : marker ∈ ['&', ',', '.']) (hclause : clause.head? ≠ some '-') (scope : Scope)
    (context : Context) (splice : Bool) :
    (Run.sameToHost σ).rel
      ((ofText (String.ofList (marker :: clause))).run E include_ scope context true)
      ((ofText (String.ofList (marker :: '-' :: clause))).run E include_ scope context splice) := by
  have hdash : Leaf.splitDash ('-' :: clause) = (true, clause) := rfl
  have hnone := Leaf.splitDash_of_head hclause
  simp only [List.mem_cons, List.not_mem_nil, or_false] at hmarker
  rcases hmarker with rfl | rfl | rfl <;>
    simp only [ofText, String.toList_ofList, Leaf.ofChars, hdash, hnone, Node.run,
      Engine.leafDirective?, Engine.leaf, Bool.true_or, Bool.or_true]
  all_goals exact Run.Congruence.first _ (fun _ _ => rfl) _

/-- A dash at the head of a list comes to the same as a request of its place. -/
theorem run_ofItems_dashed {marker : Char} {clause : List Char} (hmarker : marker ∈ ['@', '?'])
    (hclause : clause.head? ≠ some '-') (body : List Value) (scope : Scope) (context : Context)
    (splice : Bool) :
    (Run.sameToHost σ).rel
      ((ofItems (.str (String.ofList (marker :: clause)) :: body)).run E include_ scope context
        true)
      ((ofItems (.str (String.ofList (marker :: '-' :: clause)) :: body)).run E include_ scope
        context splice) := by
  have hdash : Leaf.splitDash ('-' :: clause) = (true, clause) := rfl
  have hnone := Leaf.splitDash_of_head hclause
  simp only [List.mem_cons, List.not_mem_nil, or_false] at hmarker
  rcases hmarker with rfl | rfl <;>
    simp only [ofItems, String.toList_ofList, Head.ofChars, hdash, hnone, Node.run, Bool.true_or,
      Bool.or_true]
  all_goals exact Run.Congruence.first _ (fun _ _ => rfl) _

end Node

namespace Engine

open PlainList Run

variable {σ : Type} (E : Engine σ)

/-- With the dash an item emits what it emits without, where a splice is asked for anyway. -/
theorem emitted_dashed {x x' : Value} (h : Dashed x x') (depth : Nat) (scope : Scope)
    (context : Context) (splice : Bool) :
    (sameToHost σ).rel (E.emitted depth x scope context true)
      (E.emitted depth x' scope context splice) := by
  rw [emitted_eq, emitted_eq, run_eq, run_eq]
  cases h with
  | text hmarker hclause =>
    exact Node.run_ofText_dashed E _ hmarker hclause scope context splice
  | list hmarker hclause body | tuple hmarker hclause body =>
    exact Node.run_ofItems_dashed E _ hmarker hclause body scope context splice

/-- Where neither a skip nor a function is pending, an item emits in its turn what it emits on its
own. -/
theorem inTurns_item (depth : Nat) (scope : Scope) {before : List Value} (rest : List Value)
    {x : Value} (hx : isMark x = false) (hskip : skipped before = false)
    (hcapture : ∀ y ∈ before, capture? y = none) :
    E.inTurns depth scope before (x :: rest) = (do
      let emitted ← E.emitted depth x scope .list (before.any isSplice)
      let more ← E.inTurns depth scope [] rest
      pure (emitted ++ more)) := by
  rw [E.inTurns_turn _ _ _ _ (by simp [hx, hskip]), turn, E.lastCallee_of_forall _ hcapture,
    pure_bind]

/-- The two requests in the turn of the item. -/
theorem inTurns_dashed {x x' : Value} (h : Dashed x x') (depth : Nat) (scope : Scope)
    {before : List Value} (rest : List Value) (hskip : skipped before = false)
    (hcapture : ∀ y ∈ before, capture? y = none) :
    (sameToHost σ).rel (E.inTurns depth scope before (.str "<" :: x :: rest))
      (E.inTurns depth scope before (x' :: rest)) := by
  obtain ⟨hx, hx'⟩ := h.isItem
  have hmark : isMark (.str "<") = true := by decide
  -- the mark leaves what is pending as it was, but for the splice that it asks for
  have hskip' : skipped (before ++ [.str "<"]) = false := by
    rw [skipped_concat, hskip, Bool.or_false]
    decide
  have hcapture' : ∀ y ∈ before ++ [.str "<"], capture? y = none := by
    rintro y hy
    rcases List.mem_append.mp hy with hy | hy
    · exact hcapture y hy
    · rw [List.mem_singleton.mp hy]
      decide
  have hsplice : (before ++ [Value.str "<"]).any isSplice = true := by
    rw [List.any_append, Bool.or_eq_true]
    exact .inr (by decide)
  rw [E.inTurns_pass _ _ _ _ (by simp [hmark]),
    E.inTurns_item _ _ _ hx.noMark hskip' hcapture', hsplice,
    E.inTurns_item _ _ _ hx'.noMark hskip hcapture]
  exact (sameToHost σ).first (E.emitted_dashed h depth scope .list _) _

/-- The two requests in the list, up to a mark to stop.  If that stands before them, nothing is left
of either. -/
theorem inTurns_requests {before : List Value} (hbefore : NothingPending before) {x x' : Value}
    (h : Dashed x x') (depth : Nat) (scope : Scope) (after : List Value) :
    (sameToHost σ).rel
      (E.inTurns depth scope []
        ((before ++ .str "<" :: x :: after).takeWhile fun y => !isStop y))
      (E.inTurns depth scope [] ((before ++ x' :: after).takeWhile fun y => !isStop y)) := by
  obtain ⟨hx, hx'⟩ := h.isItem
  have hmark : isStop (.str "<") = false := by decide
  have hends : ∀ rest : List Value, (before ++ rest).takeWhile (fun y => !isStop y) =
      if (before.takeWhile fun y => !isStop y).length = before.length then
        before ++ rest.takeWhile fun y => !isStop y
      else before.takeWhile fun y => !isStop y := fun _ => List.takeWhile_append
  rw [hends, hends]
  by_cases hall : (before.takeWhile fun y => !isStop y).length = before.length
  · rw [if_pos hall, if_pos hall, List.takeWhile_cons_of_pos (by simp [hmark]),
      List.takeWhile_cons_of_pos (by simp [hx.noStop]),
      List.takeWhile_cons_of_pos (by simp [hx'.noStop]), inTurns_append, inTurns_append]
    have hskip : skipped (turns [] before).2 = false := by
      rw [skipped_turns, List.nil_append]
      exact hbefore.noSkip
    exact (sameToHost σ).next _ fun _ =>
      (sameToHost σ).first (E.inTurns_dashed h depth scope _ hskip hbefore.noCapture) _
  · rw [if_neg hall, if_neg hall]
    exact (sameToHost σ).refl _

/-- **The two ways to splice agree.**  In a plain list, a mark `<` before an item and a dash after
the marker of the item come to the same, if nothing is pending where they stand: wherever the list
is processed, both make the same value or fail alike, after the same calls into the host, which they
leave in the same state. -/
theorem two_ways_to_splice {marked dashed : Value} {before after : List Value} {x x' : Value}
    (hx : Dashed x x') (hmarked : marked.items? = some (before ++ [.str "<", x] ++ after))
    (hdashed : dashed.items? = some (before ++ [x'] ++ after))
    (hhead : ∀ y ∈ before.head?, begins ['@'] y = false ∧ begins ['?'] y = false)
    (hbefore : NothingPending before) (depth : Nat) (scope : Scope) (s : σ) :
    (E.processWithin depth marked scope s).SameToHost (E.processWithin depth dashed scope s) ∧
    ∀ context splice, (E.emitted depth marked scope context splice s).SameToHost
      (E.emitted depth dashed scope context splice s) := by
  obtain ⟨-, hitem⟩ := hx.isItem
  have hmark : asksSplice (.str "<") = false ∧ begins ['@'] (.str "<") = false ∧
      begins ['?'] (.str "<") = false := by decide
  rw [List.append_assoc] at hmarked hdashed
  obtain ⟨hplain, hforced⟩ := head_append (x :: after) hhead hmark.2 hmark.1
  obtain ⟨hplain', hforced'⟩ := head_append after hhead hitem.noHead hitem.unforced
  have hmade := E.inTurns_requests hbefore hx depth scope after
  have hemitted : ∀ context splice,
      (sameToHost σ).rel (E.emitted depth marked scope context splice)
        (E.emitted depth dashed scope context splice) := by
    intro context splice
    rw [(E.plain_list_closed_form hmarked hplain depth scope).2.2,
      (E.plain_list_closed_form hdashed hplain' depth scope).2.2]
    simp only [List.cons_append, List.nil_append, hforced, hforced']
    exact (sameToHost σ).first hmade _
  exact ⟨sameToHost_apply (processWithin_rel (hemitted .single false)) s,
    fun context splice => sameToHost_apply (hemitted context splice) s⟩

/-- The function before has its argument already, and the loop is spliced. -/
theorem two_ways_to_splice_loop :
    let E : Engine Library.State := ⟨Library.host, ["."], fun _ => none, fun _ _ => .ok .null⟩
    let before : List Value := [.str "^pair", .int 1]
    let x := Value.list [.str "@xs", .str "&_"]
    let x' := Value.list [.str "@-xs", .str "&_"]
    Dashed x x' ∧ (∀ y ∈ before.head?, begins ['@'] y = false ∧ begins ['?'] y = false) ∧
      NothingPending before ∧ ∀ depth scope s,
        (E.processWithin depth (.list (before ++ [.str "<", x] ++ [.int 2])) scope s).SameToHost
          (E.processWithin depth (.list (before ++ [x'] ++ [.int 2])) scope s) := by
  intro E before x x'
  have hx : Dashed x x' := @Dashed.list '@' ['x', 's'] (by decide) (by decide) _
  have hhead : ∀ y ∈ before.head?, begins ['@'] y = false ∧ begins ['?'] y = false := by
    rintro y hy
    cases hy
    decide
  have hbefore : NothingPending before := ⟨rfl, fun y hy => nomatch hy⟩
  exact ⟨hx, hhead, hbefore, fun depth scope s =>
    (E.two_ways_to_splice hx rfl rfl hhead hbefore depth scope s).1⟩

end Engine
end TreeTemplate
