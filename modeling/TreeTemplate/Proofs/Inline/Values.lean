import TreeTemplate.Proofs.Inline.Groups
import TreeTemplate.Proofs.Run.Failing
import TreeTemplate.Proofs.Template.Correspondence

/-! # Inserted values

A plain text without comments is made of literals and inserted values in turn
(`Inline.interleaved`).  What it becomes is the literals with, between them, what texts that consist
of a `$` and a clause become (`Engine.inline_values_concatenate`): the values are computed in turn
up to the first that fails, and what they insert is not looked at again.
-/
namespace TreeTemplate

namespace Inline

/-- A literal, and then inserted values with a literal after each. -/
def interleaved (first : List Char) (parts : List (List Char × List Char)) : List Char :=
  first ++ parts.flatMap fun part => valueText part.1 ++ part.2

/-- The same literals, with given texts in the place of the inserted values. -/
def joined (first : List Char) (parts : List (List Char × List Char)) (texts : List String) :
    String :=
  String.ofList first ++
    String.join (List.zipWith (fun part text => text ++ String.ofList part.2) parts texts)

/-- A clause and the literal after the value that it inserts. -/
structure PlainPart (part : List Char × List Char) : Prop where
  clause : Braceless part.1
  literal : openBrace ∉ part.2

theorem interleaved_cons (first : List Char) (part : List Char × List Char)
    (parts : List (List Char × List Char)) :
    interleaved first (part :: parts) =
      first ++ (valueText part.1 ++ interleaved part.2 parts) := by
  simp [interleaved]

theorem joined_cons (first : List Char) (part : List Char × List Char)
    (parts : List (List Char × List Char)) (text : String) (texts : List String) :
    joined first (part :: parts) (text :: texts) =
      String.ofList first ++ (text ++ joined part.2 parts texts) := by
  simp [joined, String.append_assoc]

/-- What begins with a brace is not found in a stretch of text without one. -/
theorem infix_of_append {mark cs rest : List Char} (hcs : openBrace ∉ cs)
    (h : (openBrace :: mark) <:+: cs ++ rest) : (openBrace :: mark) <:+: rest := by
  induction cs with
  | nil => exact h
  | cons c cs ih =>
    rw [List.mem_cons, not_or] at hcs
    rcases List.infix_cons_iff.mp h with hhead | htail
    · exact absurd (List.cons_prefix_cons.mp hhead).1 hcs.1
    · exact ih hcs.2 htail

/-- Where all groups insert values no comment begins. -/
theorem no_comment_interleaved {first : List Char} {parts : List (List Char × List Char)}
    (hfirst : openBrace ∉ first) (hparts : ∀ part ∈ parts, PlainPart part) :
    ¬[openBrace, '#'] <:+: interleaved first parts := by
  intro h
  induction parts generalizing first with
  | nil =>
    rw [interleaved, List.flatMap_nil] at h
    simpa using infix_of_append hfirst h
  | cons part parts ih =>
    obtain ⟨hpart, hrest⟩ := List.forall_mem_cons.mp hparts
    rw [interleaved_cons] at h
    have hvalue : [openBrace, '#'] <:+: openBrace :: '$' ::
        (part.1 ++ [closeBrace] ++ interleaved part.2 parts) := infix_of_append hfirst h
    rcases List.infix_cons_iff.mp hvalue with hhead | htail
    · have hmark : '#' = '$' := (List.cons_prefix_cons.mp (List.cons_prefix_cons.mp hhead).2).1
      exact absurd hmark (by decide)
    · have hclause : openBrace ∉ '$' :: (part.1 ++ [closeBrace]) := by
        have hmark : openBrace ≠ '$' ∧ openBrace ≠ closeBrace := by decide
        simp [hpart.clause.opening, hmark]
      exact ih hpart.literal hrest (infix_of_append hclause htail)

end Inline

namespace Engine

open Inline Run

variable {σ : Type} (E : Engine σ) (scope : Scope)

/-- Literals stay as they are, and the texts of the values are inserted in turn. -/
theorem filled_interleaved {first : List Char} {parts : List (List Char × List Char)}
    (hfirst : openBrace ∉ first) (hparts : ∀ part ∈ parts, PlainPart part) :
    E.filled scope (interleaved first parts) =
      joined first parts <$> parts.mapM fun part => E.insert scope (String.ofList part.1) := by
  induction parts generalizing first with
  | nil =>
    have hfilled := E.filled_append scope hfirst []
    simpa [interleaved, joined] using hfilled
  | cons part parts ih =>
    obtain ⟨hpart, hrest⟩ := List.forall_mem_cons.mp hparts
    rw [interleaved_cons, E.filled_append scope hfirst, E.filled_value scope hpart.clause.closing,
      ih hpart.literal hrest]
    simp only [List.mapM_cons, map_bind, bind_pure_comp, Functor.map_map, joined_cons]

/-- A text that consists of a `$` and a clause comes to the text of the value of the clause. -/
theorem processWithin_string (depth : Nat) (clause : List Char) :
    E.processWithin depth (.str (String.ofList ('$' :: clause))) scope = (do
      Run.emit (.directive .string (String.ofList ('$' :: clause)))
      Value.str <$> E.insert scope (String.ofList clause)) := by
  have hread : Node.ofValue (.str (String.ofList ('$' :: clause))) =
      .leaf (String.ofList ('$' :: clause)) (.string (String.ofList clause)) := by
    rw [Node.ofValue, Node.ofText, String.toList_ofList, Leaf.ofChars]
  rw [processWithin_eq, emitted_eq, run_eq, hread]
  simp [Node.run, leafDirective?, leaf, single]

/-- The texts of values, as far as calls into the host are concerned, are what texts that consist of
a `$` and a clause come to. -/
theorem strings_sameToHost (parts : List (List Char × List Char)) (depth : Nat) (s : σ) :
    ((parts.mapM fun part =>
      E.processWithin depth (.str (String.ofList ('$' :: part.1))) scope) s).SameToHost
    ((List.map Value.str <$> parts.mapM fun part => E.insert scope (String.ofList part.1)) s) := by
  let M : Run.Congruence σ := sameToHost σ
  have hstring (clause : List Char) :
      M.rel (E.processWithin depth (.str (String.ofList ('$' :: clause))) scope)
        (Value.str <$> E.insert scope (String.ofList clause)) := by
    intro s _
    rw [E.processWithin_string, Run.bind_apply_ok rfl]
    simp [Outcome.only, Run.emit, Event.isCall]
  have hstrings : M.rel
      (parts.mapM fun part => E.processWithin depth (.str (String.ofList ('$' :: part.1))) scope)
      (List.map Value.str <$> parts.mapM fun part => E.insert scope (String.ofList part.1)) := by
    induction parts with
    | nil => simpa using M.refl _
    | cons part parts ih =>
      have hcons : (List.map Value.str <$> (part :: parts).mapM fun part =>
          E.insert scope (String.ofList part.1)) = (do
          let v ← Value.str <$> E.insert scope (String.ofList part.1)
          let vs ← List.map Value.str <$> parts.mapM fun part =>
            E.insert scope (String.ofList part.1)
          pure (v :: vs)) := by
        simp [List.mapM_cons, map_bind]
      rw [hcons, List.mapM_cons]
      exact M.bind (hstring part.1) fun _ => M.first ih _
  exact sameToHost_apply hstrings s

/-- **Inserted values are put between the literals of a text and are not looked at again.**  What
texts that consist of a `$` and a clause come to, one after another, stands where the clauses are
inserted; where one of them fails the text fails alike, and the host is called alike. -/
theorem inline_values_concatenate {first : List Char} {parts : List (List Char × List Char)}
    (hfirst : openBrace ∉ first) (hparts : ∀ part ∈ parts, PlainPart part)
    (hmark : ∀ c ∈ (interleaved first parts).head?, c ∉ Leaf.marks) (depth : Nat) (s : σ) :
    let values := parts.mapM fun part =>
      E.processWithin depth (.str (String.ofList ('$' :: part.1))) scope
    let text := E.processWithin depth (.str (String.ofList (interleaved first parts))) scope
    (∀ vs t, values.Ends s vs t → ∃ texts : List String, vs = texts.map Value.str ∧
      text.Ends s (.str (joined first parts texts)) t) ∧
    (∀ e, values.Fails s e → text.Fails s e) ∧
    callsOf (text s).events = callsOf (values s).events ∧ (text s).state = (values s).state := by
  intro values text
  let inserted := parts.mapM fun part => E.insert scope (String.ofList part.1)
  have htext : text = (fun texts => Value.str (joined first parts texts)) <$> inserted := by
    rw [show text = _ from E.processWithin_plain scope hmark depth,
      withoutComments_eq_self (no_comment_interleaved hfirst hparts),
      E.filled_interleaved scope hfirst hparts, Functor.map_map]
  have hsame : (values s).SameToHost ((List.map Value.str <$> inserted) s) :=
    E.strings_sameToHost scope parts depth s
  refine ⟨fun vs t hends => ?_, fun e hfails => ?_, ?_, ?_⟩
  · have hvalues : (List.map Value.str <$> inserted).Ends s vs t :=
      ⟨hsame.result.trans hends.1, hsame.state.trans hends.2⟩
    obtain ⟨texts, hinserted, rfl⟩ := ends_map.mp hvalues
    rw [htext]
    exact ⟨texts, rfl, ends_map.mpr ⟨texts, hinserted, rfl⟩⟩
  · have hinserted : inserted.Fails s e := fails_map.mp (hsame.result.trans hfails)
    rw [htext]
    exact fails_map.mpr hinserted
  · rw [htext, map_apply, ← hsame.calls, map_apply]
  · rw [htext, map_apply, ← hsame.state, map_apply]

/-- What looks like a group in an inserted text stays. -/
theorem inline_values_concatenate_group :
    let E : Engine Library.State := ⟨Library.host, ["."], fun _ => none, fun _ _ => .ok .null⟩
    let first := "a ".toList
    let parts := [("x".toList, " \x7d ".toList), (" x".toList, "b".toList)]
    let scope : Scope := [.map [(.str "x", .str "\x7b$y\x7d\x7b#c\x7d")]]
    let values := parts.mapM fun part =>
      E.processWithin 0 (.str (String.ofList ('$' :: part.1))) scope
    openBrace ∉ first ∧ (∀ part ∈ parts, PlainPart part) ∧
      (∀ c ∈ (interleaved first parts).head?, c ∉ Leaf.marks) ∧
      values.Ends default [.str "\x7b$y\x7d\x7b#c\x7d", .str "\x7b$y\x7d\x7b#c\x7d"] default ∧
      (E.processWithin 0 (.str "a \x7b$x\x7d \x7d \x7b$ x\x7db") scope).Ends default
        (.str "a \x7b$y\x7d\x7b#c\x7d \x7d \x7b$y\x7d\x7b#c\x7db") default := by
  intro E first parts scope values
  have hfirst : openBrace ∉ first := by decide
  have hparts : ∀ part ∈ parts, PlainPart part := by
    simp only [parts, List.forall_mem_cons]
    exact ⟨⟨by decide, by decide⟩, ⟨by decide, by decide⟩, by simp⟩
  have hmark : ∀ c ∈ (interleaved first parts).head?, c ∉ Leaf.marks := by
    intro c hc
    cases hc
    decide
  have hvalues : values.Ends default
      [.str "\x7b$y\x7d\x7b#c\x7d", .str "\x7b$y\x7d\x7b#c\x7d"] default := by
    constructor <;> rfl
  obtain ⟨texts, htexts, hends⟩ :=
    (E.inline_values_concatenate scope hfirst hparts hmark 0 default).1 _ _ hvalues
  obtain rfl : texts = ["\x7b$y\x7d\x7b#c\x7d", "\x7b$y\x7d\x7b#c\x7d"] := by
    refine List.map_injective_iff.mpr (fun a b h => Value.str.inj h) htexts.symm
  exact ⟨hfirst, hparts, hmark, hvalues, hends⟩

end Engine
end TreeTemplate
