import TreeTemplate.Proofs.Template.Correspondence

/-! # Templates that are read alike

Where two templates differ only in parts that are read as related nodes, the templates are read as
related nodes themselves.  A part that is a text carries marks, which the list or the mapping
around it looks at, so parts that differ must carry none there (`Value.Unmarked`).  One step of the
reader is taken at a time: what is known of the parts of a list (`Node.Congruence.ReadAlike`), of
the entries of a mapping (`Node.Congruence.EntryAlike`) or of the cases of a switch is given.
-/
namespace TreeTemplate

/-- A value that is nothing but a value to the list or the mapping around it: no text, or a text
with the mark of an include. -/
def Value.Unmarked : Value → Prop
  | .str s => s.toList.head? = some '.'
  | _ => True

/-- A key that asks for a switch. -/
def Value.AsksSwitch : Value → Prop
  | .str s => s.toList.head? = some '?'
  | _ => False

namespace Node

/-- Readings of one kind, whose nodes are related. -/
inductive Reading.Lift (rel : Node → Node → Prop) : Reading → Reading → Prop
  | dead : Reading.Lift rel .dead .dead
  | whole {n m : Node} (h : rel n m) : Reading.Lift rel (.whole n) (.whole m)
  | live {e f : Entry} (h : Entry.Lift rel e f) : Reading.Lift rel (.live e) (.live f)

/-! ## What carries no mark -/

section
variable {v : Value} (h : v.Unmarked)
include h

theorem readElements_unmarked (rest : List Value) :
    readElements (v :: rest) = .item (ofValue v) :: readElements rest := by
  cases v with
  | str s =>
    obtain ⟨cs, hs⟩ := List.head?_eq_some_iff.mp h
    simp [readElements, readElement, ofValue, hs, Marker.ofChars]
  | _ => rfl

theorem ofItems_unmarked (rest : List Value) :
    ofItems (v :: rest) = .elements false (readElements (v :: rest)) := by
  cases v with
  | str s =>
    obtain ⟨cs, hs⟩ := List.head?_eq_some_iff.mp h
    simp [ofItems, readElements, forcedBy, hs, Head.ofChars, Marker.ofChars, Marker.dash]
  | _ => rfl

theorem unlessCommented_unmarked (key : Value) (entry : Entry) :
    unlessCommented key v entry = .live entry := by
  cases v with
  | str s =>
    have hlooks : looksCommented s = false := by
      have hhead : s.toList.head? = some '.' := h
      simp [looksCommented, hhead]
    simp [unlessCommented, hlooks]
  | _ => rfl

end

theorem keyMark_ne_switch {s : String} (h : ¬(Value.str s).AsksSwitch) (clause : String) :
    KeyMark.ofChars s.toList ≠ .switch clause := by
  intro hmark
  unfold KeyMark.ofChars at hmark
  split at hmark <;> cases hmark
  rename_i cs hs
  exact h (by simp [Value.AsksSwitch, hs])

theorem readEntries_eq_map (entries : List (Value × Value)) :
    readEntries entries = entries.map fun entry => (entry.1, readEntry entry) := by
  induction entries with
  | nil => rfl
  | cons entry rest ih => rw [readEntries, ih, List.map_cons]

theorem readCases_eq_map (cases : List (Value × Value)) :
    readCases cases = cases.map fun case => (case.1, ofValue case.2) := by
  induction cases with
  | nil => rfl
  | cons case rest ih => rw [readCases, ih, List.map_cons]

/-! ## Rows that are put in order -/

section
variable {α β : Type} {rel : α → β → Prop} {rows : List (Rank × α)} {others : List (Rank × β)}

theorem insertRanked_lift (r : Rank) {a : α} {b : β} (hab : rel a b)
    (h : List.Forall₂ (fun x y => x.1 = y.1 ∧ rel x.2 y.2) rows others) :
    List.Forall₂ (fun x y => x.1 = y.1 ∧ rel x.2 y.2) (insertRanked r a rows)
      (insertRanked r b others) := by
  induction h with
  | nil => exact .cons ⟨rfl, hab⟩ .nil
  | @cons x y _ _ hxy hrest ih =>
    obtain ⟨s, c⟩ := x
    obtain ⟨_, d⟩ := y
    obtain ⟨rfl, hcd⟩ := hxy
    rw [insertRanked, insertRanked]
    split
    · exact .cons ⟨rfl, hab⟩ (.cons ⟨rfl, hcd⟩ hrest)
    · exact .cons ⟨rfl, hcd⟩ ih

/-- The order is a matter of the ranks. -/
theorem sortRanked_lift (h : List.Forall₂ (fun x y => x.1 = y.1 ∧ rel x.2 y.2) rows others) :
    List.Forall₂ (fun x y => x.1 = y.1 ∧ rel x.2 y.2) (sortRanked rows) (sortRanked others) := by
  induction h with
  | nil => exact .nil
  | @cons x y _ _ hxy _ ih =>
    obtain ⟨r, a⟩ := x
    obtain ⟨_, b⟩ := y
    obtain ⟨rfl, hab⟩ := hxy
    exact insertRanked_lift r hab ih

end

theorem inOrder_lift {rel : Node → Node → Prop} (text : Value → String)
    {rows others : List (Value × Reading)}
    (h : List.Forall₂ (fun r q => r.1 = q.1 ∧ Reading.Lift rel r.2 q.2) rows others) :
    List.Forall₂ (Reading.Lift rel) (inOrder text rows) (inOrder text others) := by
  have hranked : List.Forall₂ (fun x y => x.1 = y.1 ∧ Reading.Lift rel x.2 y.2)
      (rows.map fun row => (Rank.ofText (text row.1), row.2))
      (others.map fun row => (Rank.ofText (text row.1), row.2)) :=
    List.forall₂_map_left_iff.mpr <| List.forall₂_map_right_iff.mpr <|
      h.imp fun _ _ hrow => ⟨by rw [hrow.1], hrow.2⟩
  exact List.forall₂_map_left_iff.mpr <| List.forall₂_map_right_iff.mpr <|
    (sortRanked_lift hranked).imp fun _ _ hrow => hrow.2

namespace Congruence

variable (M : Congruence)

theorem ofReadings {readings others : List Reading}
    (h : List.Forall₂ (Reading.Lift M.rel) readings others) :
    M.rel (ofReadings readings) (ofReadings others) := by
  have hwhole : Option.Rel M.rel (readings.findSome? Reading.whole?)
      (others.findSome? Reading.whole?) := by
    induction h with
    | nil => exact .none
    | cons hreading _ ih =>
      cases hreading with
      | whole hnode => exact .some hnode
      | dead | live => exact ih
  have hlive : List.Forall₂ (Entry.Lift M.rel) (readings.filterMap Reading.live?)
      (others.filterMap Reading.live?) := by
    clear hwhole
    induction h with
    | nil => exact .nil
    | cons hreading _ ih =>
      cases hreading with
      | live hentry => exact .cons hentry ih
      | dead | whole => exact ih
  unfold Node.ofReadings
  generalize readings.findSome? Reading.whole? = whole at hwhole
  generalize others.findSome? Reading.whole? = other at hwhole
  cases hwhole with
  | none => exact M.merge hlive
  | some hnode => exact hnode

/-- Values that are read alike wherever a value may stand: the same text, or values without marks
that are read as related nodes. -/
inductive ReadAlike : Value → Value → Prop
  | text (s : String) : ReadAlike (.str s) (.str s)
  | unmarked {v w : Value} (hv : v.Unmarked) (hw : w.Unmarked) (h : M.rel (ofValue v) (ofValue w)) :
    ReadAlike v w

/-- Entries with one key that are read alike: what stands under the key, or the switch that the
key asks for. -/
inductive EntryAlike : Value × Value → Value × Value → Prop
  | value {key v w : Value} (hk : ¬key.AsksSwitch) (h : M.ReadAlike v w) :
    EntryAlike (key, v) (key, w)
  | switch {key : String} {v w : Value} (hk : (Value.str key).AsksSwitch)
    (h : ∀ clause, M.rel (ofSwitch key clause v) (ofSwitch key clause w)) :
    EntryAlike (.str key, v) (.str key, w)

variable {M}

theorem ReadAlike.rel {v w : Value} (h : M.ReadAlike v w) : M.rel (ofValue v) (ofValue w) := by
  cases h with
  | text s => exact M.refl _
  | unmarked _ _ h => exact h

theorem ReadAlike.refl (v : Value) : M.ReadAlike v v := by
  cases v with
  | str s => exact .text s
  | _ => exact .unmarked trivial trivial (M.refl _)

theorem readElements {items others : List Value} (h : List.Forall₂ M.ReadAlike items others) :
    List.Forall₂ (Element.Lift M.rel) (readElements items) (readElements others) := by
  induction h with
  | nil => exact .nil
  | cons hitem _ ih =>
    cases hitem with
    | text s =>
      simp only [Node.readElements, readElement]
      split
      · exact .nil
      · exact .cons .skip ih
      · exact .cons (.capture _) ih
      · exact .cons .splice ih
      · exact .cons (.item (M.refl _)) ih
    | unmarked hv hw hnode =>
      rw [readElements_unmarked hv, readElements_unmarked hw]
      exact .cons (.item hnode) ih

theorem ofValues {items others : List Value} (h : List.Forall₂ M.ReadAlike items others) :
    List.Forall₂ M.rel (ofValues items) (ofValues others) := by
  induction h with
  | nil => exact .nil
  | cons hitem _ ih => exact .cons hitem.rel ih

theorem ofBranch {items others : List Value} (h : List.Forall₂ M.ReadAlike items others) :
    Option.Rel M.rel (ofBranch items) (ofBranch others) := by
  cases h with
  | nil => exact .none
  | cons hitem _ => exact .some hitem.rel

theorem ofSecondBranch {items others : List Value} (h : List.Forall₂ M.ReadAlike items others) :
    Option.Rel M.rel (ofSecondBranch items) (ofSecondBranch others) := by
  cases h with
  | nil => exact .none
  | cons _ hrest => exact ofBranch hrest

/-- Lists whose items are read alike. -/
theorem ofItems {items others : List Value} (h : List.Forall₂ M.ReadAlike items others) :
    M.rel (ofItems items) (ofItems others) := by
  have helements := readElements h
  cases h with
  | nil => exact M.refl _
  | cons hitem hrest =>
    cases hitem with
    | text s =>
      simp only [Node.ofItems]
      split
      · exact M.loop _ _ _ (ofValues hrest)
      · exact M.condition _ _ _ (ofBranch hrest) (ofSecondBranch hrest)
      · exact M.elements _ helements
    | unmarked hv hw _ =>
      rw [ofItems_unmarked hv, ofItems_unmarked hw]
      exact M.elements false helements

theorem readEntry {entry other : Value × Value} (h : M.EntryAlike entry other) :
    Reading.Lift M.rel (readEntry entry) (readEntry other) := by
  cases h with
  | @value key v w hk h =>
    -- an entry that takes the value, where the value may look like a comment
    have hlive : ∀ {e f : Entry}, Entry.Lift M.rel e f →
        Reading.Lift M.rel (unlessCommented key v e) (unlessCommented key w f) := by
      intro e f hentry
      cases h with
      | text s =>
        unfold unlessCommented
        split <;> split
        · exact .live (.commented _ _)
        · exact .live hentry
        · exact .live (.commented _ _)
        · exact .live hentry
      | unmarked hv hw _ =>
        rw [unlessCommented_unmarked hv, unlessCommented_unmarked hw]
        exact .live hentry
    cases key with
    | str s =>
      simp only [Node.readEntry]
      split
      · exact .whole (M.each _ _ h.rel)
      · rename_i hmark
        exact absurd hmark (keyMark_ne_switch hk _)
      · exact .dead
      · exact hlive (.merge s h.rel)
      · exact hlive (.apply s _ h.rel)
      · exact hlive (.put (M.refl _) h.rel)
    | _ => exact hlive (.put (M.refl _) h.rel)
  | @switch key v w hk h =>
    obtain ⟨cs, hs⟩ := List.head?_eq_some_iff.mp hk
    simp only [Node.readEntry, hs, KeyMark.ofChars]
    exact .whole (h _)

theorem readEntries {entries others : List (Value × Value)}
    (h : List.Forall₂ M.EntryAlike entries others) :
    List.Forall₂ (fun r q => r.1 = q.1 ∧ Reading.Lift M.rel r.2 q.2) (readEntries entries)
      (readEntries others) := by
  rw [readEntries_eq_map, readEntries_eq_map]
  refine List.forall₂_map_left_iff.mpr <| List.forall₂_map_right_iff.mpr <|
    h.imp fun entry other hentry => ⟨?_, readEntry hentry⟩
  cases hentry <;> rfl

/-- Mappings whose entries are read alike. -/
theorem ofMap {entries others : List (Value × Value)}
    (h : List.Forall₂ M.EntryAlike entries others) :
    M.rel (ofValue (.map entries)) (ofValue (.map others)) := by
  simp only [ofValue]
  exact M.mapping fun text _ => M.ofReadings (inOrder_lift text (readEntries h))

/-- Switches whose cases are read as related nodes. -/
theorem ofSwitch (key clause : String) {cases others : List (Value × Value)}
    (h : List.Forall₂ (fun c d => c.1 = d.1 ∧ M.rel (ofValue c.2) (ofValue d.2)) cases others) :
    M.rel (ofSwitch key clause (.map cases)) (ofSwitch key clause (.map others)) := by
  simp only [Node.ofSwitch, readCases_eq_map]
  exact M.switch key clause <| List.forall₂_map_left_iff.mpr <| List.forall₂_map_right_iff.mpr h

end Congruence

end Node
end TreeTemplate
