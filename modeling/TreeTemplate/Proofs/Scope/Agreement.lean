import TreeTemplate.Scope

/-! # What can be told of a scope

A scope is asked for the values of names and for nothing else.  Two scopes agree when they
give every name the same value (`Scope.Agree`), and a frame pushed on both keeps them in
agreement (`Agree.push`), which is all that loops and merges ever do to a scope.  Every scope
agrees with a single frame: the mappings of its frames bound one after another, the outermost
first (`Scope.agree_merged`).
-/
namespace TreeTemplate

namespace Mapping

/-- No two entries have the same key: what a mapping is, as opposed to a row of pairs. -/
def Distinct (entries : Entries) : Prop :=
  entries.Pairwise fun a b => a.1.sameKey b.1 = false

instance (entries : Entries) : Decidable (Distinct entries) :=
  inferInstanceAs (Decidable (List.Pairwise _ entries))

/-- A key that no entry has is not found. -/
theorem find?_eq_none {entries : Entries} {key : Value}
    (h : ∀ entry ∈ entries, entry.1.sameKey key = false) : find? entries key = none := by
  have hnone : entries.find? (fun entry => entry.1.sameKey key) = none := by
    simpa using h
  rw [find?, hnone, Option.map_none]

/-- An entry of a written mapping is the one written, or one that was there. -/
theorem mem_insert {entries : Entries} {key value : Value} {entry : Value × Value}
    (h : entry ∈ insert entries key value) :
    entry.1 = key ∨ ∃ old ∈ entries, old.1 = entry.1 := by
  induction entries with
  | nil => simp_all [insert]
  | cons first rest ih =>
    obtain ⟨k, v⟩ := first
    by_cases hk : k.sameKey key = true
    · rw [insert, if_pos hk] at h
      rcases List.mem_cons.mp h with rfl | h
      · exact .inr ⟨(k, v), List.mem_cons_self, rfl⟩
      · exact .inr ⟨entry, List.mem_cons_of_mem _ h, rfl⟩
    · rw [insert, if_neg hk] at h
      rcases List.mem_cons.mp h with rfl | h
      · exact .inr ⟨(k, v), List.mem_cons_self, rfl⟩
      · rcases ih h with h | ⟨old, hold, he⟩
        · exact .inl h
        · exact .inr ⟨old, List.mem_cons_of_mem _ hold, he⟩

theorem Distinct.insert {entries : Entries} (h : Distinct entries) (key value : Value) :
    Distinct (insert entries key value) := by
  induction entries with
  | nil => exact List.pairwise_singleton _ _
  | cons first rest ih =>
    obtain ⟨k, v⟩ := first
    obtain ⟨hfirst, hrest⟩ := List.pairwise_cons.mp h
    by_cases hk : k.sameKey key = true
    · rw [Mapping.insert, if_pos hk]
      exact List.pairwise_cons.mpr ⟨hfirst, hrest⟩
    · rw [Mapping.insert, if_neg hk]
      refine List.pairwise_cons.mpr ⟨fun entry hentry => ?_, ih hrest⟩
      rcases mem_insert hentry with he | ⟨old, hold, he⟩
      · rw [he]
        exact Bool.eq_false_iff.mpr hk
      · rw [← he]
        exact hfirst old hold

theorem Distinct.update {entries : Entries} (h : Distinct entries) (part : Entries) :
    Distinct (update entries part) := by
  induction part generalizing entries with
  | nil => exact h
  | cons entry rest ih => exact ih (h.insert entry.1 entry.2)

/-- Of two mappings bound one after the other, the second answers where it can. -/
theorem find?_update {part : Entries} (h : Distinct part) (entries : Entries) (key : Value) :
    find? (update entries part) key = (find? part key).or (find? entries key) := by
  induction part generalizing entries with
  | nil => rfl
  | cons entry rest ih =>
    obtain ⟨k, v⟩ := entry
    obtain ⟨hfirst, hrest⟩ := List.pairwise_cons.mp h
    rw [update_cons, ih hrest, find?_insert, find?_cons]
    cases hk : k.sameKey key with
    | false => simp
    | true =>
      -- no later entry has the key, or it would have the key of this entry as well
      have hnone : find? rest key = none := by
        refine find?_eq_none fun entry hentry => ?_
        cases he : entry.1.sameKey key with
        | false => rfl
        | true =>
          rw [Value.sameKey_comm] at he
          exact absurd (Value.sameKey_trans hk he) (by simp [hfirst entry hentry])
      simp [hnone]

end Mapping

namespace Scope

/-- Two scopes give every name the same value. -/
def Agree (s t : Scope) : Prop := ∀ key, s.get key = t.get key

/-- The value of a key is the innermost frame's, or else that of the scope around it. -/
theorem get_cons (frame : Value) (outer : Scope) (key : Value) :
    get (frame :: outer) key = (ownValue? frame key).getD (outer.get key) := by
  rw [get, find?_cons]
  cases ownValue? frame key <;> rfl

theorem Agree.push {s t : Scope} (h : Agree s t) (frame : Value) :
    Agree (frame :: s) (frame :: t) := by
  intro key
  rw [get_cons, get_cons, h key]

theorem Agree.enter {s t : Scope} (h : Agree s t) (item : Value) :
    Agree (s.enter item) (t.enter item) := by
  cases item with
  | map entries => exact h.push (.map entries)
  | _ => exact h.push _

/-- The mappings of the frames bound one after another, the outermost first; a frame that is
no mapping adds nothing. -/
def merged : Scope → Mapping.Entries
  | [] => []
  | frame :: outer => Mapping.update (merged outer) (frame.entries?.getD [])

/-- The frames that are mappings have no key twice. -/
def Distinct (scope : Scope) : Prop :=
  ∀ entries, .map entries ∈ scope → Mapping.Distinct entries

/-- What the frames make together is a mapping again. -/
theorem distinct_merged (scope : Scope) : Mapping.Distinct scope.merged := by
  induction scope with
  | nil => exact List.Pairwise.nil
  | cons frame outer ih => exact ih.update _

theorem find?_merged {scope : Scope} (h : scope.Distinct) (key : Value) :
    Mapping.find? scope.merged key = scope.find? key := by
  induction scope with
  | nil => rfl
  | cons frame outer ih =>
    have hframe : Mapping.Distinct (frame.entries?.getD []) := by
      cases frame with
      | map entries => exact h entries List.mem_cons_self
      | _ => exact List.Pairwise.nil
    have houter := ih fun entries hm => h entries (List.mem_cons_of_mem _ hm)
    rw [merged, Mapping.find?_update hframe, houter, find?_cons]
    cases frame <;> rfl

/-- A scope agrees with the one frame that holds the mappings of all its frames. -/
theorem agree_merged {scope : Scope} (h : scope.Distinct) : Agree scope [.map scope.merged] := by
  intro key
  rw [get_cons]
  show scope.get key = (Mapping.find? scope.merged key).getD .null
  rw [find?_merged h, get]

end Scope
end TreeTemplate
