import TreeTemplate.Proofs.Run.Failing
import TreeTemplate.Proofs.Template.Failing
import TreeTemplate.Proofs.Template.ScanOrder

/-! # Merging is a right-biased union

A mapping without directives that take its place is made of what its merges contribute and then of
its own entries.  What is bound is the union of all of them, in which own entries win over merged
ones and later ones over earlier ones, and each key stands where it was contributed first
(`Mapping.RightBiased`, `Engine.mapping_merge_is_right_biased_union`).
-/
namespace TreeTemplate

/-! ## Unions of mappings -/

namespace Mapping

/-- The union of merged mappings and own entries, in which what comes later wins. -/
structure RightBiased (merged : List Entries) (put made : Entries) : Prop where
  /-- Nothing is lost and nothing is added. -/
  keys (key : Value) : contains made key = (merged.any (contains · key) || contains put key)
  /-- Of the own entries with a key the last one binds it. -/
  own {before after : Entries} {key value : Value} (h : put = before ++ (key, value) :: after)
    (hlast : contains after key = false) : find? made key = some value
  /-- Any other key is bound by the last of the merged mappings that has it. -/
  inherited {before after : List Entries} {part : Entries} {key : Value}
    (h : merged = before ++ part :: after) (hpart : Distinct part)
    (hput : contains put key = false) (hhas : contains part key = true)
    (hlast : after.any (contains · key) = false) : find? made key = find? part key
  /-- Keys stand in the order in which they were contributed, and as they were spelled first. -/
  order : made.map (·.1) = ((merged.flatten ++ put).map (·.1)).eraseDupsBy Value.sameKey

theorem contains_update (entries part : Entries) (key : Value) :
    contains (update entries part) key = (contains entries key || contains part key) := by
  induction part generalizing entries with
  | nil => simp [contains_nil]
  | cons entry part ih => rw [update_cons, ih, contains_insert, contains_cons, Bool.or_assoc]

theorem contains_append (entries others : Entries) (key : Value) :
    contains (entries ++ others) key = (contains entries key || contains others key) := by
  simp only [contains_eq_any, List.map_append, List.any_append]

theorem contains_flatten (parts : List Entries) (key : Value) :
    contains parts.flatten key = parts.any (contains · key) := by
  induction parts with
  | nil => rfl
  | cons part parts ih => rw [List.flatten_cons, contains_append, ih, List.any_cons]

/-- What does not have a key leaves it alone. -/
theorem find?_update_of_not_contains {part : Entries} {key : Value}
    (h : contains part key = false) (entries : Entries) :
    find? (update entries part) key = find? entries key := by
  induction part generalizing entries with
  | nil => rfl
  | cons entry part ih =>
    rw [contains_cons, Bool.or_eq_false_iff] at h
    rw [update_cons, ih h.2, find?_insert, h.1]
    rfl

/-- A key that is there keeps its place. -/
theorem keys_insert (entries : Entries) (key value : Value) : (insert entries key value).map (·.1) =
    if contains entries key then entries.map (·.1) else entries.map (·.1) ++ [key] := by
  induction entries with
  | nil => rfl
  | cons entry entries ih =>
    obtain ⟨k, v⟩ := entry
    rw [insert, contains_cons]
    cases hk : k.sameKey key with
    | true => rfl
    | false =>
      simp only [Bool.false_eq_true, if_false, List.map_cons, ih, Bool.false_or]
      split <;> rfl

theorem keys_ofPairs (pairs : Entries) :
    (ofPairs pairs).map (·.1) = (pairs.map (·.1)).eraseDupsBy Value.sameKey := by
  have hloop : ∀ (pairs entries : Entries), (update entries pairs).map (·.1) =
      List.eraseDupsBy.loop Value.sameKey (pairs.map (·.1)) (entries.map (·.1)).reverse := by
    intro pairs
    induction pairs with
    | nil => intro entries; simp [List.eraseDupsBy.loop]
    | cons entry pairs ih =>
      intro entries
      have hany : (entries.map (·.1)).reverse.any (entry.1.sameKey ·) =
          contains entries entry.1 := by
        rw [contains_eq_any, List.any_reverse]
        simp only [Value.sameKey_comm]
      rw [update_cons, ih, keys_insert, List.map_cons, List.eraseDupsBy.loop]
      cases hhas : contains entries entry.1 with
      | true => rw [hany.trans hhas, if_pos rfl]
      | false => rw [hany.trans hhas, if_neg (by simp), List.reverse_append]; rfl
  exact hloop pairs []

/-- Binding everything in order makes the union. -/
theorem rightBiased_ofPairs {merged : List Entries} {put : Entries}
    (hput : ∀ entry ∈ put, entry.1.isHashable = true) :
    RightBiased merged put (ofPairs (merged.flatten ++ put)) where
  keys key := by
    rw [ofPairs, contains_update, contains_nil, Bool.false_or, contains_append, contains_flatten]
  own {before after key value} h hlast := by
    subst h
    have hkey : key.sameKey key = true := by
      rw [Value.sameKey_self]
      exact hput (key, value) (by simp)
    rw [← List.append_assoc, ofPairs, update_append, update_cons,
      find?_update_of_not_contains hlast, find?_insert, if_pos hkey]
  inherited {before after part key} h hpart hother hhas hlast := by
    subst h
    obtain ⟨value, hvalue⟩ := Option.isSome_iff_exists.mp hhas
    rw [ofPairs, update_append, find?_update_of_not_contains hother, List.flatten_append,
      List.flatten_cons, update_append, update_append,
      find?_update_of_not_contains ((contains_flatten _ _).trans hlast), find?_update hpart,
      hvalue]
    rfl
  order := keys_ofPairs _

end Mapping

/-! ## Runs of rows -/

namespace Run

variable {σ α : Type} {s t : σ}

theorem ends_state_bind {β : Type} {f : σ → Run σ β} {b : β} :
    (state >>= f).Ends s b t ↔ (f s).Ends s b t := Iff.rfl

theorem ends_mapM_cons {β : Type} {f : α → Run σ β} {a : α} {rest : List α} {bs : List β} :
    ((a :: rest).mapM f).Ends s bs t ↔ ∃ b u bs', (f a).Ends s b u ∧
      (rest.mapM f).Ends u bs' t ∧ bs = b :: bs' := by
  simp only [List.mapM_cons, ends_bind, ends_pure]
  constructor
  · rintro ⟨b, u, hb, bs', u', hbs, rfl, rfl⟩
    exact ⟨b, u, bs', hb, hbs, rfl⟩
  · rintro ⟨b, u, bs', hb, hbs, rfl⟩
    exact ⟨b, u, hb, bs', t, hbs, rfl, rfl⟩

end Run

namespace Engine

open Run

variable {σ : Type} {E : Engine σ} {s t : σ} {made made' : Mapping.Entries}

theorem entriesOf_ends {what clause : String} {v : Value} {part : Mapping.Entries} :
    (entriesOf what clause v).Ends s part t ↔ v = .map part ∧ s = t := by
  cases v <;> simp [entriesOf, Run.Ends]

theorem mergeInto_ends {what clause : String} {v : Value} :
    (mergeInto what clause made v).Ends s made' t ↔
      ∃ part, v = .map part ∧ made' = Mapping.update made part ∧ s = t := by
  simp only [mergeInto, ends_bind, entriesOf_ends, ends_pure]
  constructor
  · rintro ⟨part, _, ⟨rfl, rfl⟩, rfl, rfl⟩
    exact ⟨part, rfl, rfl, rfl⟩
  · rintro ⟨part, rfl, rfl, rfl⟩
    exact ⟨part, s, ⟨rfl, rfl⟩, rfl, rfl⟩

/-- What is merged are mappings, which are bound one after another. -/
theorem carry_mergeInto_ends {what clause : String} {vs : List Value} :
    (Run.carry (mergeInto what clause) made vs).Ends s made' t ↔
      ∃ parts : List Mapping.Entries, vs = parts.map Value.map ∧
        made' = Mapping.update made parts.flatten ∧ s = t := by
  induction vs generalizing made s with
  | nil => simp [Run.carry, eq_comm]
  | cons v vs ih =>
    simp only [Run.carry, ends_bind, mergeInto_ends, ih]
    constructor
    · rintro ⟨_, _, ⟨part, rfl, rfl, rfl⟩, parts, rfl, rfl, rfl⟩
      exact ⟨part :: parts, rfl, by rw [List.flatten_cons, Mapping.update_append], rfl⟩
    · rintro ⟨parts, hparts, rfl, rfl⟩
      obtain ⟨part, parts, rfl, hpart, rfl⟩ := List.map_eq_cons_iff.mp hparts.symm
      refine ⟨_, _, ⟨part, hpart.symm, rfl, rfl⟩, parts, rfl, ?_, rfl⟩
      rw [List.flatten_cons, Mapping.update_append]

theorem put_ends {key value : Value} : (put (σ := σ) made key value).Ends s made' t ↔
    key.isHashable = true ∧ made' = Mapping.insert made key value ∧ s = t := by
  unfold put Value.isHashable
  cases key.key? <;> simp [Run.Ends, eq_comm]

end Engine

/-! ## Entries -/

namespace Node

open Run

variable {σ : Type} {E : Engine σ} {include_ : Includer σ} {scope : Scope} {s t : σ}
  {made made' : Mapping.Entries}

/-- A value that looks like a comment makes no entry. -/
theorem unlessCommented_ends {key value : Value} {entry : Entry}
    (h : (runEntries E include_ (unlessCommented key value entry).live?.toList scope made).Ends s
      made' t) : (runEntries E include_ [entry] scope made).Ends s made' t := by
  cases value with
  | str text =>
    rw [unlessCommented] at h
    split at h
    · simp only [Reading.live?, Option.toList, runEntries, ends_bind] at h
      obtain ⟨_, _, -, hfail⟩ := h
      cases hfail.1
    · exact h
  | _ => exact h

/-- Merges bind the mappings that their values come to, one after another. -/
theorem runEntries_merges {rows : Mapping.Entries}
    (hrows : ∀ row ∈ rows, row.1.startsWith '<' = true)
    (h : (runEntries E include_ (liveEntries rows) scope made).Ends s made' t) :
    ∃ merged : List (List Mapping.Entries),
      (rows.mapM fun row => (ofValue row.2).run E include_ scope .mapping true).Ends s
        (merged.map (·.map Value.map)) t ∧
      made' = Mapping.update made merged.flatten.flatten := by
  induction rows generalizing made s with
  | nil =>
    rw [liveEntries_nil, runEntries] at h
    obtain ⟨rfl, rfl⟩ := ends_pure.mp h
    exact ⟨[], by simp, rfl⟩
  | cons row rows ih =>
    obtain ⟨hrow, hrest⟩ := List.forall_mem_cons.mp hrows
    obtain ⟨source, hread⟩ := readEntry_merge hrow
    rw [liveEntries_cons, runEntries_append] at h
    obtain ⟨made₁, u, hfirst, h⟩ := ends_bind.mp h
    rw [hread] at hfirst
    have hmerge := unlessCommented_ends hfirst
    simp only [runEntries, ends_bind, Engine.carry_mergeInto_ends, ends_pure] at hmerge
    obtain ⟨_, u', hrun, _, _, ⟨parts, rfl, rfl, rfl⟩, rfl, rfl⟩ := hmerge
    obtain ⟨merged, hmerged, rfl⟩ := ih hrest h
    refine ⟨parts :: merged, ends_mapM_cons.mpr ⟨_, _, _, hrun, hmerged, rfl⟩, ?_⟩
    rw [List.flatten_cons, List.flatten_append, Mapping.update_append]

/-- Other entries bind what their keys come to, one after another. -/
theorem runEntries_puts {rows : Mapping.Entries}
    (hrows : ∀ row ∈ rows, ∀ c ∈ keyMarks, row.1.startsWith c = false)
    (h : (runEntries E include_ (liveEntries rows) scope made).Ends s made' t) :
    ∃ put : Mapping.Entries,
      (rows.mapM fun row : Value × Value => do
        let key ← single <$> (ofValue row.1).run E include_ scope .single false
        let value ← single <$> (ofValue row.2).run E include_ scope .single false
        pure (key, value)).Ends s put t ∧
      (∀ entry ∈ put, entry.1.isHashable = true) ∧ made' = Mapping.update made put := by
  induction rows generalizing made s with
  | nil =>
    rw [liveEntries_nil, runEntries] at h
    obtain ⟨rfl, rfl⟩ := ends_pure.mp h
    exact ⟨[], by simp, by simp, rfl⟩
  | cons row rows ih =>
    obtain ⟨hrow, hrest⟩ := List.forall_mem_cons.mp hrows
    have hread := readEntry_put hrow row.2
    rw [liveEntries_cons, runEntries_append] at h
    obtain ⟨made₁, u, hfirst, h⟩ := ends_bind.mp h
    rw [hread] at hfirst
    have hput := unlessCommented_ends hfirst
    simp only [runEntries, ends_bind, Engine.put_ends, ends_pure] at hput
    obtain ⟨ks, u₁, hkey, vs, u₂, hvalue, _, _, ⟨hhash, rfl, rfl⟩, rfl, rfl⟩ := hput
    obtain ⟨put, hputs, hhashes, rfl⟩ := ih hrest h
    refine ⟨(single ks, single vs) :: put, ends_mapM_cons.mpr ⟨_, _, _, ?_, hputs, rfl⟩,
      List.forall_mem_cons.mpr ⟨hhash, hhashes⟩, rfl⟩
    exact ends_bind.mpr ⟨_, _, ends_map.mpr ⟨_, hkey, rfl⟩, ends_bind.mpr ⟨_, _,
      ends_map.mpr ⟨_, hvalue, rfl⟩, ends_pure.mpr ⟨rfl, rfl⟩⟩⟩

/-! ## Mappings -/

/-- The entries that are merged, in the order of the texts of their keys. -/
def mergeRows (entries : Mapping.Entries) : Mapping.Entries :=
  Mapping.sortKeys (entries.filter fun row => row.1.startsWith '<')

/-- The entries that are neither merged nor left out, in the order of the texts of their keys. -/
def putRows (entries : Mapping.Entries) : Mapping.Entries :=
  Mapping.sortKeys (entries.filter fun row => !row.1.startsWith '/' && !row.1.startsWith '<')

theorem startsWith_of_mem_mergeRows {entries : Mapping.Entries} :
    ∀ row ∈ mergeRows entries, row.1.startsWith '<' = true :=
  fun _ hrow => (List.mem_filter.mp (Mapping.mem_sortKeys.mp hrow)).2

theorem not_startsWith_of_mem_putRows {entries : Mapping.Entries}
    (hmarks : ∀ row ∈ entries, ∀ c ∈ ['%', '?', '^'], row.1.startsWith c = false) :
    ∀ row ∈ putRows entries, ∀ c ∈ keyMarks, row.1.startsWith c = false := by
  intro row hrow
  obtain ⟨hrow, hput⟩ := List.mem_filter.mp (Mapping.mem_sortKeys.mp hrow)
  have hmark := hmarks row hrow
  simp only [keyMarks, List.forall_mem_cons] at hmark ⊢
  simp_all

theorem liveEntries_filter (rows : Mapping.Entries) :
    liveEntries (rows.filter fun row => !row.1.startsWith '/') = liveEntries rows := by
  induction rows with
  | nil => rfl
  | cons row rows ih =>
    rw [List.filter_cons, liveEntries_cons]
    cases hdead : row.1.startsWith '/' with
    | true =>
      have hread : readEntry row = .dead := readEntry_dead hdead row.2
      rw [hread, if_neg (by simp), ih]
      rfl
    | false => rw [if_pos (by simp), liveEntries_cons, ih]

end Node

namespace Engine

open Run Node

variable {σ : Type} (E : Engine σ)

/-- **Merging is a right-biased union.**  Where the keys of a mapping are scalars, and none is the
mark of something that takes the place of the mapping or of a call, the mapping that it comes to is
made of what its merges come to and of its own entries, in which keys are processed like values. -/
theorem mapping_merge_is_right_biased_union {entries : Mapping.Entries}
    (hscalar : ∀ row ∈ entries, row.1.Scalar)
    (hmarks : ∀ row ∈ entries, ∀ c ∈ ['%', '?', '^'], row.1.startsWith c = false)
    {depth : Nat} {scope : Scope} {s t : σ} {v : Value}
    (h : (E.processWithin depth (.map entries) scope).Ends s v t) :
    ∃ (merged : List (List Mapping.Entries)) (put made : Mapping.Entries) (u : σ),
      v = .map made ∧
      ((mergeRows entries).mapM fun row => E.emitted depth row.2 scope .mapping true).Ends s
        (merged.map (·.map Value.map)) u ∧
      ((putRows entries).mapM fun row : Value × Value => do
        let key ← E.processWithin depth row.1 scope
        let value ← E.processWithin depth row.2 scope
        pure (key, value)).Ends u put t ∧
      Mapping.RightBiased merged.flatten put made := by
  have hsingle (template : Value) : E.processWithin depth template scope =
      single <$> (ofValue template).run E (E.includer depth) scope .single false := by
    rw [processWithin_eq, emitted_eq, run_eq, bind_pure_comp]
  have hemitted (template : Value) : E.emitted depth template scope .mapping true =
      (ofValue template).run E (E.includer depth) scope .mapping true := by
    rw [emitted_eq, run_eq]
  have htext : ∀ key : Value, key.Scalar → Value.text (E.host.shows s) key = key.keyText :=
    fun _ hkey => hkey.text_eq _
  -- the entries that are left, in the order in which they are processed
  have hlive : liveEntries (scanned (Value.text (E.host.shows s)) entries) =
      liveEntries (mergeRows entries) ++ liveEntries (putRows entries) := by
    rw [scanned_scalar htext hscalar, liveEntries_append, mergeRows, putRows,
      ← liveEntries_filter (Mapping.sortKeys (entries.filter fun row => !row.1.startsWith '<')),
      Mapping.filter_sortKeys, List.filter_filter]
  have hread : ofReadings (inOrder (Value.text (E.host.shows s)) (readEntries entries)) =
      .merge (liveEntries (mergeRows entries) ++ liveEntries (putRows entries)) := by
    have hnone : honoured? (Value.text (E.host.shows s)) entries = none :=
      honoured?_eq_none.mpr fun row hrow =>
        Bool.or_eq_false_iff.mpr ⟨hmarks row hrow '%' (by simp), hmarks row hrow '?' (by simp)⟩
    rw [ofReadings_scanned, hnone, ← hlive]
    rfl
  rw [hsingle, ofValue, ofRows] at h
  obtain ⟨vs, hrun, rfl⟩ := ends_map.mp h
  rw [Node.run, ends_state_bind, hread, Node.run] at hrun
  obtain ⟨made, u, hmade, hplace⟩ := ends_bind.mp hrun
  obtain ⟨rfl, rfl⟩ := ends_pure.mp hplace
  rw [runEntries_append] at hmade
  obtain ⟨made₁, u₁, hmerges, hputs⟩ := ends_bind.mp hmade
  obtain ⟨merged, hmerged, rfl⟩ := runEntries_merges startsWith_of_mem_mergeRows hmerges
  obtain ⟨put, hput, hhash, rfl⟩ := runEntries_puts
    (not_startsWith_of_mem_putRows hmarks) hputs
  refine ⟨merged, put, _, u₁, rfl, ?_, ?_, ?_⟩
  · simpa only [hemitted] using hmerged
  · simpa only [hsingle] using hput
  · rw [← Mapping.update_append]
    exact Mapping.rightBiased_ofPairs hhash

/-- Of two merges the later one wins, and an own entry stands where its key was merged first. -/
theorem mapping_merge_is_right_biased_union_overlap :
    let E : Engine Library.State := ⟨Library.host, ["."], fun _ => none, fun _ _ => .ok .null⟩
    let entries : Mapping.Entries :=
      [(.str "c", .str "own"), (.str "<2", .str "&n"), (.str "<1", .str "&m")]
    let scope : Scope := [.map [(.str "m", .map [(.str "c", .int 1), (.str "a", .int 1)]),
      (.str "n", .map [(.str "a", .int 2)])]]
    let made : Mapping.Entries := [(.str "c", .str "own"), (.str "a", .int 2)]
    (∀ row ∈ entries, row.1.Scalar) ∧
    (∀ row ∈ entries, ∀ c ∈ ['%', '?', '^'], row.1.startsWith c = false) ∧
    (E.processWithin 0 (.map entries) scope).Ends default (.map made) default ∧
    ∃ merged put, Mapping.RightBiased merged put made := by
  intro E entries scope made
  have hscalar : ∀ row ∈ entries, row.1.Scalar := by simp [entries, Value.Scalar.str]
  have hmarks : ∀ row ∈ entries, ∀ c ∈ ['%', '?', '^'], row.1.startsWith c = false := by
    simp [entries, Value.startsWith]
  have hends : (E.processWithin 0 (.map entries) scope).Ends default (.map made) default := by
    subst made entries scope E
    constructor <;> rfl
  obtain ⟨merged, put, _, _, heq, -, -, hunion⟩ :=
    E.mapping_merge_is_right_biased_union hscalar hmarks hends
  cases heq
  exact ⟨hscalar, hmarks, hends, merged.flatten, put, hunion⟩

end Engine
end TreeTemplate
