import TreeTemplate.Proofs.Template.PlainData
import TreeTemplate.Proofs.Template.ReadAlike

/-! # The order in which entries are processed

The entries of a mapping are processed in an order that their keys alone determine
(`Node.scanned`), and what an entry is read as is a matter of the first character of its key
(`Node.readEntry_merge`, `Node.readEntry_dead`, `Node.readEntry_put`).  Where all keys are scalars
the order is the same for every host: the keys that begin with `<` in the order of their texts, and
then all others in the order of theirs (`Node.scanned_scalar`).
-/
namespace TreeTemplate

/-- Whether a key is a text that begins with a character. -/
def Value.startsWith (c : Char) : Value → Bool
  | .str s => s.toList.head? = some c
  | _ => false

theorem Value.startsWith_unique {v : Value} {c d : Char} (hc : v.startsWith c = true)
    (hd : v.startsWith d = true) : c = d := by
  cases v with
  | str s => exact Option.some.inj ((of_decide_eq_true hc).symm.trans (of_decide_eq_true hd))
  | _ => cases hc

/-! ## Sorting -/

section
variable {α : Type} {r : α → α → Prop} [DecidableRel r]

theorem orderedInsert_of_forall {a : α} {l : List α} (h : ∀ b ∈ l, r a b) :
    l.orderedInsert r a = a :: l := by
  cases l with
  | nil => rfl
  | cons b l => exact List.orderedInsert_cons_of_le r l (h b List.mem_cons_self)

theorem filter_orderedInsert [IsTrans α r] (p : α → Bool) (a : α) {l : List α}
    (hl : l.Pairwise r) : (l.orderedInsert r a).filter p =
      if p a then (l.filter p).orderedInsert r a else l.filter p := by
  induction l with
  | nil => cases hp : p a <;> simp [hp]
  | cons b l ih =>
    obtain ⟨hb, hl⟩ := List.pairwise_cons.mp hl
    by_cases hab : r a b
    · have hall : ∀ c ∈ b :: l, r a c :=
        List.forall_mem_cons.mpr ⟨hab, fun c hc => IsTrans.trans a b c hab (hb c hc)⟩
      rw [orderedInsert_of_forall hall,
        orderedInsert_of_forall fun c hc => hall c (List.mem_filter.mp hc).1, List.filter_cons]
    · rw [List.orderedInsert_of_not_le r l hab, List.filter_cons, List.filter_cons, ih hl]
      cases hp : p b with
      | false => rfl
      | true =>
        rw [if_pos rfl, if_pos rfl, List.orderedInsert_of_not_le r _ hab]
        split <;> rfl

/-- What is sorted out before is sorted like the rest. -/
theorem filter_insertionSort [Std.Total r] [IsTrans α r] (p : α → Bool) (l : List α) :
    (l.insertionSort r).filter p = (l.filter p).insertionSort r := by
  induction l with
  | nil => rfl
  | cons a l ih =>
    rw [List.insertionSort_cons, filter_orderedInsert p a (List.pairwise_insertionSort r l), ih,
      List.filter_cons]
    split <;> rfl

theorem Mapping.filter_sortKeys (p : Value × Value → Bool) (entries : Entries) :
    (sortKeys entries).filter p = sortKeys (entries.filter p) := filter_insertionSort p entries

/-- A row in which what has a property comes first. -/
theorem filter_append_filter {p : α → Bool} {l : List α}
    (h : l.Pairwise fun a b => p b = true → p a = true) :
    l.filter p ++ l.filter (fun a => !p a) = l := by
  induction l with
  | nil => rfl
  | cons a l ih =>
    obtain ⟨ha, hl⟩ := List.pairwise_cons.mp h
    cases hp : p a with
    | true => simp [hp, ih hl]
    | false =>
      have hnone : l.filter p = [] := List.filter_eq_nil_iff.mpr fun b hb hpb => by
        simp [ha b hb hpb] at hp
      simp only [hnone, List.nil_append] at ih
      simp [hp, hnone, ih hl]

end

namespace Node

/-- Entries in the order in which they are processed, given the texts of their keys. -/
def scanned (text : Value → String) (entries : Mapping.Entries) : Mapping.Entries :=
  (sortRanked (entries.map fun entry => (Rank.ofText (text entry.1), entry))).map (·.2)

theorem sortRanked_map {α β : Type} (f : α → β) (rows : List (Rank × α)) :
    sortRanked (rows.map fun row => (row.1, f row.2)) =
      (sortRanked rows).map fun row => (row.1, f row.2) := by
  rw [sortRanked_eq, sortRanked_eq]
  exact (List.map_insertionSort RankLE RankLE (fun row => (row.1, f row.2)) rows
    fun _ _ _ _ => Iff.rfl).symm

theorem inOrder_readEntries (text : Value → String) (entries : Mapping.Entries) :
    inOrder text (readEntries entries) = (scanned text entries).map readEntry := by
  have hrows : (readEntries entries).map (fun row => (Rank.ofText (text row.1), row.2)) =
      (entries.map fun entry => (Rank.ofText (text entry.1), entry)).map
        fun row => (row.1, readEntry row.2) := by
    rw [readEntries_eq_map, List.map_map, List.map_map]
    rfl
  rw [inOrder, hrows, sortRanked_map, scanned, List.map_map, List.map_map]
  rfl

/-- Whether an entry may be processed before another. -/
def ScanLE (text : Value → String) (a b : Value × Value) : Prop :=
  (Rank.ofText (text a.1)).le (Rank.ofText (text b.1)) = true

instance (text : Value → String) : DecidableRel (ScanLE text) := fun a b =>
  inferInstanceAs (Decidable ((Rank.ofText (text a.1)).le (Rank.ofText (text b.1)) = true))

instance (text : Value → String) : Std.Total (ScanLE text) := ⟨fun _ _ => Rank.le_total _ _⟩

instance (text : Value → String) : IsTrans (Value × Value) (ScanLE text) :=
  ⟨fun _ _ _ hab hbc => Rank.le_trans hab hbc⟩

theorem scanned_eq (text : Value → String) (entries : Mapping.Entries) :
    scanned text entries = entries.insertionSort (ScanLE text) := by
  have hmap := List.map_insertionSort RankLE (ScanLE text) (·.2)
    (entries.map fun entry => (Rank.ofText (text entry.1), entry)) (by
      rintro _ ha _ hb
      obtain ⟨a, -, rfl⟩ := List.mem_map.mp ha
      obtain ⟨b, -, rfl⟩ := List.mem_map.mp hb
      rfl)
  rw [scanned, sortRanked_eq, hmap, List.map_map]
  exact congrArg _ (List.map_id entries)

theorem mem_scanned {text : Value → String} {entries : Mapping.Entries} {entry : Value × Value} :
    entry ∈ scanned text entries ↔ entry ∈ entries := by
  rw [scanned_eq]
  exact List.mem_insertionSort _

/-- Entries with the same keys are processed in the same order, whatever their values are. -/
theorem scanned_map {α : Type} (text : Value → String) {p q : α → Value × Value} {rows : List α}
    (h : ∀ row ∈ rows, (q row).1 = (p row).1) : ∃ sorted : List α, sorted.Perm rows ∧
      scanned text (rows.map p) = sorted.map p ∧ scanned text (rows.map q) = sorted.map q := by
  refine ⟨rows.insertionSort fun a b => ScanLE text (p a) (p b), List.perm_insertionSort _ _,
    ?_, ?_⟩
  · rw [scanned_eq]
    exact (List.map_insertionSort _ (ScanLE text) p rows fun _ _ _ _ => Iff.rfl).symm
  · rw [scanned_eq]
    refine (List.map_insertionSort _ (ScanLE text) q rows fun a ha b hb => ?_).symm
    rw [ScanLE, ScanLE, h a ha, h b hb]

/-! ## Entries as they are read -/

/-- The entries that rows are read as, without those that are left out. -/
def liveEntries (rows : Mapping.Entries) : List Entry :=
  (rows.map readEntry).filterMap Reading.live?

theorem liveEntries_nil : liveEntries [] = [] := rfl

theorem liveEntries_cons (row : Value × Value) (rows : Mapping.Entries) :
    liveEntries (row :: rows) = (readEntry row).live?.toList ++ liveEntries rows := by
  simp only [liveEntries, List.map_cons, List.filterMap_cons]
  cases (readEntry row).live? <;> rfl

theorem liveEntries_append (rows others : Mapping.Entries) :
    liveEntries (rows ++ others) = liveEntries rows ++ liveEntries others := by
  simp only [liveEntries, List.map_append, List.filterMap_append]

theorem readEntry_merge {key : Value} (h : key.startsWith '<' = true) : ∃ s, ∀ value,
    readEntry (key, value) = unlessCommented key value (.merge s (ofValue value)) := by
  cases key with
  | str s =>
    obtain ⟨cs, hs⟩ := List.head?_eq_some_iff.mp (of_decide_eq_true h)
    exact ⟨s, fun value => by simp [readEntry, hs, KeyMark.ofChars]⟩
  | _ => cases h

theorem readEntry_dead {key : Value} (h : key.startsWith '/' = true) (value : Value) :
    readEntry (key, value) = .dead := by
  cases key with
  | str s =>
    obtain ⟨cs, hs⟩ := List.head?_eq_some_iff.mp (of_decide_eq_true h)
    simp [readEntry, hs, KeyMark.ofChars]
  | _ => cases h

theorem readEntry_apply {key : Value} (h : key.startsWith '^' = true) : ∃ s clause,
    key = .str s ∧ KeyMark.ofChars s.toList = .apply clause ∧ ∀ value,
      readEntry (key, value) = unlessCommented key value (.apply s clause (ofValue value)) := by
  cases key with
  | str s =>
    obtain ⟨cs, hs⟩ := List.head?_eq_some_iff.mp (of_decide_eq_true h)
    have hclause : KeyMark.ofChars s.toList = .apply (Leaf.strippedClause cs) := by
      rw [hs, KeyMark.ofChars]
    exact ⟨s, _, rfl, hclause, fun value => by rw [readEntry, hclause]⟩
  | _ => cases h

/-- The characters that a key may not begin with to be bound. -/
def keyMarks : List Char := ['%', '?', '/', '<', '^']

theorem readEntry_put {key : Value} (h : ∀ c ∈ keyMarks, key.startsWith c = false)
    (value : Value) : readEntry (key, value) =
      unlessCommented key value (.put (ofValue key) (ofValue value)) := by
  cases key with
  | str s =>
    have hmark : KeyMark.ofChars s.toList = .none := by
      simp only [keyMarks, Value.startsWith, List.forall_mem_cons, decide_eq_false_iff_not] at h
      unfold KeyMark.ofChars
      split <;> simp_all
    rw [readEntry, hmark]
    rfl
  | _ => rfl

theorem unlessCommented_whole? (key value : Value) (entry : Entry) :
    (unlessCommented key value entry).whole? = none := by
  unfold unlessCommented
  split
  · split <;> rfl
  · rfl

theorem readEntry_whole?_eq_none {key : Value} (heach : key.startsWith '%' = false)
    (hswitch : key.startsWith '?' = false) (value : Value) :
    (readEntry (key, value)).whole? = none := by
  cases key with
  | str s =>
    simp only [Value.startsWith, decide_eq_false_iff_not] at heach hswitch
    rw [readEntry]
    cases hmark : KeyMark.ofChars s.toList with
    | each clause =>
      unfold KeyMark.ofChars at hmark
      split at hmark <;> simp_all
    | switch clause =>
      unfold KeyMark.ofChars at hmark
      split at hmark <;> simp_all
    | dead => rfl
    | _ => exact unlessCommented_whole? _ _ _
  | _ => exact unlessCommented_whole? _ _ _

/-! ## Directives in the place of a mapping -/

/-- A key of a directive that takes the place of the whole mapping. -/
def takesPlace (key : Value) : Bool := key.startsWith '%' || key.startsWith '?'

/-- The entry of the directive that takes the place of a mapping: the first that there is. -/
def honoured? (text : Value → String) (entries : Mapping.Entries) : Option (Value × Value) :=
  (scanned text entries).find? fun row => takesPlace row.1

theorem not_takesPlace_of_dead {key : Value} (h : key.startsWith '/' = true) :
    takesPlace key = false := by
  refine Bool.eq_false_iff.mpr fun hplace => ?_
  rcases Bool.or_eq_true_iff.mp hplace with hmark | hmark <;>
    cases Value.startsWith_unique h hmark

theorem honoured?_eq_none {text : Value → String} {entries : Mapping.Entries} :
    honoured? text entries = none ↔ ∀ row ∈ entries, takesPlace row.1 = false := by
  simp [honoured?, mem_scanned]

/-- The first row of its sort in the order of processing is honoured. -/
theorem honoured?_of_scanned {α : Type} {text : Value → String} {entries : Mapping.Entries}
    {rows : List α} {p : α → Value × Value} (h : scanned text entries = rows.map p) :
    honoured? text entries = (rows.find? fun row => takesPlace (p row).1).map p := by
  rw [honoured?, h, List.find?_map]
  rfl

/-- An entry is honoured if all others of its sort come after it. -/
theorem honoured?_eq_some {text : Value → String} {row : Value × Value}
    (hrow : takesPlace row.1 = true) {before after : Mapping.Entries}
    (hbefore : ∀ other ∈ before, takesPlace other.1 = true → ¬ScanLE text other row)
    (hafter : ∀ other ∈ after, takesPlace other.1 = true → ScanLE text row other) :
    honoured? text (before ++ row :: after) = some row := by
  have hsorted : ∀ {before after : Mapping.Entries}, (∀ other ∈ before, ¬ScanLE text other row) →
      (∀ other ∈ after, ScanLE text row other) →
      ((before ++ row :: after).insertionSort (ScanLE text)).head? = some row := by
    intro before after hbefore hafter
    induction before with
    | nil =>
      rw [List.nil_append, List.insertionSort_cons,
        orderedInsert_of_forall fun other hother =>
          hafter other ((List.mem_insertionSort _).mp hother)]
      rfl
    | cons other before ih =>
      obtain ⟨hother, hbefore⟩ := List.forall_mem_cons.mp hbefore
      obtain ⟨rest, hrest⟩ := List.head?_eq_some_iff.mp (ih hbefore)
      rw [List.cons_append, List.insertionSort_cons, hrest,
        List.orderedInsert_of_not_le _ _ hother]
      rfl
  rw [honoured?, ← List.head?_filter, scanned_eq, filter_insertionSort, List.filter_append,
    List.filter_cons, if_pos hrow]
  refine hsorted (fun other hother => ?_) fun other hother => ?_
  · exact hbefore other (List.mem_filter.mp hother).1 (List.mem_filter.mp hother).2
  · exact hafter other (List.mem_filter.mp hother).1 (List.mem_filter.mp hother).2

theorem readEntry_each {key clause : String} (h : KeyMark.ofChars key.toList = .each clause)
    (value : Value) : readEntry (.str key, value) = .whole (.each key clause (ofValue value)) := by
  rw [readEntry, h]

theorem readEntry_switch {key clause : String} (h : KeyMark.ofChars key.toList = .switch clause)
    (value : Value) : readEntry (.str key, value) = .whole (ofSwitch key clause value) := by
  rw [readEntry, h]

theorem exists_mark {key : Value} (h : takesPlace key = true) : ∃ source clause,
    key = .str source ∧ (KeyMark.ofChars source.toList = .each clause ∨
      KeyMark.ofChars source.toList = .switch clause) := by
  cases key with
  | str source =>
    rcases Bool.or_eq_true_iff.mp h with h | h <;>
      obtain ⟨cs, hs⟩ := List.head?_eq_some_iff.mp (of_decide_eq_true h)
    · exact ⟨source, String.ofList cs, rfl, .inl (by rw [hs, KeyMark.ofChars])⟩
    · exact ⟨source, String.ofList cs, rfl, .inr (by rw [hs, KeyMark.ofChars])⟩
  | _ => cases h

theorem isSome_whole? (key value : Value) :
    (readEntry (key, value)).whole?.isSome = takesPlace key := by
  cases htakes : takesPlace key with
  | false =>
    obtain ⟨heach, hswitch⟩ := Bool.or_eq_false_iff.mp htakes
    rw [readEntry_whole?_eq_none heach hswitch]
    rfl
  | true =>
    obtain ⟨source, clause, rfl, hmark | hmark⟩ := exists_mark htakes
    · rw [readEntry_each hmark]
      rfl
    · rw [readEntry_switch hmark]
      rfl

/-- What takes the place of a mapping is read off the entry that is honoured. -/
theorem ofReadings_scanned (text : Value → String) (entries : Mapping.Entries) :
    ofReadings (inOrder text (readEntries entries)) =
      ((honoured? text entries).bind fun row => (readEntry row).whole?).getD
        (.merge (liveEntries (scanned text entries))) := by
  have hfirst : ∀ rows : Mapping.Entries, (rows.map readEntry).findSome? Reading.whole? =
      (rows.find? fun row => takesPlace row.1).bind fun row => (readEntry row).whole? := by
    intro rows
    induction rows with
    | nil => rfl
    | cons row rows ih =>
      have hrow := isSome_whole? row.1 row.2
      rw [List.map_cons, List.findSome?_cons, List.find?_cons, ih, ← hrow]
      cases hwhole : (readEntry row).whole? <;> simp [hwhole]
  rw [inOrder_readEntries, ofReadings, hfirst, honoured?, liveEntries]
  cases ((scanned text entries).find? _).bind _ <;> rfl

end Node

/-! ## Scalar keys -/

/-- A scalar stands before others exactly for the mark of a merge. -/
theorem Value.Scalar.keyText_head {key : Value} (h : key.Scalar) :
    key.keyText.toList.head? = some '<' ↔ key.startsWith '<' = true := by
  cases key with
  | str s => simp [keyText, text, startsWith]
  | _ =>
    have hinert : InertScalar _ := ⟨h, fun _ heq => by cases heq⟩
    simp [hinert.keyText_head, startsWith]

namespace Node

variable {text : Value → String} (htext : ∀ key : Value, key.Scalar → text key = key.keyText)
include htext

/-- Whether a scalar stands before another. -/
theorem scanLE_scalar {a b : Value × Value} (ha : a.1.Scalar) (hb : b.1.Scalar) :
    ScanLE text a b ↔ if a.1.startsWith '<' = b.1.startsWith '<' then Mapping.KeyLE a b
      else a.1.startsWith '<' = true := by
  have hplain : ∀ {key : Value}, key.Scalar →
      (Rank.ofText (text key)).plain = !key.startsWith '<' := fun {key} hkey => by
    rw [htext key hkey, Rank.ofText, Bool.eq_iff_iff]
    simp [hkey.keyText_head]
  rw [ScanLE, Rank.le, hplain ha, hplain hb, Rank.ofText, Rank.ofText, htext _ ha, htext _ hb,
    Mapping.KeyLE]
  cases a.1.startsWith '<' <;> cases b.1.startsWith '<' <;> simp

/-- Entries with scalar keys: those with the mark of a merge first, and either kind in the order of
the texts of their keys. -/
theorem scanned_scalar {entries : Mapping.Entries} (hkeys : ∀ entry ∈ entries, entry.1.Scalar) :
    scanned text entries = Mapping.sortKeys (entries.filter fun row => row.1.startsWith '<') ++
      Mapping.sortKeys (entries.filter fun row => !row.1.startsWith '<') := by
  have hfirst : (entries.insertionSort (ScanLE text)).Pairwise fun a b =>
      b.1.startsWith '<' = true → a.1.startsWith '<' = true := by
    refine (List.pairwise_insertionSort (ScanLE text) entries).imp_of_mem fun ha hb hab hmerge => ?_
    have ha := hkeys _ ((List.mem_insertionSort _).mp ha)
    have hb := hkeys _ ((List.mem_insertionSort _).mp hb)
    rw [scanLE_scalar htext ha hb, hmerge] at hab
    split at hab <;> assumption
  have hsort : ∀ p : Value → Bool, (∀ a b, p a = true → p b = true →
      a.startsWith '<' = b.startsWith '<') → (entries.filter fun row => p row.1).insertionSort
        (ScanLE text) = Mapping.sortKeys (entries.filter fun row => p row.1) := fun p hp => by
    have hmap := List.map_insertionSort (ScanLE text) Mapping.KeyLE id
      (entries.filter fun row => p row.1) fun a ha b hb => by
        obtain ⟨ha, hpa⟩ := List.mem_filter.mp ha
        obtain ⟨hb, hpb⟩ := List.mem_filter.mp hb
        rw [scanLE_scalar htext (hkeys a ha) (hkeys b hb), if_pos (hp _ _ hpa hpb)]
        rfl
    simpa [Mapping.sortKeys] using hmap
  rw [scanned_eq, ← filter_append_filter hfirst, filter_insertionSort, filter_insertionSort,
    hsort (fun key => key.startsWith '<') fun a b ha hb => ha.trans hb.symm,
    hsort (fun key => !key.startsWith '<') fun a b ha hb => by simp_all]

end Node
end TreeTemplate
