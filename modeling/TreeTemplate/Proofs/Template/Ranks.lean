import Mathlib.Data.List.Pairwise
import Mathlib.Data.List.Sort
import TreeTemplate.Template.Node

/-! # Entries in the order of their ranks

Ranked rows are sorted by insertion (`Node.sortRanked_eq`), so that nothing is added and nothing is
lost.  Of rows whose ranks are all different there is one order only, however they stood
(`Node.inOrder_perm`).
-/
namespace TreeTemplate.Node

variable {α : Type}

theorem Rank.le_total (a b : Rank) : a.le b = true ∨ b.le a = true := by
  unfold le
  by_cases h : a.plain = b.plain
  · simpa [h] using String.le_total a.text b.text
  · have h' : ¬b.plain = a.plain := fun hba => h hba.symm
    rw [if_neg h, if_neg h']
    cases ha : a.plain <;> cases hb : b.plain <;> simp_all

theorem Rank.le_trans {a b c : Rank} (hab : a.le b = true) (hbc : b.le c = true) :
    a.le c = true := by
  unfold le at *
  split at hab <;> split at hbc <;> split <;> simp_all
  exact String.le_trans hab hbc

theorem Rank.le_antisymm {a b : Rank} (hab : a.le b = true) (hba : b.le a = true) : a = b := by
  obtain ⟨ap, atext⟩ := a
  obtain ⟨bp, btext⟩ := b
  unfold le at *
  split at hab <;> split at hba <;> simp_all
  exact String.le_antisymm hab hba

/-- Whether a row may stand before another. -/
def RankLE (a b : Rank × α) : Prop := a.1.le b.1 = true

instance : DecidableRel (RankLE (α := α)) := fun a b =>
  inferInstanceAs (Decidable (a.1.le b.1 = true))

instance : Std.Total (RankLE (α := α)) := ⟨fun a b => Rank.le_total a.1 b.1⟩

instance : IsTrans (Rank × α) RankLE := ⟨fun _ _ _ hab hbc => Rank.le_trans hab hbc⟩

/-- Ranked rows are sorted by insertion. -/
theorem sortRanked_eq (rows : List (Rank × α)) : sortRanked rows = rows.insertionSort RankLE := by
  have hinsert : ∀ (r : Rank) (a : α) (rows : List (Rank × α)),
      insertRanked r a rows = rows.orderedInsert RankLE (r, a) := by
    intro r a rows
    induction rows with
    | nil => rfl
    | cons row rest ih =>
      obtain ⟨s, b⟩ := row
      rw [insertRanked, List.orderedInsert_cons, ih]
      rfl
  induction rows with
  | nil => rfl
  | cons row rest ih =>
    obtain ⟨r, a⟩ := row
    rw [sortRanked, hinsert, ih, List.insertionSort_cons]

theorem sortRanked_perm (rows : List (Rank × α)) : (sortRanked rows).Perm rows := by
  rw [sortRanked_eq]
  exact List.perm_insertionSort _ _

theorem pairwise_sortRanked (rows : List (Rank × α)) : (sortRanked rows).Pairwise RankLE := by
  rw [sortRanked_eq]
  exact List.pairwise_insertionSort _ _

/-- Rows of different ranks come in one order, however they stood. -/
theorem sortRanked_of_perm {rows others : List (Rank × α)} (hp : others.Perm rows)
    (hd : rows.Pairwise fun a b => a.1 ≠ b.1) : sortRanked others = sortRanked rows := by
  have hsymm : Std.Symm fun a b : Rank × α => a.1 ≠ b.1 := ⟨fun _ _ h => h.symm⟩
  have hothers := (sortRanked_perm others).trans hp
  have hrows := sortRanked_perm rows
  have hsame : ∀ a b, a ∈ sortRanked others → b ∈ sortRanked rows → RankLE a b → RankLE b a →
      a = b := by
    intro a b ha hb hab hba
    by_contra hne
    exact hd.forall (hothers.mem_iff.mp ha) (hrows.mem_iff.mp hb) hne (Rank.le_antisymm hab hba)
  exact List.Perm.eq_of_pairwise hsame (pairwise_sortRanked others) (pairwise_sortRanked rows)
    (hothers.trans hrows.symm)

/-- Putting entries in order adds nothing. -/
theorem exists_row_of_mem_inOrder {text : Value → String} {rows : List (Value × Reading)}
    {reading : Reading} (h : reading ∈ inOrder text rows) : ∃ row ∈ rows, row.2 = reading := by
  obtain ⟨ranked, hranked, rfl⟩ := List.mem_map.mp h
  obtain ⟨row, hrow, rfl⟩ := List.mem_map.mp ((sortRanked_perm _).mem_iff.mp hranked)
  exact ⟨row, hrow, rfl⟩

/-- Entries whose keys have different texts come in one order, however they stood. -/
theorem inOrder_perm {text : Value → String} {rows others : List (Value × Reading)}
    (hp : others.Perm rows) (hd : rows.Pairwise fun a b => text a.1 ≠ text b.1) :
    inOrder text others = inOrder text rows := by
  have hranks : (rows.map fun row => (Rank.ofText (text row.1), row.2)).Pairwise
      fun a b => a.1 ≠ b.1 :=
    List.pairwise_map.mpr (hd.imp fun hne h => hne (congrArg Rank.text h))
  rw [inOrder, inOrder, sortRanked_of_perm (hp.map _) hranks]

end TreeTemplate.Node
