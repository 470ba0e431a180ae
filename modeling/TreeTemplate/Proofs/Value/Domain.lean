import TreeTemplate.Scope
import TreeTemplate.Value.Index

/-! # Domains of values

A class of values is closed when it has the scalars that templates make, and building lists and
mappings and taking lists, tuples and mappings apart do not lead out of it (`Value.Closed`).  A
domain has every number with a point as well, so that templates do not leave it whatever they
spell (`Value.Domain`).  Data without anything that the host lends is one (`Value.Plain`), what
can be written as a document is another (`Value.IsDocument`), and so are all values.
-/
namespace TreeTemplate

/-- Entries with keys of `K` and values of `V`. -/
def Mapping.Within (V K : Value → Prop) (entries : Entries) : Prop :=
  ∀ entry ∈ entries, K entry.1 ∧ V entry.2

namespace Mapping.Within

variable {V K : Value → Prop} {entries part : Entries}

theorem nil : Within V K [] := by simp [Within]

theorem insert (h : Within V K entries) {key value : Value} (hk : K key) (hv : V value) :
    Within V K (Mapping.insert entries key value) := by
  induction entries with
  | nil => simpa [Mapping.insert, Within] using ⟨hk, hv⟩
  | cons first rest ih =>
    obtain ⟨k, v⟩ := first
    obtain ⟨⟨hk', hv'⟩, hrest⟩ := List.forall_mem_cons.mp h
    by_cases hsame : k.sameKey key = true
    · rw [Mapping.insert, if_pos hsame]
      exact List.forall_mem_cons.mpr ⟨⟨hk', hv⟩, hrest⟩
    · rw [Mapping.insert, if_neg hsame]
      exact List.forall_mem_cons.mpr ⟨⟨hk', hv'⟩, ih hrest⟩

theorem update (h : Within V K entries) (hp : Within V K part) :
    Within V K (Mapping.update entries part) := by
  induction part generalizing entries with
  | nil => exact h
  | cons first rest ih =>
    obtain ⟨⟨hk, hv⟩, hrest⟩ := List.forall_mem_cons.mp hp
    exact ih (h.insert hk hv) hrest

theorem of_find? (h : Within V K entries) {key v : Value} (hf : find? entries key = some v) :
    V v := by
  obtain ⟨entry, hentry, rfl⟩ := Option.map_eq_some_iff.mp hf
  exact (h entry (List.mem_of_find?_eq_some hentry)).2

end Mapping.Within

namespace Value

/-- The values of `V`, with keys of `K`, are closed under what templates do with values. -/
structure Closed (V K : Value → Prop) : Prop where
  null : V .null
  bool (b : Bool) : V (.bool b)
  int (n : Int) : V (.int n)
  str (s : String) : V (.str s)
  list {items : List Value} : V (.list items) ↔ ∀ v ∈ items, V v
  tuple {items : List Value} (h : V (.tuple items)) : ∀ v ∈ items, V v
  map {entries : List (Value × Value)} : V (.map entries) ↔ Mapping.Within V K entries
  key {v : Value} (h : V v) (hk : v.isHashable = true) : K v
  ofKey {v : Value} (h : K v) : V v

/-- A closed class of values that has every double. -/
structure Domain (V K : Value → Prop) : Prop extends Closed V K where
  float (x : Binary64) : V (.float x)

/-- Data that consists of scalars, lists, tuples and mappings: no moment and nothing that the
host lends is part of it. -/
inductive Plain : Value → Prop
  | null : Plain .null
  | bool (b : Bool) : Plain (.bool b)
  | int (n : Int) : Plain (.int n)
  | float (x : Binary64) : Plain (.float x)
  | str (s : String) : Plain (.str s)
  | bytes (bs : List UInt8) : Plain (.bytes bs)
  | list {items : List Value} (h : ∀ v ∈ items, Plain v) : Plain (.list items)
  | tuple {items : List Value} (h : ∀ v ∈ items, Plain v) : Plain (.tuple items)
  | map {entries : List (Value × Value)} (hk : ∀ entry ∈ entries, Plain entry.1)
    (hv : ∀ entry ∈ entries, Plain entry.2) : Plain (.map entries)

/-- A single name bound to a plain value. -/
theorem Plain.entry {name : String} {v : Value} (h : Plain v) : Plain (.map [(.str name, v)]) :=
  .map (by simp [Plain.str]) (by simp [h])

theorem domain_all : Domain (fun _ => True) fun _ => True :=
  ⟨by constructor <;> simp [Mapping.Within], fun _ => trivial⟩

/-- A value without parts. -/
inductive Scalar : Value → Prop
  | null : Scalar .null
  | bool (b : Bool) : Scalar (.bool b)
  | int (n : Int) : Scalar (.int n)
  | float (x : Binary64) : Scalar (.float x)
  | str (s : String) : Scalar (.str s)

/-- A value that consists of scalars, of lists, and of mappings with scalar keys. -/
inductive IsDocument : Value → Prop
  | scalar {v : Value} (h : v.Scalar) : IsDocument v
  | list {items : List Value} (h : ∀ v ∈ items, IsDocument v) : IsDocument (.list items)
  | map {entries : List (Value × Value)} (hk : ∀ entry ∈ entries, Scalar entry.1)
    (hv : ∀ entry ∈ entries, IsDocument entry.2) : IsDocument (.map entries)

/-- The keys of documents are scalars, so whatever a document can have for a key is one of them. -/
theorem document_domain : Domain IsDocument Scalar where
  null := .scalar .null
  bool b := .scalar (.bool b)
  int n := .scalar (.int n)
  float x := .scalar (.float x)
  str s := .scalar (.str s)
  list := by
    refine ⟨fun h => ?_, .list⟩
    cases h with
    | scalar h => cases h
    | list h => exact h
  tuple h := by
    cases h with
    | scalar h => cases h
  map := by
    refine ⟨fun h entry he => ?_, fun h => .map (fun e he => (h e he).1) fun e he => (h e he).2⟩
    cases h with
    | scalar h => cases h
    | map hk hv => exact ⟨hk entry he, hv entry he⟩
  key h hk := by
    cases h with
    | scalar h => exact h
    | list | map => cases hk
  ofKey := .scalar

/-- A document holds nothing that a host lends. -/
theorem IsDocument.ne_host {v : Value} (h : v.IsDocument) (r : HostRef) : v ≠ .host r := by
  rintro rfl
  cases h with
  | scalar h => cases h

namespace Closed

variable {V K : Value → Prop} (D : Closed V K)

include D

theorem strKey (s : String) : K (.str s) := D.key (D.str s) rfl

theorem ofItems {v : Value} {items : List Value} (hv : V v) (h : v.items? = some items) :
    ∀ w ∈ items, V w := by
  cases v with
  | list ws =>
    cases h
    exact D.list.mp hv
  | tuple ws =>
    cases h
    exact D.tuple hv
  | _ => cases h

theorem getD_find? {entries : Mapping.Entries} (h : Mapping.Within V K entries) (key : Value) :
    V ((Mapping.find? entries key).getD .null) := by
  cases hf : Mapping.find? entries key with
  | none => exact D.null
  | some v => exact h.of_find? hf

/-- The entry of a mapping that a key selects. -/
theorem selectEntry {entries : Mapping.Entries} (h : V (.map entries))
    (host : HostRef → String) (key : Value) : V (Value.selectEntry host entries key) := by
  have h := D.map.mp h
  unfold Value.selectEntry
  split
  · exact h.of_find? ‹_›
  · split
    · exact D.getD_find? h _
    · exact D.null

/-- The item of a list that a key selects. -/
theorem selectItem {items : List Value} (h : ∀ v ∈ items, V v) {key v : Value}
    (hv : Value.selectItem items key = .ok v) : V v := by
  have hitem : ∀ i, V ((itemAt? items i).getD .null) := by
    intro i
    cases hi : itemAt? items i with
    | none => exact D.null
    | some w =>
      refine h w ?_
      unfold itemAt? at hi
      split at hi
      · exact List.mem_of_getElem? hi
      · split at hi
        · exact List.mem_of_getElem? hi
        · cases hi
  unfold Value.selectItem at hv
  split at hv
  · cases hv
  · cases hv
    exact D.null
  · cases hv
    exact hitem _

/-- The value of a name. -/
theorem get {scope : Scope} (h : ∀ frame ∈ scope, V frame) (key : Value) :
    V (scope.get key) := by
  unfold Scope.get
  induction scope with
  | nil => exact D.null
  | cons frame outer ih =>
    obtain ⟨hframe, houter⟩ := List.forall_mem_cons.mp h
    rw [Scope.find?_cons]
    cases hown : Scope.ownValue? frame key with
    | none => exact ih houter
    | some v =>
      obtain ⟨entries, he, hf⟩ := Option.bind_eq_some_iff.mp hown
      cases frame with
      | map es =>
        cases he
        exact (D.map.mp hframe).of_find? hf
      | _ => cases he

/-- The scope of one round of a loop. -/
theorem enter {scope : Scope} (h : ∀ frame ∈ scope, V frame) {item : Value} (hi : V item) :
    ∀ frame ∈ scope.enter item, V frame := by
  have hbind : ∀ frame ∈ scope.bind "_" item, V frame :=
    List.forall_mem_cons.mpr ⟨D.map.mpr (by simpa [Mapping.Within] using ⟨D.strKey "_", hi⟩), h⟩
  cases item with
  | map entries => exact List.forall_mem_cons.mpr ⟨hi, h⟩
  | _ => exact hbind

end Closed

/-- Only an infinite number cannot be a position. -/
theorem position?_error {key : Value} {e : Fault} (h : key.position? = .error e) :
    e = .infiniteIndex ∧ ∃ negative, key = .float (.infinite negative) := by
  unfold position? at h
  split at h
  case h_3 negative =>
    cases h
    exact ⟨rfl, negative, rfl⟩
  all_goals cases h

/-- Only an infinite number cannot select an item at all. -/
theorem selectItem_error {items : List Value} {key : Value} {e : Fault}
    (h : selectItem items key = .error e) :
    e = .infiniteIndex ∧ ∃ negative, key = .float (.infinite negative) := by
  unfold selectItem at h
  split at h
  · cases h
    exact position?_error ‹_›
  · cases h
  · cases h

end Value

end TreeTemplate
