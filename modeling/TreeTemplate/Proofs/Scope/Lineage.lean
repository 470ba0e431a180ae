import Mathlib.Data.List.Basic
import TreeTemplate.Scope.Forest

/-! # Lines of ancestors

An environment and its ancestors are a line (`Forest.line`), which ends because every parent is
older than its child (`Forest.Sound`).  What a key means in an environment is decided by the first
one on its line that owns the key (`Forest.value?_eq`).
-/
namespace TreeTemplate

/-- Keys that are the same are bound to the same value. -/
theorem Mapping.find?_congr {key other : Value} (h : key.sameKey other = true) (entries : Entries) :
    find? entries key = find? entries other := by
  induction entries with
  | nil => rfl
  | cons entry rest ih =>
    obtain ⟨k, v⟩ := entry
    have hk : k.sameKey key = k.sameKey other := by
      rw [Bool.eq_iff_iff]
      refine ⟨fun hk => Value.sameKey_trans hk h, fun hk => ?_⟩
      rw [Value.sameKey_comm] at h
      exact Value.sameKey_trans hk h
    rw [find?_cons, find?_cons, hk, ih]

/-- The frames of a scope are asked one after another. -/
theorem Scope.find?_eq_findSome? (scope : Scope) (key : Value) :
    scope.find? key = scope.findSome? (ownValue? · key) := by
  induction scope with
  | nil => rfl
  | cons frame outer ih =>
    rw [find?_cons, List.findSome?_cons, ih]
    cases ownValue? frame key <;> rfl

namespace Forest

/-! ## Environments by number -/

theorem lt_of_find? {F : Forest} {id : Nat} {e : Environment} (h : F.find? id = some e) :
    id < F.length := by
  induction F with
  | nil => cases h
  | cons first older ih =>
    by_cases hid : id = older.length
    · simp [hid]
    · rw [find?, if_neg hid] at h
      exact Nat.lt_succ_of_lt (ih h)

/-- An environment that is made later is no older one. -/
theorem find?_cons_of_lt {F : Forest} {id : Nat} (h : id < F.length) (e : Environment) :
    find? (e :: F) id = F.find? id :=
  if_neg (Nat.ne_of_lt h)

theorem exists_find? {F : Forest} {id : Nat} (h : id < F.length) : ∃ e, F.find? id = some e := by
  induction F with
  | nil => cases h
  | cons first older ih =>
    by_cases hid : id = older.length
    · exact ⟨first, if_pos hid⟩
    · have hlt : id < older.length := by
        rw [List.length_cons] at h
        omega
      rw [find?_cons_of_lt hlt]
      exact ih hlt

theorem find?_modify (F : Forest) (id other : Nat) (data : Value) :
    (F.modify id data).find? other =
      if other = id then (F.find? id).map fun e => { e with data := data } else F.find? other := by
  induction F with
  | nil => simp [modify, find?]
  | cons first older ih =>
    by_cases hid : id = older.length <;> by_cases hother : other = older.length <;>
      simp_all [modify, find?]
    · intro h
      omega

/-! ## Lines -/

/-- The numbers of an environment and its ancestors, nearest first. -/
def line : Forest → Nat → List Nat
  | [], _ => []
  | e :: older, id =>
    if id = older.length then id :: (e.parent.map (line older)).getD [] else line older id

/-- Every parent is older than its child. -/
def Sound (F : Forest) : Prop :=
  ∀ id e parent, F.find? id = some e → e.parent = some parent → parent < id

/-- A row of numbers leads from an environment by parents to one that has none. -/
inductive Lineage (F : Forest) : Nat → List Nat → Prop
  | root {id : Nat} {e : Environment} (he : F.find? id = some e) (hp : e.parent = none) :
    Lineage F id [id]
  | child {id parent : Nat} {e : Environment} {rest : List Nat} (he : F.find? id = some e)
    (hp : e.parent = some parent) (h : Lineage F parent rest) : Lineage F id (id :: rest)

theorem Lineage.cons {F : Forest} {id : Nat} {ids : List Nat} (h : Lineage F id ids)
    (e : Environment) : Lineage (e :: F) id ids := by
  induction h with
  | root he hp => exact .root (by rwa [find?_cons_of_lt (lt_of_find? he)]) hp
  | child he hp _ ih => exact .child (by rwa [find?_cons_of_lt (lt_of_find? he)]) hp ih

theorem Sound.tail {e : Environment} {F : Forest} (h : Sound (e :: F)) : Sound F := by
  intro id e' parent he hp
  refine h id e' parent ?_ hp
  rwa [find?_cons_of_lt (lt_of_find? he)]

theorem lt_of_mem_line {F : Forest} {id other : Nat} (h : other ∈ F.line id) :
    other < F.length := by
  induction F generalizing id with
  | nil => cases h
  | cons e older ih =>
    rw [List.length_cons]
    unfold line at h
    split at h
    · rcases List.mem_cons.mp h with rfl | h
      · omega
      · cases hp : e.parent with
        | none => simp [hp] at h
        | some parent =>
          rw [hp] at h
          exact Nat.lt_succ_of_lt (ih h)
    · exact Nat.lt_succ_of_lt (ih h)

/-- By induction on the environments: the line of an environment goes on in the older ones. -/
theorem Sound.lineage {F : Forest} (h : F.Sound) {id : Nat} (hid : id < F.length) :
    F.Lineage id (F.line id) := by
  induction F generalizing id with
  | nil => cases hid
  | cons e older ih =>
    unfold line
    split
    · rename_i heq
      have he : find? (e :: older) id = some e := if_pos heq
      cases hp : e.parent with
      | none => exact .root he hp
      | some parent =>
        have hlt : parent < older.length := heq ▸ h id e parent he hp
        exact .child he hp ((ih h.tail hlt).cons e)
    · rename_i hne
      refine (ih h.tail ?_).cons e
      rw [List.length_cons] at hid
      omega

/-- Whoever is further on in a line is older. -/
theorem pairwise_line (F : Forest) (id : Nat) : (F.line id).Pairwise (· > ·) := by
  induction F generalizing id with
  | nil => exact .nil
  | cons e older ih =>
    unfold line
    split
    · rename_i heq
      cases e.parent with
      | none => exact List.pairwise_singleton _ _
      | some parent =>
        refine List.pairwise_cons.mpr ⟨fun other h => ?_, ih parent⟩
        rw [heq]
        exact lt_of_mem_line h
    · exact ih id

theorem line_cons_of_lt {F : Forest} {id : Nat} (h : id < F.length) (e : Environment) :
    line (e :: F) id = F.line id :=
  if_neg (Nat.ne_of_lt h)

@[simp] theorem line_modify (F : Forest) (id other : Nat) (data : Value) :
    (F.modify id data).line other = F.line other := by
  induction F generalizing other with
  | nil => rfl
  | cons e older ih =>
    by_cases hid : id = older.length
    · simp [modify, hid, line]
    · have hline : line (modify older id data) = line older := funext ih
      simp [modify, hid, line, hline]

/-- A scope is the data along a line. -/
theorem scope_eq_filterMap_line (F : Forest) (id : Nat) :
    F.scope id = (F.line id).filterMap fun other => (F.find? other).map (·.data) := by
  induction F generalizing id with
  | nil => rfl
  | cons e older ih =>
    -- what older environments hold is not changed by a newer one
    have holder : ∀ id, (line older id).filterMap
        (fun other => (find? (e :: older) other).map (·.data)) = scope older id := fun id => by
      rw [ih id]
      exact List.filterMap_congr fun other h => by rw [find?_cons_of_lt (lt_of_mem_line h)]
    by_cases hid : id = older.length
    · have he : find? (e :: older) id = some e := if_pos hid
      cases hp : e.parent with
      | none => simp [scope, chain, line, ← hid, hp, he]
      | some parent =>
        have hscope := holder parent
        simp only [scope] at hscope ⊢
        simp [chain, line, ← hid, hp, he, hscope]
    · have hscope := holder id
      simp only [scope] at hscope ⊢
      simp [chain, line, hid, hscope]

/-! ## Owners -/

/-- The value that an environment itself binds to a key. -/
def own? (F : Forest) (id : Nat) (key : Value) : Option Value :=
  (F.find? id).bind fun e => Scope.ownValue? e.data key

/-- Whether an environment binds a key itself. -/
def owns (F : Forest) (id : Nat) (key : Value) : Bool := (F.own? id key).isSome

/-- The first environment on the line of another one that binds a key. -/
def owner? (F : Forest) (id : Nat) (key : Value) : Option Nat := (F.line id).find? (F.owns · key)

/-- The value of a key in an environment, if it has one. -/
def value? (F : Forest) (id : Nat) (key : Value) : Option Value := (F.scope id).find? key

/-- Keys that are the same have the same owners. -/
theorem own?_congr {key other : Value} (h : key.sameKey other = true) (F : Forest) (id : Nat) :
    F.own? id key = F.own? id other := by
  unfold own? Scope.ownValue?
  simp only [Mapping.find?_congr h]

/-- A line is asked one environment after another. -/
theorem value?_eq_findSome? (F : Forest) (id : Nat) (key : Value) :
    F.value? id key = (F.line id).findSome? (F.own? · key) := by
  rw [value?, Scope.find?_eq_findSome?, scope_eq_filterMap_line, ← List.head?_filterMap,
    List.filterMap_filterMap, ← List.head?_filterMap]
  congr 2
  funext other
  rw [own?, Option.bind_map]
  rfl

/-- The first find is in the first place where there is something. -/
theorem findSome?_eq_bind_find? (f : Nat → Option Value) (ids : List Nat) :
    ids.findSome? f = (ids.find? fun a => (f a).isSome).bind f := by
  induction ids with
  | nil => rfl
  | cons a rest ih =>
    rw [List.findSome?_cons, List.find?_cons, ih]
    cases hf : f a with
    | some v => simp [hf]
    | none => rfl

/-- The first owner decides. -/
theorem value?_eq (F : Forest) (id : Nat) (key : Value) :
    F.value? id key = (F.owner? id key).bind (F.own? · key) :=
  (value?_eq_findSome? F id key).trans (findSome?_eq_bind_find? _ _)

theorem exists_own?_of_owner? {F : Forest} {id first : Nat} {key : Value}
    (h : F.owner? id key = some first) : ∃ v, F.own? first key = some v :=
  Option.isSome_iff_exists.mp (List.find?_some (p := (F.owns · key)) h)

theorem owner?_eq_none {F : Forest} {id : Nat} {key : Value} :
    F.owner? id key = none ↔ ∀ other ∈ F.line id, F.owns other key = false := by
  simp [owner?]

end Forest
end TreeTemplate
