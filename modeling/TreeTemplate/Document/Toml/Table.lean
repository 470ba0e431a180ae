import TreeTemplate.Value.Basic

/-! # Tables of TOML

The tables of a document while it is being read.  A table comes into being by its heading,
by the heading of a table inside it, or by a key with points, and who made it decides who
may still add to it: only the section that a heading or a key with points has claimed a
table for.  Values never grow, and neither do tables in braces, which are values.
-/
namespace TreeTemplate.Document.Toml

/-- What a key of a table is bound to. -/
inductive Bound where
  | value (v : Value)
  /-- A table, with the section that has claimed it. -/
  | table (claim : Option Nat) (entries : List (String × Bound))
  /-- A row of tables, of which the last one can grow. -/
  | tables (earlier : List Value) (last : List (String × Bound))

/-- The entries of a table. -/
abbrev Table := List (String × Bound)

mutual

/-- What a key is bound to once nothing can be added. -/
def Bound.toValue : Bound → Value
  | .value v => v
  | .table _ entries => .map (entryValues entries)
  | .tables earlier last => .list (earlier ++ [.map (entryValues last)])

/-- The entries of a table once nothing can be added. -/
def entryValues : List (String × Bound) → List (Value × Value)
  | [] => []
  | (key, bound) :: rest => (.str key, bound.toValue) :: entryValues rest

end

namespace Table

/-- Binds a key anew; a bound key keeps its place. -/
def set (t : Table) (key : String) (bound : Bound) : Table :=
  if (t.lookup key).isSome then t.map fun e => if e.1 = key then (key, bound) else e
  else t ++ [(key, bound)]

/-- Changes the table that a path of a heading leads to.  Tables on the way are made, and a
row of tables stands for its last one. -/
def within (f : Table → Option Table) : List String → Table → Option Table
  | [], t => f t
  | key :: path, t =>
    match t.lookup key with
    | none => (within f path []).map fun inner => set t key (.table none inner)
    | some (.value _) => none
    | some (.table claim inner) =>
      (within f path inner).map fun inner => set t key (.table claim inner)
    | some (.tables earlier last) =>
      (within f path last).map fun last => set t key (.tables earlier last)

/-- Changes the table that the parts of a key before its last one lead to.  The tables on
the way are claimed for a section, and no other section may have claimed them. -/
def through (part : Nat) (f : Table → Option Table) : List String → Table → Option Table
  | [], t => f t
  | key :: path, t =>
    match t.lookup key with
    | none => (through part f path []).map fun inner => set t key (.table (some part) inner)
    | some (.table claim inner) =>
      if claim.all (· = part) then
        (through part f path inner).map fun inner => set t key (.table (some part) inner)
      else none
    | _ => none

/-- Binds a key that is not bound yet to a value. -/
def bindNew (key : String) (v : Value) (t : Table) : Option Table :=
  if (t.lookup key).isSome then none else some (set t key (.value v))

/-- Claims a table for the section of its heading. -/
def claim (part : Nat) (key : String) (t : Table) : Option Table :=
  match t.lookup key with
  | none => some (set t key (.table (some part) []))
  | some (.table none inner) => some (set t key (.table (some part) inner))
  | _ => none

/-- Adds an empty table to a row of tables. -/
def append (key : String) (t : Table) : Option Table :=
  match t.lookup key with
  | none => some (set t key (.tables [] []))
  | some (.tables earlier last) =>
    some (set t key (.tables (earlier ++ [.map (entryValues last)]) []))
  | _ => none

/-- The first entry of a key decides. -/
theorem lookup_entry (t : Table) (key other : String) (bound : Bound) :
    List.lookup other ((key, bound) :: t) = if other = key then some bound else t.lookup other := by
  by_cases h : other = key
  · simp [h]
  · have hb : (other == key) = false := by simpa using h
    simp [List.lookup_cons, hb, h]

/-- Replacing what a key is bound to leaves the other keys alone. -/
theorem lookup_replace (t : Table) (key other : String) (bound : Bound) :
    List.lookup other (t.map fun e => if e.1 = key then (key, bound) else e) =
      if other = key then (t.lookup key).map fun _ => bound else t.lookup other := by
  induction t with
  | nil => simp
  | cons e t ih =>
    obtain ⟨k, b⟩ := e
    by_cases hk : k = key
    · subst hk
      simp only [List.map_cons, if_true, lookup_entry, ih]
      by_cases ho : other = k <;> simp [ho]
    · simp only [List.map_cons, hk, if_false, lookup_entry, ih]
      by_cases ho : other = key
      · have hkey : ¬key = k := fun he => hk he.symm
        simp [ho, hkey]
      · simp [ho]

/-- A new entry at the end changes what its key is bound to if nothing was. -/
theorem lookup_concat (t : Table) (key other : String) (bound : Bound) :
    List.lookup other (t ++ [(key, bound)]) =
      (t.lookup other).or (if other = key then some bound else none) := by
  induction t with
  | nil => simp [lookup_entry]
  | cons e t ih =>
    obtain ⟨k, b⟩ := e
    simp only [List.cons_append, lookup_entry, ih]
    by_cases hok : other = k <;> simp [hok]

/-- Binding a key changes what that key is bound to and nothing else. -/
theorem lookup_set (t : Table) (key other : String) (bound : Bound) :
    (set t key bound).lookup other = if other = key then some bound else t.lookup other := by
  unfold set
  split
  · next h =>
    rw [lookup_replace]
    obtain ⟨b, hb⟩ := Option.isSome_iff_exists.1 h
    simp [hb]
  · next h =>
    rw [lookup_concat]
    by_cases ho : other = key
    · subst ho
      rw [Option.not_isSome_iff_eq_none.1 h]
      simp
    · simp [ho]

/-- A key can be bound to a value once. -/
theorem bindNew_isSome (t : Table) (key : String) (v : Value) :
    (bindNew key v t).isSome = (t.lookup key).isNone := by
  unfold bindNew
  cases t.lookup key <;> rfl

end Table
end TreeTemplate.Document.Toml
