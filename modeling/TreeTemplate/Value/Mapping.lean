import TreeTemplate.Value.Key

/-! # Entries of a mapping

A mapping is the row of its entries in insertion order.  Writing to a key that is
there keeps its place and its first spelling and replaces the value; a new key goes
to the end.
-/
namespace TreeTemplate.Mapping

/-- The entries of a mapping, in insertion order. -/
abbrev Entries := List (Value × Value)

/-- The value bound to a key.  A value that cannot be a key is bound to nothing. -/
def find? (entries : Entries) (key : Value) : Option Value :=
  (entries.find? fun entry => entry.1.sameKey key).map (·.2)

/-- Whether a key is bound. -/
def contains (entries : Entries) (key : Value) : Bool :=
  (find? entries key).isSome

/-- Binds a key. -/
def insert : Entries → Value → Value → Entries
  | [], key, value => [(key, value)]
  | (k, v) :: rest, key, value =>
    if k.sameKey key then (k, value) :: rest else (k, v) :: insert rest key value

/-- Binds every key of `part`, in its order. -/
def update (entries part : Entries) : Entries :=
  part.foldl (fun acc entry => insert acc entry.1 entry.2) entries

/-- The entries that a row of pairs makes when they are bound one after another. -/
def ofPairs (pairs : Entries) : Entries := update [] pairs

@[simp] theorem find?_nil (key : Value) : find? [] key = none := rfl

/-- The first entry whose key is the same answers. -/
theorem find?_cons (k v : Value) (rest : Entries) (key : Value) :
    find? ((k, v) :: rest) key = if k.sameKey key then some v else find? rest key := by
  unfold find?
  rw [List.find?_cons]
  cases k.sameKey key <;> simp

@[simp] theorem contains_nil (key : Value) : contains [] key = false := rfl

theorem contains_cons (entry : Value × Value) (entries : Entries) (key : Value) :
    contains (entry :: entries) key = (entry.1.sameKey key || contains entries key) := by
  rw [contains, contains, find?_cons]
  cases entry.1.sameKey key <;> simp

/-- A key is bound if it is the same as that of an entry. -/
theorem contains_eq_any (entries : Entries) (key : Value) :
    contains entries key = (entries.map (·.1)).any (Value.sameKey · key) := by
  induction entries with
  | nil => rfl
  | cons entry entries ih => rw [contains_cons, ih, List.map_cons, List.any_cons]

@[simp] theorem update_nil (entries : Entries) : update entries [] = entries := rfl

@[simp] theorem update_cons (entries : Entries) (entry : Value × Value) (part : Entries) :
    update entries (entry :: part) = update (insert entries entry.1 entry.2) part := rfl

/-- Two parts are written one after the other. -/
theorem update_append (entries part more : Entries) :
    update entries (part ++ more) = update (update entries part) more := by
  simp [update, List.foldl_append]

/-- A written key has its new value, and every other key keeps its own. -/
theorem find?_insert (entries : Entries) (key value other : Value) :
    find? (insert entries key value) other =
      if key.sameKey other then some value else find? entries other := by
  induction entries with
  | nil => simp [insert, find?_cons]
  | cons entry rest ih =>
    obtain ⟨k, v⟩ := entry
    by_cases hk : k.sameKey key = true
    · have hko : k.sameKey other = key.sameKey other := by
        cases h : key.sameKey other with
        | true => exact Value.sameKey_trans hk h
        | false =>
          cases h' : k.sameKey other with
          | false => rfl
          | true =>
            rw [Value.sameKey_comm] at hk
            exact absurd (Value.sameKey_trans hk h') (by simp [h])
      rw [insert, if_pos hk, find?_cons, find?_cons, hko]
      cases key.sameKey other <;> simp
    · rw [insert, if_neg hk, find?_cons, find?_cons, ih]
      cases hko : k.sameKey other with
      | false => simp
      | true =>
        have : key.sameKey other = false := by
          cases h : key.sameKey other with
          | false => rfl
          | true =>
            rw [Value.sameKey_comm] at h
            exact absurd (Value.sameKey_trans hko h) hk
        simp [this]

theorem contains_insert (entries : Entries) (key value other : Value) :
    contains (insert entries key value) other = (contains entries other || key.sameKey other) := by
  rw [contains, contains, find?_insert]
  cases key.sameKey other <;> simp

end TreeTemplate.Mapping
