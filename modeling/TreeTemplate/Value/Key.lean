import TreeTemplate.Value.Basic

/-! # Keys

What makes two values the same key of a mapping.  Numbers are compared by what they
count, so `1`, `1.0` and `True` are one key, and moments by their point; tuples are compared
item by item; lists and mappings cannot be keys.  A NaN is the same key as itself and as
nothing else.  A key is put into a normal form in which sameness is equality.
-/
namespace TreeTemplate

/-- The normal form of a key. -/
inductive Key where
  | null
  /-- A number without a fractional part, of whatever type. -/
  | int (n : Int)
  /-- Any other number, or a NaN. -/
  | float (x : Binary64)
  | str (s : String)
  | bytes (bs : List UInt8)
  | moment (p : Moment.Point)
  | tuple (items : List Key)
  | host (r : HostRef)
  deriving Repr

namespace Key

mutual

/-- Equality of keys, as a test. -/
def eqv : Key → Key → Bool
  | .null, .null => true
  | .int m, .int n => m = n
  | .float x, .float y => x = y
  | .str s, .str t => s = t
  | .bytes s, .bytes t => s = t
  | .moment p, .moment q => p = q
  | .tuple xs, .tuple ys => eqvAll xs ys
  | .host r, .host s => r = s
  | _, _ => false

/-- Equality of rows of keys, as a test. -/
def eqvAll : List Key → List Key → Bool
  | [], [] => true
  | x :: xs, y :: ys => eqv x y && eqvAll xs ys
  | _, _ => false

end

mutual

theorem eqv_refl : ∀ x : Key, eqv x x = true
  | .null => rfl
  | .int _ | .float _ | .str _ | .bytes _ | .moment _ | .host _ => by simp [eqv]
  | .tuple xs => by simp [eqv, eqvAll_refl xs]

theorem eqvAll_refl : ∀ xs : List Key, eqvAll xs xs = true
  | [] => rfl
  | x :: xs => by simp [eqvAll, eqv_refl x, eqvAll_refl xs]

end

mutual

theorem eq_of_eqv : ∀ x y : Key, eqv x y = true → x = y
  | .null, y, h => by cases y <;> simp_all [eqv]
  | .int _, y, h => by cases y <;> simp_all [eqv]
  | .float _, y, h => by cases y <;> simp_all [eqv]
  | .str _, y, h => by cases y <;> simp_all [eqv]
  | .bytes _, y, h => by cases y <;> simp_all [eqv]
  | .moment _, y, h => by cases y <;> simp_all [eqv]
  | .host _, y, h => by cases y <;> simp_all [eqv]
  | .tuple xs, .tuple ys, h => by simp [eq_of_eqvAll xs ys (by simpa [eqv] using h)]
  | .tuple _, .null, h | .tuple _, .int _, h | .tuple _, .float _, h | .tuple _, .str _, h
  | .tuple _, .bytes _, h | .tuple _, .moment _, h | .tuple _, .host _, h => by simp [eqv] at h

theorem eq_of_eqvAll : ∀ xs ys : List Key, eqvAll xs ys = true → xs = ys
  | [], [], _ => rfl
  | x :: xs, y :: ys, h => by
    have h : eqv x y = true ∧ eqvAll xs ys = true := by simpa [eqvAll] using h
    rw [eq_of_eqv x y h.1, eq_of_eqvAll xs ys h.2]
  | [], _ :: _, h | _ :: _, [], h => by simp [eqvAll] at h

end

/-- The comparison decides equality of keys. -/
theorem eqv_iff {x y : Key} : eqv x y = true ↔ x = y :=
  ⟨eq_of_eqv x y, fun h => h ▸ eqv_refl x⟩

instance : DecidableEq Key := fun x y =>
  decidable_of_iff (eqv x y = true) eqv_iff

end Key

namespace Value

mutual

/-- The key that a value is, or the type name of the part that prevents it. -/
def key? : Value → Except String Key
  | .null => .ok .null
  | .bool b => .ok (.int (if b then 1 else 0))
  | .int n => .ok (.int n)
  | .float x =>
    match x.toInt? with
    | some n => .ok (.int n)
    | none => .ok (.float x)
  | .str s => .ok (.str s)
  | .bytes bs => .ok (.bytes bs)
  | .moment m => .ok (.moment m.point)
  | .tuple items => (keys? items).map .tuple
  | .host r => .ok (.host r)
  | .list _ => .error "list"
  | .map _ => .error "dict"

/-- The keys that a row of values are. -/
def keys? : List Value → Except String (List Key)
  | [] => .ok []
  | v :: vs =>
    match key? v with
    | .error name => .error name
    | .ok k => (keys? vs).map (k :: ·)

end

/-- Whether two values are the same key; a value that cannot be a key is no key's
equal. -/
def sameKey (v w : Value) : Bool :=
  match v.key?, w.key? with
  | .ok x, .ok y => x = y
  | _, _ => false

/-- Whether a value can be a key. -/
def isHashable (v : Value) : Bool :=
  match v.key? with
  | .ok _ => true
  | .error _ => false

/-- Values that can be keys are the same key if they have the same normal form. -/
theorem sameKey_iff {v w : Value} :
    sameKey v w = true ↔ ∃ k, v.key? = .ok k ∧ w.key? = .ok k := by
  unfold sameKey
  cases v.key? <;> cases w.key? <;> simp [eq_comm]

/-- Whatever can be a key finds itself. -/
theorem sameKey_self (v : Value) : sameKey v v = v.isHashable := by
  unfold sameKey isHashable
  cases v.key? <;> simp

/-- Finding is symmetric. -/
theorem sameKey_comm (v w : Value) : sameKey v w = sameKey w v := by
  rw [Bool.eq_iff_iff, sameKey_iff, sameKey_iff]
  simp only [and_comm]

/-- Finding is transitive. -/
theorem sameKey_trans {u v w : Value} (huv : sameKey u v = true) (hvw : sameKey v w = true) :
    sameKey u w = true := by
  obtain ⟨k, hu, hv⟩ := sameKey_iff.1 huv
  obtain ⟨l, hv', hw⟩ := sameKey_iff.1 hvw
  obtain rfl : k = l := by simpa [hv] using hv'
  exact sameKey_iff.2 ⟨k, hu, hw⟩

example : sameKey (.int 1) (.bool true) = true ∧
    sameKey (.int 1) (.float (Binary64.ofInt 1)) = true ∧
    sameKey (.int 1) (.str "1") = false ∧
    sameKey (.float (.nan (.made 0))) (.float (.nan (.made 0))) = true ∧
    sameKey (.float (.nan (.made 0))) (.float (.nan (.made 1))) = false := by
  decide +kernel

end Value
end TreeTemplate
