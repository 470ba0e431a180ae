import TreeTemplate.Binary64.Rounding

/-! # Shortest decimals

The decimal with the fewest digits that reads back as a given number, and of those
the nearest.  For each digit count only the two neighbours of the number on that
decimal grid can be it, so both are tried by reading them back.
-/
namespace TreeTemplate.Binary64

/-- A decimal `digits * 10 ^ shift`. -/
structure Decimal where
  digits : Nat
  shift : Int
  deriving DecidableEq, Repr

/-- Whether the decimal reads back as the given rank. -/
def Decimal.readsBack (x : Decimal) (rank : Nat) : Bool :=
  ofDecimal false x.digits x.shift = ofRank false rank

/-- The same value without trailing zeros, at most `fuel` of them dropped. -/
def Decimal.trim : Nat → Decimal → Decimal
  | 0, x => x
  | fuel + 1, x =>
    if x.digits ≠ 0 ∧ x.digits % 10 = 0 then Decimal.trim fuel ⟨x.digits / 10, x.shift + 1⟩
    else x

/-- The decimal exponent of the first digit of `n / d`, for positive `n` and `d`. -/
def leadingPlace (n d : Nat) : Int :=
  if d ≤ n then ((Nat.toDigits 10 (n / d)).length : Int) - 1
  else
    let inverse := (d + n - 1) / n
    Int.negOfNat (Nat.toDigits 10 (inverse - 1)).length

/-- The neighbour of `n / d` with `count` digits that reads back as `rank`: the
nearer one if both do, the even one if they are equally near. -/
def neighbour? (rank n d count : Nat) : Option Decimal :=
  let shift : Int := leadingPlace n d - count + 1
  let (a, b) :=
    if 0 ≤ shift then (n, d * Nat.pow 10 shift.toNat) else (n * Nat.pow 10 (-shift).toNat, d)
  let below : Decimal := ⟨a / b, shift⟩
  let above : Decimal := ⟨a / b + 1, shift⟩
  let nearest : Decimal := ⟨roundHalfEven a b, shift⟩
  if below.readsBack rank && above.readsBack rank then some nearest
  else if below.readsBack rank then some below
  else if above.readsBack rank then some above
  else none

/-- All digits of `n / d` for a power of two `d`. -/
def exactDecimal (n d : Nat) : Decimal :=
  ⟨n * Nat.pow 5 d.log2, -(d.log2 : Int)⟩

/-- The shortest decimal of a finite rank.  Seventeen digits always suffice, so the
exact expansion at the end is never reached; it is there because it needs no
argument. -/
def shortestDecimal (rank : Nat) : Decimal :=
  if rank = 0 then ⟨0, 0⟩
  else
    let (n, d) := fraction rank
    match (List.range 17).findSome? fun i => neighbour? rank n d (i + 1) with
    | some x => x.trim 20
    | none => exactDecimal n d

example : shortestDecimal 0x3FB999999999999A = ⟨1, -1⟩ := by decide +kernel

example : shortestDecimal 1 = ⟨5, -324⟩ := by decide +kernel

end TreeTemplate.Binary64
