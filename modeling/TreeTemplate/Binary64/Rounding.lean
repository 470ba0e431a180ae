import TreeTemplate.Binary64.Basic

/-! # Rounding to double precision

`ofRatio` gives the number nearest to a quotient of naturals, a tie going to the
even significand.  Reading a decimal, converting an integer and multiplying are all
this one rounding of an exact quotient.
-/
namespace TreeTemplate.Binary64

/-- The integer nearest to `n / d`, a tie going to the even one. -/
def roundHalfEven (n d : Nat) : Nat :=
  let q := n / d
  let r := n % d
  if 2 * r < d then q else if d < 2 * r then q + 1 else q + q % 2

/-- `n / d` divided by `2 ^ e`, as a quotient of naturals again. -/
def descale (n d : Nat) (e : Int) : Nat × Nat :=
  if 0 ≤ e then (n, d * Nat.pow 2 e.toNat) else (n * Nat.pow 2 (-e).toNat, d)

/-- The greatest `e` with `2 ^ e ≤ n / d`, for positive `n` and `d`. -/
def floorLog2 (n d : Nat) : Int :=
  let e : Int := (n.log2 : Int) - d.log2
  let (a, b) := descale n d e
  if b ≤ a then e else e - 1

/-- The exponent of the last place of `n / d`: 53 bits are kept, fewer below the
least normal number. -/
def lastPlace (n d : Nat) : Int :=
  max (-1074) (floorLog2 n d - 52)

/-- The rank that `n / d` rounds to, which may lie past the finite ones. -/
def roundedRank (n d : Nat) : Nat :=
  if n = 0 then 0
  else
    let e := lastPlace n d
    let (a, b) := descale n d e
    (e + 1074).toNat * hiddenBit + roundHalfEven a b

/-- The number of the given sign and rank; a rank past the finite ones is infinite. -/
def ofRank (negative : Bool) (rank : Nat) : Binary64 :=
  if h : rank < finiteRanks then .finite negative ⟨rank, h⟩ else .infinite negative

/-- The number nearest to `n / d`. -/
def ofRatio (negative : Bool) (n d : Nat) : Binary64 :=
  ofRank negative (roundedRank n d)

/-- The number nearest to an integer. -/
def ofInt (i : Int) : Binary64 :=
  ofRatio (i < 0) i.natAbs 1

/-- The number nearest to `digits * 10 ^ shift`.  A value of more than 400 digits
before the point is infinite and one with 400 zeros after the point is zero, so the
powers stay small. -/
def ofDecimal (negative : Bool) (digits : Nat) (shift : Int) : Binary64 :=
  let size : Int := (Nat.toDigits 10 digits).length + shift
  if digits = 0 ∨ size < -400 then signedZero negative
  else if 400 < size then .infinite negative
  else if 0 ≤ shift then ofRatio negative (digits * Nat.pow 10 shift.toNat) 1
  else ofRatio negative digits (Nat.pow 10 (-shift).toNat)

/-- Whether the sign bit is set. -/
def isNegative : Binary64 → Bool
  | .finite negative _ => negative
  | .infinite negative => negative
  | .nan _ => false

/-- The product, rounded once; a product that is no number has the payload. -/
def mul (payload : Payload) (x y : Binary64) : Binary64 :=
  let negative := x.isNegative != y.isNegative
  match x, y with
  | .finite _ r, .finite _ s =>
    let (a, b) := fraction r
    let (c, d) := fraction s
    ofRatio negative (a * c) (b * d)
  | .nan _, _ | _, .nan _ => .nan payload
  | x, y => if x.isZero || y.isZero then .nan payload else .infinite negative

/-- The sum, rounded once; a sum that is no number has the payload. -/
def add (payload : Payload) (x y : Binary64) : Binary64 :=
  match x, y with
  | .finite p r, .finite q s =>
    let (a, b) := fraction r
    let (c, d) := fraction s
    let sum := signedInt p (a * d) + signedInt q (c * b)
    if sum = 0 then signedZero (p && q) else ofRatio (sum < 0) sum.natAbs (b * d)
  | .nan _, _ | _, .nan _ => .nan payload
  | .infinite p, .infinite q => if p = q then .infinite p else .nan payload
  | .infinite p, _ | _, .infinite p => .infinite p

example : ofDecimal false 1 0 = .finite false ⟨0x3FF0000000000000, by decide⟩ := by
  decide +kernel

example : ofDecimal true 1 (-1) = .finite true ⟨0x3FB999999999999A, by decide⟩ := by
  decide +kernel

example : ofDecimal false 5 (-324) = .finite false ⟨1, by decide⟩ := by
  decide +kernel

example : ofDecimal false 17976931348623159 292 = .infinite false := by
  decide +kernel

end TreeTemplate.Binary64
