/-! # Double-precision numbers

A number of the binary64 format, held as data: a sign and a rank for the finite
ones, where the rank counts the non-negative finite numbers below its absolute
value.  Each number has one representation, so equality is decidable and a finite number
is exactly `significand * 2 ^ exponent`.  What is no number, a NaN, has a payload, which
tells it from the others.
-/
namespace TreeTemplate

/-- How many non-negative finite numbers the format has. -/
abbrev finiteRanks : Nat := 0x7FF0000000000000

/-- Where a NaN comes from.  It takes no part in calculations and is never written. -/
inductive Payload where
  /-- The NaN of a format of documents, which is the same one wherever it is written. -/
  | constant (format : String)
  /-- One that a text has at a place. -/
  | spelled (place : Nat)
  /-- One that was made, by its number. -/
  | made (serial : Nat)
  deriving DecidableEq, Repr

/-- A binary64 number, or a NaN. -/
inductive Binary64 where
  | finite (negative : Bool) (rank : Fin finiteRanks)
  | infinite (negative : Bool)
  | nan (payload : Payload)
  deriving DecidableEq, Repr

namespace Binary64

/-- Zero with the given sign. -/
def signedZero (negative : Bool) : Binary64 := .finite negative ⟨0, by decide⟩

instance : Inhabited Binary64 := ⟨signedZero false⟩

/-- The leading bit of a significand above the subnormal range, which is not stored. -/
abbrev hiddenBit : Nat := 0x10000000000000

/-- The integer significand of a finite rank: 52 stored bits, and the leading one
above the subnormal range. -/
def significand (rank : Nat) : Nat :=
  if rank < hiddenBit then rank else hiddenBit + rank % hiddenBit

/-- The power of two that scales the significand of a finite rank. -/
def exponent (rank : Nat) : Int :=
  if rank < hiddenBit then -1074 else (rank / hiddenBit : Nat) - 1075

/-- `m * 2 ^ e` as a numerator and a positive denominator. -/
def asFraction (m : Nat) (e : Int) : Nat × Nat :=
  if 0 ≤ e then (m * Nat.pow 2 e.toNat, 1) else (m, Nat.pow 2 (-e).toNat)

/-- The absolute value of a finite rank as a numerator and a denominator. -/
def fraction (rank : Nat) : Nat × Nat :=
  asFraction (significand rank) (exponent rank)

/-- An integer with the given sign and absolute value. -/
def signedInt (negative : Bool) (n : Nat) : Int :=
  if negative then -(n : Int) else n

/-- The integer that a number equals, if it equals one. -/
def toInt? : Binary64 → Option Int
  | .finite negative rank =>
    let (n, d) := fraction rank
    if n % d = 0 then some (signedInt negative (n / d)) else none
  | _ => none

/-- A finite number without its fractional part. -/
def truncate? : Binary64 → Option Int
  | .finite negative rank =>
    let (n, d) := fraction rank
    some (signedInt negative (n / d))
  | _ => none

/-- Whether a number is a zero of either sign. -/
def isZero : Binary64 → Bool
  | .finite _ rank => rank.val = 0
  | _ => false

@[simp] theorem truncate?_nan (payload : Payload) : truncate? (.nan payload) = none := rfl

@[simp] theorem truncate?_infinite (negative : Bool) :
    truncate? (.infinite negative) = none := rfl

/-- The denominator is never zero. -/
theorem asFraction_den_pos (m : Nat) (e : Int) : 0 < (asFraction m e).2 := by
  unfold asFraction
  split
  · exact Nat.one_pos
  · exact Nat.two_pow_pos _

end Binary64
end TreeTemplate
