/-! # Decimal digits

The decimal digits of all scripts.  Unicode assigns each set of ten to
consecutive code points, so the table lists the zeros only.
-/
namespace TreeTemplate.Text

/-- The code points of the zeros: the first character of each run of ten
characters of category Nd. -/
def digitZeros : List Nat :=
  [0x30, 0x660, 0x6F0, 0x7C0, 0x966, 0x9E6, 0xA66, 0xAE6, 0xB66,
   0xBE6, 0xC66, 0xCE6, 0xD66, 0xDE6, 0xE50, 0xED0, 0xF20, 0x1040,
   0x1090, 0x17E0, 0x1810, 0x1946, 0x19D0, 0x1A80, 0x1A90, 0x1B50, 0x1BB0,
   0x1C40, 0x1C50, 0xA620, 0xA8D0, 0xA900, 0xA9D0, 0xA9F0, 0xAA50, 0xABF0,
   0xFF10, 0x104A0, 0x10D30, 0x11066, 0x110F0, 0x11136, 0x111D0, 0x112F0, 0x11450,
   0x114D0, 0x11650, 0x116C0, 0x11730, 0x118E0, 0x11950, 0x11C50, 0x11D50, 0x11DA0,
   0x16A60, 0x16AC0, 0x16B50, 0x1D7CE, 0x1D7D8, 0x1D7E2, 0x1D7EC, 0x1D7F6, 0x1E140,
   0x1E2F0, 0x1E950, 0x1FBF0]

/-- The value of a decimal digit of any script. -/
def digitValue? (c : Char) : Option Nat :=
  (digitZeros.find? fun first => first ≤ c.toNat && c.toNat ≤ first + 9).map (c.toNat - ·)

/-- The value of an ASCII digit. -/
def asciiDigit? (c : Char) : Option Nat :=
  if '0' ≤ c ∧ c ≤ '9' then some (c.toNat - 0x30) else none

/-- Whether `c` is one of `0` to `9`. -/
def isAsciiDigit (c : Char) : Bool := '0' ≤ c && c ≤ '9'

/-- The number that a row of digit values writes, most significant first. -/
def ofDigits (digits : List Nat) : Nat :=
  digits.foldl (fun n d => 10 * n + d) 0

/-- The number written by a row of ASCII digits. -/
def natOfDigits (cs : List Char) : Nat :=
  ofDigits (cs.map fun c => c.toNat - 0x30)

/-- A number written by one of these numbers of digits, and the text after it. -/
def number? (widths : List Nat) (cs : List Char) : Option (Nat × List Char) :=
  let (digits, rest) := cs.span isAsciiDigit
  if digits.length ∈ widths then some (natOfDigits digits, rest) else none

/-- The text after a character that has to come first. -/
def afterChar? (c : Char) (cs : List Char) : Option (List Char) :=
  if cs.head? = some c then some (cs.drop 1) else none

example : digitValue? '٣' = some 3 ∧ digitValue? '7' = some 7 ∧ digitValue? 'x' = none := by
  decide

end TreeTemplate.Text
