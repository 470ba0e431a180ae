import TreeTemplate.Binary64.Shortest
import TreeTemplate.Text.DecimalDigit

/-! # The text of a double

A finite number is written with its shortest digits and always shows that it is no
integer: positional with a point while the first digit stands between 10⁻⁴ and
10¹⁵, and with an exponent of at least two digits outside that range.  `read?` takes
these texts and every other decimal notation back.
-/
namespace TreeTemplate.Binary64

/-- The choices that the written form of a number leaves open. -/
structure Layout where
  /-- The least exponent of the first digit that is written positionally. -/
  leastPositional : Int
  /-- The first exponent past the positional ones. -/
  firstScientific : Int
  /-- The least number of digits of an exponent. -/
  exponentWidth : Nat
  infinity : String
  notANumber : String

/-- The layout of values shown as text. -/
def Layout.shown : Layout := ⟨-4, 16, 2, "inf", "nan"⟩

/-- The layout of numbers in JSON documents. -/
def Layout.json : Layout := ⟨-4, 16, 2, "Infinity", "NaN"⟩

/-- `n` zeros. -/
def zeros (n : Nat) : List Char := List.replicate n '0'

/-- Digits with a point before position `point`, which may lie outside them. -/
def positional (ds : List Char) (point : Int) : List Char :=
  if point ≤ 0 then ['0', '.'] ++ zeros (-point).toNat ++ ds
  else if ds.length ≤ point.toNat then ds ++ zeros (point.toNat - ds.length) ++ ['.', '0']
  else ds.take point.toNat ++ ['.'] ++ ds.drop point.toNat

/-- Digits in scientific notation, the first one having the given exponent. -/
def scientific (layout : Layout) (ds : List Char) (place : Int) : List Char :=
  let tail := if ds.tail.isEmpty then [] else '.' :: ds.tail
  let power := Nat.toDigits 10 place.natAbs
  ds.take 1 ++ tail ++ ['e', if place < 0 then '-' else '+'] ++
    zeros (layout.exponentWidth - power.length) ++ power

/-- A decimal written out under the given layout. -/
def Decimal.write (layout : Layout) (x : Decimal) : List Char :=
  let ds := Nat.toDigits 10 x.digits
  let place : Int := ds.length + x.shift - 1
  if layout.leastPositional ≤ place ∧ place < layout.firstScientific then
    positional ds (place + 1)
  else scientific layout ds place

/-- A minus sign if `negative`. -/
def sign (negative : Bool) : List Char := if negative then ['-'] else []

/-- The characters of a number under the given layout. -/
def write (layout : Layout) : Binary64 → List Char
  | .finite negative rank => sign negative ++ (shortestDecimal rank).write layout
  | .infinite negative => sign negative ++ layout.infinity.toList
  | .nan _ => layout.notANumber.toList

/-- The text of a number as a shown value. -/
def text (x : Binary64) : String := String.ofList (x.write .shown)

/-- An optional sign and what follows it. -/
def splitSign : List Char → Bool × List Char
  | '-' :: cs => (true, cs)
  | '+' :: cs => (false, cs)
  | cs => (false, cs)

/-- The leading ASCII digits and what follows them. -/
def splitDigits (cs : List Char) : List Char × List Char :=
  cs.span Text.isAsciiDigit

/-- An exponent part that takes the whole text; no text is the exponent zero. -/
def readExponent? : List Char → Option Int
  | [] => some 0
  | e :: cs =>
    if e = 'e' ∨ e = 'E' then
      let (negative, ds) := splitSign cs
      if ds.isEmpty || !ds.all Text.isAsciiDigit then none
      else some (signedInt negative (Text.natOfDigits ds))
    else none

/-- A number from its sign, integer digits, fraction digits and exponent. -/
def ofParts (negative : Bool) (whole frac : List Char) (power : Int) : Binary64 :=
  ofDecimal negative (Text.natOfDigits (whole ++ frac)) (power - frac.length)

/-- Reads an unsigned decimal with digits on at least one side of its point. -/
def readUnsigned? (negative : Bool) (cs : List Char) : Option Binary64 :=
  let (whole, rest) := splitDigits cs
  match rest with
  | '.' :: rest =>
    let (frac, tail) := splitDigits rest
    if whole.isEmpty && frac.isEmpty then none
    else (readExponent? tail).map (ofParts negative whole frac)
  | tail => if whole.isEmpty then none else (readExponent? tail).map (ofParts negative whole [])

/-- Reads a decimal with an optional sign, or `inf` or `nan`, which gets the payload. -/
def read? (payload : Payload) (cs : List Char) : Option Binary64 :=
  let (negative, rest) := splitSign cs
  if rest = ['i', 'n', 'f'] then some (.infinite negative)
  else if rest = ['n', 'a', 'n'] then some (.nan payload)
  else readUnsigned? negative rest

example : (ofDecimal false 15 (-1)).text = "1.5" ∧ (ofDecimal false 1 16).text = "1e+16" ∧
    (ofDecimal true 1 (-5)).text = "-1e-05" ∧ (signedZero true).text = "-0.0" := by
  decide +kernel

example : (read? (.made 0) ['1', 'e', '3']).map text = some "1000.0" := by decide +kernel

end TreeTemplate.Binary64
