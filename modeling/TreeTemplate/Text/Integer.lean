import TreeTemplate.Text.Blank
import TreeTemplate.Text.DecimalDigit

/-! # Integer texts

The texts that an integer may be written as: white space around it, one sign, and digits of
any script with single underscores between them.  In a base other than ten a mark of the
base may come before the digits.
-/
namespace TreeTemplate.Text

/-- `cs` without the leading and trailing characters that satisfy `p`. -/
def strip (p : Char → Bool) (cs : List Char) : List Char :=
  ((cs.dropWhile p).reverse.dropWhile p).reverse

/-- The value of a digit in a base: a decimal digit of any script, or a letter. -/
def digitIn? (base : Nat) (c : Char) : Option Nat :=
  let letter :=
    if 'a' ≤ c ∧ c ≤ 'z' then some (c.toNat - 0x57)
    else if 'A' ≤ c ∧ c ≤ 'Z' then some (c.toNat - 0x37)
    else none
  ((digitValue? c).or letter).filter (· < base)

/-- The value of further digits after the number `n`. -/
def moreDigits? (base n : Nat) : List Char → Option Nat
  | [] => some n
  | '_' :: c :: cs => (digitIn? base c).bind fun d => moreDigits? base (base * n + d) cs
  | c :: cs => (digitIn? base c).bind fun d => moreDigits? base (base * n + d) cs

/-- The value of at least one digit. -/
def readNat? (base : Nat) : List Char → Option Nat
  | [] => none
  | c :: cs => (digitIn? base c).bind fun d => moreDigits? base d cs

/-- The letters that mark a base. -/
def baseMarks : Nat → List Char
  | 2 => ['b', 'B']
  | 8 => ['o', 'O']
  | 16 => ['x', 'X']
  | _ => []

/-- The digits of a text after the mark of their base, if there is one. -/
def afterMark (base : Nat) : List Char → List Char
  | '0' :: c :: '_' :: cs => if c ∈ baseMarks base then cs else '0' :: c :: '_' :: cs
  | '0' :: c :: cs => if c ∈ baseMarks base then cs else '0' :: c :: cs
  | cs => cs

/-- The value of a signed integer text in a base. -/
def readIntIn? (base : Nat) (cs : List Char) : Option Int :=
  match strip isWhiteSpace cs with
  | '-' :: ds => (readNat? base (afterMark base ds)).map fun n => -(n : Int)
  | '+' :: ds => (readNat? base (afterMark base ds)).map Int.ofNat
  | ds => (readNat? base (afterMark base ds)).map Int.ofNat

/-- The value of a signed decimal integer text. -/
def readInt? (cs : List Char) : Option Int := readIntIn? 10 cs

/-- The value of a signed integer written in ASCII bytes. -/
def readIntBytes? (bs : List UInt8) : Option Int :=
  if bs.all (· < 0x80) then readInt? (bs.map fun b => Char.ofNat b.toNat) else none

/-- An integer in decimal. -/
def showInt (n : Int) : List Char :=
  if n < 0 then '-' :: Nat.toDigits 10 n.natAbs else Nat.toDigits 10 n.natAbs

example : readInt? [' ', '+', '1', '_', '0', '\t'] = some 10 ∧ readInt? ['_', '1'] = none ∧
    readInt? ['1', '_', '_', '0'] = none ∧ readInt? ['-', '٣'] = some (-3) ∧
    readIntIn? 16 ['0', 'x', 'F', 'f'] = some 255 ∧ readIntIn? 16 [] = none := by decide +kernel

end TreeTemplate.Text
