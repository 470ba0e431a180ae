import TreeTemplate.Text.Identifier
import TreeTemplate.Value.Basic

/-! # Tokens of expressions

The text of an expression is a row of tokens with spaces, tabs and line ends between
them.  Where a token ends depends on one thing besides its characters: a number right
after a point is an index and has no fraction.
-/
namespace TreeTemplate.Expr

/-- A token, with the characters that spell it. -/
inductive Token where
  | name (text : List Char)
  /-- A text between two equal delimiters. -/
  | quoted (delimiter : Char) (text : List Char)
  | number (text : List Char)
  | mark (c : Char)
  deriving DecidableEq, Repr

namespace Token

/-- The white space of expressions. -/
def isSpace (c : Char) : Bool := c == ' ' || c == '\t' || c == '\r' || c == '\n'

/-- The characters that may delimit a string, in the order of preference. -/
def delimiters : List Char := ['\x22', '\x27', '\x60']

/-- The marks that stand for themselves. -/
def marks : List Char := ['$', '!', '?', ':', '.', ',', '(', ')']

/-- The characters that spell a token. -/
def text : Token → List Char
  | .name cs => cs
  | .quoted d cs => d :: cs ++ [d]
  | .number cs => cs
  | .mark c => [c]

/-- Whether a token is the point before a selector. -/
def isPoint (t : Token) : Bool := t = .mark '.'

/-- The fraction at the start of a text: a point and at least one digit. -/
def fraction : List Char → List Char
  | '.' :: d :: cs =>
    if Text.isAsciiDigit d then '.' :: d :: cs.takeWhile Text.isAsciiDigit else []
  | _ => []

/-- The unsigned number at the start of a text, which begins with a digit and has no
fraction in an index; empty if there is none. -/
def unsigned (index : Bool) (cs : List Char) : List Char :=
  let whole := cs.takeWhile Text.isAsciiDigit
  if index || whole.isEmpty then whole else whole ++ fraction (cs.drop whole.length)

/-- The number at the start of a text that begins with a sign or digit; empty if the
sign stands alone. -/
def numberText (index : Bool) : List Char → List Char
  | [] => []
  | c :: cs =>
    if c = '+' ∨ c = '-' then
      match unsigned index cs with
      | [] => []
      | ds => c :: ds
    else unsigned index (c :: cs)

/-- The first token of a text that begins with no space. -/
def first? (index : Bool) : List Char → Option Token
  | [] => none
  | c :: cs =>
    if Text.isNameStart c then some (.name (c :: cs.takeWhile Text.isNameChar))
    else if c ∈ delimiters then
      let inner := cs.takeWhile (· ≠ c)
      if inner.length < cs.length then some (.quoted c inner) else none
    else if c ∈ marks then some (.mark c)
    else
      match numberText index (c :: cs) with
      | [] => none
      | ds => some (.number ds)

/-- The tokens of a text, which is as long as `fuel` at most; `index` tells whether the
token before it is a point. -/
def scan : Nat → Bool → List Char → Option (List Token)
  | _, _, [] => some []
  | 0, _, _ => none
  | fuel + 1, index, c :: cs =>
    if isSpace c then scan fuel index cs
    else
      match first? index (c :: cs) with
      | none => none
      | some t => (scan fuel t.isPoint ((c :: cs).drop t.text.length)).map (t :: ·)

/-- The tokens of a text, if it consists of tokens. -/
def ofText? (cs : List Char) : Option (List Token) := scan cs.length false cs

/-- The value of a number. -/
def numberValue (cs : List Char) : Value :=
  let (negative, unsigned) := Binary64.splitSign cs
  let (whole, rest) := Binary64.splitDigits unsigned
  match rest with
  | '.' :: frac => .float (Binary64.ofParts negative whole frac 0)
  | _ => .int (Binary64.signedInt negative (Text.natOfDigits whole))

example : ofText? "a.1.5 ? -1.50".toList =
    some [.name ['a'], .mark '.', .number ['1'], .mark '.', .number ['5'], .mark '?',
      .number ['-', '1', '.', '5', '0']] := by cbv

end Token
end TreeTemplate.Expr
