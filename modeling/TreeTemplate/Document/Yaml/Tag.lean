import TreeTemplate.Binary64.Text
import TreeTemplate.Document.Json.Reader
import TreeTemplate.Document.Yaml.Time

/-! # Tags of YAML

The kind of value that a node stands for.  A node names it by a tag, or else it is that of
its content: an unquoted text is nothing, a truth value, a number or a time if it looks like
one, and a text otherwise.
-/
namespace TreeTemplate.Document.Yaml

/-- A kind of value. -/
inductive Tag where
  | null
  | truth
  | integer
  | number
  | bytes
  | time
  | text
  | list
  | mapping
  /-- A row of entries. -/
  | entries
  | set
  /-- As a key, the entries of other mappings. -/
  | merge
  /-- As a key, the text `=`. -/
  | equals
  | unknown
  deriving DecidableEq, Repr

namespace Tag

/-- Whether a value of the kind holds others, and so cannot be a key. -/
def isCollection (t : Tag) : Bool :=
  t = .list || t = .mapping || t = .entries || t = .set

/-- The names of kinds. -/
def names : List (String × Tag) :=
  [("null", .null), ("bool", .truth), ("int", .integer), ("float", .number),
    ("binary", .bytes), ("timestamp", .time), ("str", .text), ("seq", .list), ("map", .mapping),
    ("omap", .entries), ("pairs", .entries), ("set", .set), ("merge", .merge),
    ("value", .equals)]

/-- What the names of kinds begin with. -/
def family : List Char := "tag:yaml.org,2002:".toList

/-- The kind with a name. -/
def ofName (name : List Char) : Tag :=
  if family.isPrefixOf name then
    (names.lookup (String.ofList (name.drop family.length))).getD .unknown
  else .unknown

/-- Texts that stand for nothing. -/
def nullTexts : List String := ["", "~", "null", "Null", "NULL"]

/-- Texts that stand for true. -/
def trueTexts : List String :=
  ["yes", "Yes", "YES", "true", "True", "TRUE", "on", "On", "ON"]

/-- Texts that stand for false. -/
def falseTexts : List String :=
  ["no", "No", "NO", "false", "False", "FALSE", "off", "Off", "OFF"]

/-- Whether a character is a digit or an underscore. -/
def isDigit (c : Char) : Bool := Text.isAsciiDigit c || c == '_'

/-- Whether a text is a row of at least one character of a kind. -/
def isRow (p : Char → Bool) (cs : List Char) : Bool := !cs.isEmpty && cs.all p

/-- Whether a text is a number of base sixty between zero and fifty-nine. -/
def isSixtieth (cs : List Char) : Bool :=
  match cs with
  | [d] => Text.isAsciiDigit d
  | [t, d] => '0' ≤ t && t ≤ '5' && Text.isAsciiDigit d
  | _ => false

/-- Whether a text without a sign is an integer: binary, octal, hexadecimal, decimal, or of
base sixty with colons. -/
def isUnsignedInteger : List Char → Bool
  | '0' :: 'b' :: cs => isRow (fun c => c == '0' || c == '1' || c == '_') cs
  | '0' :: 'x' :: cs => isRow (fun c => (Json.hexDigit? c).isSome || c == '_') cs
  | '0' :: cs => cs.all fun c => ('0' ≤ c && c ≤ '7') || c == '_'
  | c :: cs =>
    Text.isAsciiDigit c &&
      match cs.splitOn ':' with
      | whole :: groups => whole.all isDigit && groups.all isSixtieth
      | [] => true
  | [] => false

/-- Whether a text is nothing, or an exponent, which always has a sign. -/
def isExponent : List Char → Bool
  | [] => true
  | e :: s :: ds => (e == 'e' || e == 'E') && (s == '+' || s == '-') && isRow Text.isAsciiDigit ds
  | _ => false

/-- Whether a text begins with a digit. -/
def startsWithDigit (cs : List Char) : Bool := (cs.head?.map Text.isAsciiDigit).getD false

/-- Whether a text is a number with a point; one that begins with the point has no sign. -/
def isPointNumber (cs : List Char) : Bool :=
  let unsigned := (Binary64.splitSign cs).2
  let (whole, rest) := unsigned.span isDigit
  match rest with
  | '.' :: rest =>
    let (frac, rest) := rest.span isDigit
    (startsWithDigit whole || (cs.head? == some '.' && startsWithDigit frac)) && isExponent rest
  | _ => false

/-- Whether a text is a number of base sixty whose last part has a point. -/
def isSixtyNumber (cs : List Char) : Bool :=
  let (main, frac) := (Binary64.splitSign cs).2.span (· ≠ '.')
  match main.splitOn ':', frac with
  | whole :: group :: groups, '.' :: frac =>
    startsWithDigit whole && whole.all isDigit && frac.all isDigit &&
      (group :: groups).all isSixtieth
  | _, _ => false

/-- Texts for an infinity, after the sign. -/
def infinityTexts : List String := [".inf", ".Inf", ".INF"]

/-- Texts for a NaN. -/
def nanTexts : List String := [".nan", ".NaN", ".NAN"]

/-- Whether a text is a number. -/
def isNumber (cs : List Char) : Bool :=
  isPointNumber cs || isSixtyNumber cs ||
    infinityTexts.contains (String.ofList (Binary64.splitSign cs).2) ||
    nanTexts.contains (String.ofList cs)

/-- The kind of an unquoted text. -/
def ofLine (cs : List Char) : Tag :=
  let s := String.ofList cs
  if s ∈ nullTexts then .null
  else if s ∈ trueTexts ∨ s ∈ falseTexts then .truth
  else if isUnsignedInteger (Binary64.splitSign cs).2 then .integer
  else if isNumber cs then .number
  else if isTime cs then .time
  else if s = "<<" then .merge
  else if s = "=" then .equals
  else .text

/-- The kind of a text that is not quoted, or that is read as if it were not.  A line end
after it does not count. -/
def ofPlain (cs : List Char) : Tag :=
  match cs.reverse with
  | '\n' :: c :: line => ofLine (c :: line).reverse
  | ['\n'] => .text
  | _ => ofLine cs

example : ofPlain "0x_".toList = .integer ∧ ofPlain "1:30.".toList = .number ∧
    ofPlain "12e3".toList = .text := by decide +kernel

end Tag
end TreeTemplate.Document.Yaml
