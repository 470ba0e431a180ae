import TreeTemplate.Text.DecimalDigit

/-! # Identifiers

Names in expressions: an ASCII letter or underscore, then letters, digits and
underscores.
-/
namespace TreeTemplate.Text

/-- A character that may begin an identifier. -/
def isNameStart (c : Char) : Bool :=
  ('A' ≤ c && c ≤ 'Z') || ('a' ≤ c && c ≤ 'z') || c == '_'

/-- A character that may continue an identifier. -/
def isNameChar (c : Char) : Bool :=
  isNameStart c || isAsciiDigit c

/-- Whether a text is an identifier. -/
def isIdentifier : List Char → Bool
  | [] => false
  | c :: cs => isNameStart c && cs.all isNameChar

example : isIdentifier ['_', '1'] = true ∧ isIdentifier ['1', 'a'] = false ∧
    isIdentifier ['a', '\n'] = false := by decide

end TreeTemplate.Text
