/-! # Lines of YAML

Line ends, the gaps between tokens, and the marks between documents.  A text is read after
its line ends have been made alike, so a line end is one character.
-/
namespace TreeTemplate.Document.Yaml

/-- Characters that end a line. -/
def isBreak (c : Char) : Bool := c == '\n' || c == '\u0085' || c == '\u2028' || c == '\u2029'

/-- Blanks within a line. -/
def isBlank (c : Char) : Bool := c == ' ' || c == '\t'

/-- Characters that stand between tokens. -/
def isGap (c : Char) : Bool := isBlank c || c == '\r' || isBreak c

/-- A text whose usual line ends are all `'\n'`. -/
def alikeBreaks : List Char → List Char
  | [] => []
  | '\r' :: '\n' :: rest => '\n' :: alikeBreaks rest
  | c :: rest => (if c = '\r' ∨ c = '\u0085' then '\n' else c) :: alikeBreaks rest

/-- Whether a text is at its end or at a gap. -/
def atGap (cs : List Char) : Bool := (cs.head?.map isGap).getD true

/-- Whether a text is at its end or at a line end. -/
def atBreak (cs : List Char) : Bool := (cs.head?.map isBreak).getD true

/-- Whether the start of a line is a mark between documents. -/
def atMark : List Char → Bool
  | '-' :: '-' :: '-' :: rest => atGap rest
  | '.' :: '.' :: '.' :: rest => atGap rest
  | _ => false

/-- What the line ends between two lines of a scalar stand for, given the first and the
others: a single one is a blank, and of several the first is left out. -/
def folded (first : Char) (others : List Char) : List Char :=
  if first ≠ '\n' then first :: others else if others.isEmpty then [' '] else others

/-- The text from the next token on, and whether a line ends before it.  Blanks, line ends
and comments are skipped; `comment` tells whether the text begins inside a comment. -/
def skipGap (comment broken : Bool) : List Char → List Char × Bool
  | [] => ([], broken)
  | c :: rest =>
    if isBreak c then skipGap false true rest
    else if comment then skipGap true broken rest
    else if c = ' ' then skipGap false broken rest
    else if c = '#' then skipGap true broken rest
    else (c :: rest, broken)

/-- Nothing is left of a text that is one comment. -/
example : skipGap false false "  # a\n  b".toList = ("b".toList, true) := by decide

end TreeTemplate.Document.Yaml
