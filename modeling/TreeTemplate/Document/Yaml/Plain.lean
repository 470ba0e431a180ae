import TreeTemplate.Document.Yaml.Line

/-! # Unquoted scalars of YAML

An unquoted scalar goes on until something that cannot belong to it: a colon before a gap,
a comment after a gap, a character that means something inside brackets, or a line that is
not indented far enough.
-/
namespace TreeTemplate.Document.Yaml

/-- Brackets, braces and the comma. -/
def isFlowMark (c : Char) : Bool :=
  c == ',' || c == '[' || c == ']' || c == '\x7b' || c == '\x7d'

/-- Characters that no unquoted scalar begins with. -/
def reservedStarts : List Char :=
  [',', '[', ']', '\x7b', '\x7d', '#', '&', '*', '!', '|', '>', '\x27', '\x22', '%', '@', '\x60']

/-- Whether an unquoted scalar may begin like this text, inside brackets or outside. -/
def isPlainStart (inFlow : Bool) : List Char → Bool
  | [] => false
  | c :: rest =>
    if c = '-' then !atGap rest
    else if c = '?' ∨ c = ':' then !inFlow && !atGap rest
    else !isGap c && !reservedStarts.contains c

/-- Whether a colon before this text ends a key. -/
def endsKey (inFlow : Bool) (cs : List Char) : Bool :=
  atGap cs || (inFlow && (cs.head?.map isFlowMark).getD false)

/-- The first characters of a text without a gap that can belong to one scalar, and what
follows. -/
def plainRun (inFlow : Bool) : List Char → List Char × List Char
  | [] => ([], [])
  | c :: rest =>
    if isGap c || (c == ':' && endsKey inFlow rest) || (inFlow && (c == '?' || isFlowMark c)) then
      ([], c :: rest)
    else
      let (run, rest) := plainRun inFlow rest
      (c :: run, rest)

/-- A run and what follows it are the whole text. -/
theorem plainRun_append (inFlow : Bool) (cs : List Char) :
    (plainRun inFlow cs).1 ++ (plainRun inFlow cs).2 = cs := by
  induction cs with
  | nil => rfl
  | cons c rest ih =>
    unfold plainRun
    split
    · rfl
    · simpa using ih

/-- The line ends of empty lines, the column of the next character, and the text from it
on; nothing at a mark between documents. -/
def emptyLines (column : Nat) : List Char → Option (List Char × Nat × List Char)
  | [] => some ([], column, [])
  | c :: rest =>
    if c = ' ' then emptyLines (column + 1) rest
    else if isBreak c then
      if atMark rest then none
      else (emptyLines 0 rest).map fun (breaks, found) => (c :: breaks, found)
    else some ([], column, c :: rest)

/-- What the gap that a text begins with stands for inside a scalar, and the text after it.
Outside brackets a further line is indented by `indent` at least. -/
def plainGap? (inFlow : Bool) (indent : Nat) (cs : List Char) :
    Option (List Char × List Char) :=
  let (blanks, next) := cs.span (· = ' ')
  match next with
  | [] => none
  | c :: rest =>
    if isBreak c then
      if atMark rest then none
      else (emptyLines 0 rest).bind fun (breaks, column, next) =>
        if inFlow || indent ≤ column then some (folded c breaks, next) else none
    else if blanks.isEmpty then none
    else some (blanks, next)

/-- The text of a scalar of at most `fuel` runs after its first run, and what follows. -/
def plainMore (inFlow : Bool) (indent : Nat) : Nat → List Char → List Char × List Char
  | 0, cs => ([], cs)
  | fuel + 1, cs =>
    match plainGap? inFlow indent cs with
    | none => ([], cs)
    | some (gap, next) =>
      let (run, rest) := plainRun inFlow next
      if next.head? = some '#' ∨ run.isEmpty then ([], cs)
      else
        let (more, rest) := plainMore inFlow indent fuel rest
        (gap ++ run ++ more, rest)

/-- The unquoted scalar that a text begins with, and what follows. -/
def plain (inFlow : Bool) (indent : Nat) (cs : List Char) : List Char × List Char :=
  let (run, rest) := plainRun inFlow cs
  let (more, rest) := plainMore inFlow indent cs.length rest
  (run ++ more, rest)

example : plain false 0 "a: b".toList = ("a".toList, ": b".toList) := by decide

example : plain true 0 "a ?b".toList = ("a".toList, " ?b".toList) := by decide

end TreeTemplate.Document.Yaml
