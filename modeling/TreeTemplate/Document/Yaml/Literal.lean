import TreeTemplate.Document.Json.Reader
import TreeTemplate.Document.Yaml.Line

/-! # Scalars of YAML in lines of their own

A scalar after `|` or `>` is the text of the indented lines below.  After `|` line ends are
kept as they are, and after `>` those between lines of text are folded.
-/
namespace TreeTemplate.Document.Yaml

/-- What becomes of the line ends that a scalar ends in. -/
inductive Tail where
  /-- One of them stays. -/
  | clip
  | strip
  | keep
  deriving DecidableEq, Repr

/-- What stands after the mark of such a scalar. -/
structure Header where
  tail : Tail := .clip
  /-- The indentation of the text, where it is not that of the first line. -/
  step : Option Nat := none

/-- The sign of a header, and what follows. -/
def tailSign? : List Char → Option (Tail × List Char)
  | '+' :: rest => some (.keep, rest)
  | '-' :: rest => some (.strip, rest)
  | _ => none

/-- The digit of a header, and what follows. -/
def stepDigit? : List Char → Option (Nat × List Char)
  | [] => none
  | c :: rest => if '0' ≤ c ∧ c ≤ '9' then some (c.toNat - 0x30, rest) else none

/-- The header that a text begins with, and what follows; sign and digit stand in any
order. -/
def header (cs : List Char) : Header × List Char :=
  match tailSign? cs with
  | some (tail, rest) =>
    match stepDigit? rest with
    | some (step, rest) => (⟨tail, some step⟩, rest)
    | none => (⟨tail, none⟩, rest)
  | none =>
    match stepDigit? cs with
    | some (step, rest) =>
      match tailSign? rest with
      | some (tail, rest) => (⟨tail, some step⟩, rest)
      | none => (⟨.clip, some step⟩, rest)
    | none => (⟨.clip, none⟩, cs)

/-- The lines after the line of a header, on which nothing but a comment may follow. -/
def belowHeader? (cs : List Char) : Option (List Char) :=
  if (cs.head?.map fun c => c == ' ' || isBreak c).getD true then
    let rest := cs.dropWhile (· = ' ')
    let rest := if rest.head? = some '#' then rest.dropWhile (!isBreak ·) else rest
    if atBreak rest then some (rest.drop 1) else none
  else none

/-- The line ends of lines of blanks, the indentation of the deepest of them and of the
next line, the column of the next character, and the text from it on. -/
def blankLines (deepest column : Nat) : List Char → List Char × Nat × Nat × List Char
  | [] => ([], deepest, column, [])
  | c :: rest =>
    if c = ' ' then blankLines (max deepest (column + 1)) (column + 1) rest
    else if isBreak c then
      let (breaks, found) := blankLines deepest 0 rest
      (c :: breaks, found)
    else ([], deepest, column, c :: rest)

/-- The line ends of empty lines, the column of the next character, and the text from it
on, where lines are indented by `indent`. -/
def breaksUpTo (indent column : Nat) : List Char → List Char × Nat × List Char
  | [] => ([], column, [])
  | c :: rest =>
    if c = ' ' ∧ column < indent then breaksUpTo indent (column + 1) rest
    else if isBreak c then
      let (breaks, found) := breaksUpTo indent 0 rest
      (c :: breaks, found)
    else ([], column, c :: rest)

/-- Whether a line begins with a blank. -/
def startsBlank (cs : List Char) : Bool := (cs.head?.map isBlank).getD false

/-- The text of at most `fuel` lines from the first character of one, the line end of the
last line and those after it, and what follows. -/
def literalLines (fold : Bool) (indent : Nat) :
    Nat → List Char → List Char × List Char × List Char × List Char
  | 0, cs => ([], [], [], cs)
  | fuel + 1, cs =>
    let (line, next) := cs.span (!isBreak ·)
    let (breaks, column, rest) := breaksUpTo indent 0 (next.drop 1)
    if column = indent ∧ !rest.isEmpty then
      let glue :=
        if fold && next.head? = some '\n' && !startsBlank cs && !startsBlank rest then
          if breaks.isEmpty then [' '] else []
        else next.take 1
      let (text, last, found) := literalLines fold indent fuel rest
      (line ++ glue ++ breaks ++ text, last, found)
    else (line, next.take 1, breaks, rest)

/-- The scalar whose mark stands before a text, and what follows; its lines are indented by
`least` at least. -/
def literal? (fold : Bool) (least : Nat) (cs : List Char) : Option (List Char × List Char) := do
  let (head, rest) := header cs
  if head.step = some 0 then none
  else
    let rest ← belowHeader? rest
    let (breaks, indent, column, rest) :=
      match head.step with
      | none =>
        let (breaks, deepest, found) := blankLines 0 0 rest
        (breaks, max least deepest, found)
      | some step =>
        let (breaks, found) := breaksUpTo (least + step - 1) 0 rest
        (breaks, least + step - 1, found)
    let (text, last, breaks, rest) :=
      if column = indent ∧ !rest.isEmpty then
        let (text, found) := literalLines fold indent (rest.length + 1) rest
        (breaks ++ text, found)
      else ([], [], breaks, rest)
    let tail := match head.tail with
      | .clip => last
      | .strip => []
      | .keep => last ++ breaks
    pure (text ++ tail, rest)

end TreeTemplate.Document.Yaml
