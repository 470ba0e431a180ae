import TreeTemplate.Document.Yaml.Plain
import TreeTemplate.Document.Yaml.Tag
import TreeTemplate.Failure
import TreeTemplate.Text.Base64
import TreeTemplate.Value.Shown

/-! # Writing YAML

Values in block style: an entry or an item a line, mappings indented by two blanks below
their key, and lists not indented.  A text stands without quotes if it is read back as
itself that way, and a long one goes on in further lines.  A key that is too long for its
colon to be found, or that is no scalar of one line, is announced by a question mark.
Whatever the host lends is refused, and so is a time without a day.
-/
namespace TreeTemplate.Document.Yaml

/-- A text under construction, or the fault of a value without a form. -/
abbrev Written := Except Fault (List Char)

/-- Whether a character can be written as it is. -/
def isWritable (c : Char) : Bool :=
  let n := c.toNat
  c == '\n' || (0x20 ≤ n && n ≤ 0x7E) || n == 0x85 ||
    (0xA0 ≤ n && n ≤ 0xFFFD && n ≠ 0xFEFF) || (0x10000 ≤ n && n < 0x10FFFF)

/-- Whether the inside of an unquoted text after its first character could be taken for a
comment or a key. -/
def hasIndicator : List Char → Bool
  | [] => false
  | c :: rest =>
    (c == ':' && atGap rest) || (isGap c && rest.head? == some '#') || hasIndicator rest

/-- Whether a text is read back as itself without quotes. -/
def isPlain (cs : List Char) : Bool :=
  let start := cs.take 3
  Tag.ofPlain cs = .text && isPlainStart false cs && !hasIndicator cs && cs.all isWritable &&
    !cs.any isBreak && cs.getLast? ≠ some ' ' && start ≠ ['-', '-', '-'] &&
    start ≠ ['.', '.', '.']

/-- Whether a blank and a line end stand side by side in a text. -/
def hasLooseBlank : List Char → Bool
  | c :: d :: rest =>
    (c == ' ' && isBreak d) || (isBreak c && d == ' ') || hasLooseBlank (d :: rest)
  | _ => false

/-- How a text is written. -/
inductive Style where
  | plain
  | single
  | double
  deriving DecidableEq, Repr

/-- The plainest style in which a text can be written; a key stays on its line. -/
def Style.of (isKey : Bool) (cs : List Char) : Style :=
  if isPlain cs then .plain
  else if cs.all isWritable && !hasLooseBlank cs && !(isKey && cs.any isBreak) then .single
  else .double

/-- The width after which a long text goes on in a new line. -/
def lineWidth : Nat := 80

/-- The start of the next line at an indentation. -/
def newLine (indent : Nat) : List Char := '\n' :: List.replicate indent ' '

/-- The inside of a text of at most `fuel` characters without quotes or, if `isQuoted`, with
single ones, from a column on.  A single blank past the width of a line becomes a line end,
except at the ends of the text; a line end is written as an empty line. -/
def foldText (isQuoted : Bool) (indent : Nat) : Nat → Nat → Bool → List Char → List Char
  | 0, _, _, _ => []
  | _, _, _, [] => []
  | fuel + 1, column, isFirst, c :: rest =>
    if c = ' ' then
      let (blanks, next) := (c :: rest).span (· = ' ')
      if blanks.length = 1 ∧ lineWidth < column ∧ !isFirst ∧ !next.isEmpty then
        newLine indent ++ foldText isQuoted indent fuel indent false next
      else blanks ++ foldText isQuoted indent fuel (column + blanks.length) false next
    else if isBreak c then
      let (breaks, next) := (c :: rest).span isBreak
      (if c = '\n' then ['\n'] else []) ++ breaks ++ List.replicate indent ' ' ++
        foldText isQuoted indent fuel indent false next
    else if isQuoted && c = '\x27' then
      c :: c :: foldText isQuoted indent fuel (column + 2) false rest
    else c :: foldText isQuoted indent fuel (column + 1) false rest

/-- The letters of short escapes. -/
def shortEscapes : List (Char × Char) :=
  [('\x00', '0'), ('\x07', 'a'), ('\x08', 'b'), ('\t', 't'), ('\n', 'n'), ('\x0b', 'v'),
    ('\x0c', 'f'), ('\r', 'r'), ('\x1b', 'e'), ('\x22', '\x22'), ('\\', '\\'), ('\u0085', 'N'),
    ('\u2028', 'L'), ('\u2029', 'P')]

/-- A number after the letter of an escape, in upper-case digits. -/
def escapeNumber (letter : Char) (width n : Nat) : List Char :=
  '\\' :: letter :: (Text.hexPadded width n).map Char.toUpper

/-- The escape of a character. -/
def escape (c : Char) : List Char :=
  match shortEscapes.lookup c with
  | some letter => ['\\', letter]
  | none =>
    let n := c.toNat
    if n ≤ 0xFF then escapeNumber 'x' 2 n
    else if n ≤ 0xFFFF then escapeNumber 'u' 4 n
    else escapeNumber 'U' 8 n

/-- Whether a character stands for itself inside double quotes. -/
def isUnescaped (c : Char) : Bool :=
  isWritable c && !isBreak c && c ≠ '\x22' && c ≠ '\\' && c.toNat < 0x10000

/-- A line end inside double quotes, which stands for nothing. -/
def hiddenBreak (indent : Nat) : List Char := '\\' :: newLine indent

/-- The inside of a text with double quotes, from a column on.  Past the width of a line a
blank, or what follows an escape, goes on in a new line, except at the ends of the text. -/
def doubleText (indent : Nat) : Nat → Bool → Bool → List Char → List Char
  | _, _, _, [] => []
  | column, isFirst, afterEscape, c :: rest =>
    let isInner := !isFirst && !rest.isEmpty
    if isUnescaped c then
      if isInner && (c == ' ' || afterEscape) && lineWidth < column then
        let shown := if c = ' ' then ['\\', c] else [c]
        hiddenBreak indent ++ shown ++ doubleText indent (indent + shown.length) false false rest
      else c :: doubleText indent (column + 1) false false rest
    else
      let shown := escape c
      let column := column + shown.length
      if isInner && lineWidth + 1 < column then
        let gap := if rest.head? = some ' ' then ['\\'] else []
        shown ++ hiddenBreak indent ++ gap ++
          doubleText indent (indent + gap.length) false gap.isEmpty rest
      else shown ++ doubleText indent column false true rest

/-- A text from a column on, whose further lines have an indentation. -/
def writeText (isKey : Bool) (indent column : Nat) (cs : List Char) : List Char :=
  match Style.of isKey cs with
  | .plain => if isKey then cs else foldText false indent cs.length column true cs
  | .single =>
    let inside := if isKey then cs.flatMap fun c => if c = '\x27' then [c, c] else [c]
      else foldText true indent cs.length (column + 1) true cs
    '\x27' :: inside ++ ['\x27']
  | .double =>
    let inside := if isKey then cs.flatMap fun c => if isUnescaped c then [c] else escape c
      else doubleText indent (column + 1) true false cs
    '\x22' :: inside ++ ['\x22']

/-- A text cut into rows of a width, of which only the last may be shorter. -/
def rows (width : Nat) : List Char → List (List Char)
  | [] => []
  | c :: cs => (c :: cs.take (width - 1)) :: rows width (cs.drop (width - 1))
termination_by cs => cs.length
decreasing_by
  simp only [List.length_drop, List.length_cons]
  omega

/-- No character is lost by cutting. -/
theorem flatten_rows (width : Nat) (cs : List Char) : (rows width cs).flatten = cs := by
  fun_induction rows width cs with
  | case1 => rfl
  | case2 c cs ih => simp [ih]

/-- The width of the rows in which bytes are written. -/
def bytesWidth : Nat := 76

/-- Bytes with their tag, in rows at an indentation. -/
def writeBytes (indent : Nat) (bs : List UInt8) : List Char :=
  "!!binary ".toList ++
    if bs.isEmpty then ['\x27', '\x27']
    else '|' :: (rows bytesWidth (Text.Base64.encode bs)).flatMap (newLine indent ++ ·)

/-- A number with a point, whose digits always show the point. -/
def floatText (x : Binary64) : List Char :=
  match x with
  | .nan _ => ".nan".toList
  | .infinite negative => Binary64.sign negative ++ ".inf".toList
  | x =>
    let cs := x.write .shown
    if '.' ∈ cs then cs
    else
      let (digits, power) := cs.span (· ≠ 'e')
      digits ++ ['.', '0'] ++ power

/-- The form of a scalar that is no text. -/
def constant? : Value → Option (List Char)
  | .null => some "null".toList
  | .bool true => some "true".toList
  | .bool false => some "false".toList
  | .int n => some (Text.showInt n)
  | .float x => some (floatText x)
  | .moment (.time _) => none
  | .moment m => some (m.chars ' ')
  | _ => none

/-- The fault of a value without a form. -/
def unwritable {α : Type} (host : HostRef → String) (v : Value) : Except Fault α :=
  .error (.raised "RepresenterError" ("('cannot represent an object', " ++ v.shown host ++ ")"))

/-- The length of the name of the type of a key, which counts towards the length of the
key. -/
def typeWidth : Value → Nat
  | .null | .bool _ => 6
  | .float _ => 7
  | .moment _ => 11
  | _ => 5

/-- A key that can stand before its colon. -/
def simpleKey? (v : Value) : Option (List Char) :=
  match v with
  | .str s =>
    let cs := s.toList
    if cs.isEmpty || cs.any isBreak || 128 ≤ cs.length + typeWidth v then none
    else some (writeText true 0 0 cs)
  | .tuple [] => some ['[', ']']
  | v => (constant? v).bind fun cs => if cs.length + typeWidth v < 128 then some cs else none

/-- A scalar from a column on, whose further lines have an indentation. -/
def scalar (host : HostRef → String) (indent column : Nat) (v : Value) : Written :=
  match v with
  | .str s => .ok (writeText false indent column s.toList)
  | .bytes bs => .ok (writeBytes indent bs)
  | v =>
    match constant? v with
    | some cs => .ok (foldText false indent cs.length column true cs)
    | none => unwritable host v

mutual

/-- A value whose first character stands at the column `indent`. -/
def writeBlock (host : HostRef → String) (indent : Nat) : Value → Written
  | .list items => if items.isEmpty then .ok ['[', ']'] else writeItems host indent [] items
  | .tuple items => if items.isEmpty then .ok ['[', ']'] else writeItems host indent [] items
  | .map entries =>
    if entries.isEmpty then .ok ['\x7b', '\x7d'] else writeEntries host indent [] entries
  | v => scalar host indent indent v

/-- The items of a list at an indentation, the first of them after `before`. -/
def writeItems (host : HostRef → String) (indent : Nat) (before : List Char) :
    List Value → Written
  | [] => .ok []
  | v :: vs => do
    let cs ← writeBlock host (indent + 2) v
    let more ← writeItems host indent (newLine indent) vs
    pure (before ++ '-' :: ' ' :: cs ++ more)

/-- The value of a key that ends at a column, in a mapping at an indentation. -/
def writeAfterKey (host : HostRef → String) (indent column : Nat) : Value → Written
  | .list items => do
    if items.isEmpty then pure [' ', '[', ']']
    else writeItems host indent (newLine indent) items
  | .tuple items => do
    if items.isEmpty then pure [' ', '[', ']']
    else writeItems host indent (newLine indent) items
  | .map entries => do
    if entries.isEmpty then pure [' ', '\x7b', '\x7d']
    else writeEntries host (indent + 2) (newLine (indent + 2)) entries
  | v => (scalar host (indent + 2) (column + 1) v).map (' ' :: ·)

/-- The entries of a mapping at an indentation, the first of them after `before`. -/
def writeEntries (host : HostRef → String) (indent : Nat) (before : List Char) :
    List (Value × Value) → Written
  | [] => .ok []
  | (k, v) :: rest => do
    let entry ← match simpleKey? k with
      | some key => do
        let cs ← writeAfterKey host indent (indent + key.length + 1) v
        pure (key ++ ':' :: cs)
      | none => do
        let key ← writeBlock host (indent + 2) k
        let cs ← writeBlock host (indent + 2) v
        pure ('?' :: ' ' :: key ++ newLine indent ++ ':' :: ' ' :: cs)
    let more ← writeEntries host indent (newLine indent) rest
    pure (before ++ entry ++ more)

end

/-- Whether a document needs a mark of its end: it is a scalar without quotes. -/
def isOpen : Value → Bool
  | .null | .bool _ | .int _ | .float _ | .moment _ => true
  | .str s => isPlain s.toList
  | _ => false

/-- A value as a document. -/
def write (host : HostRef → String) (v : Value) : Except Fault String := do
  let cs ←
    match v with
    | .list _ | .tuple _ | .map _ => writeBlock host 0 v
    | v => scalar host 2 0 v
  pure (String.ofList (cs ++ '\n' :: if isOpen v then ['.', '.', '.', '\n'] else []))

end TreeTemplate.Document.Yaml
