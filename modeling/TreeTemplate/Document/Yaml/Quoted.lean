import TreeTemplate.Document.Json.Reader
import TreeTemplate.Document.Yaml.Line
import TreeTemplate.Document.Yaml.Refusal

/-! # Quoted scalars of YAML

Inside single quotes only the quote itself is written differently, namely twice.  Inside
double quotes a backslash begins an escape.  A line end inside either is folded, and the
blanks around it go.
-/
namespace TreeTemplate.Document.Yaml

/-- The character of a one-letter escape. -/
def escaped? : Char → Option Char
  | '0' => some '\x00'
  | 'a' => some '\x07'
  | 'b' => some '\x08'
  | 't' => some '\t'
  | '\t' => some '\t'
  | 'n' => some '\n'
  | 'v' => some '\x0b'
  | 'f' => some '\x0c'
  | 'r' => some '\r'
  | 'e' => some '\x1b'
  | ' ' => some ' '
  | '\x22' => some '\x22'
  | '/' => some '/'
  | '\\' => some '\\'
  | 'N' => some '\u0085'
  | '_' => some '\u00a0'
  | 'L' => some '\u2028'
  | 'P' => some '\u2029'
  | _ => none

/-- How many hexadecimal digits follow the letter of an escape. -/
def escapeWidth? : Char → Option Nat
  | 'x' => some 2
  | 'u' => some 4
  | 'U' => some 8
  | _ => none

/-- The number that hexadecimal digits write. -/
def hexNumber? (cs : List Char) : Option Nat :=
  cs.foldl (fun n c => do
    let n ← n
    let d ← Json.hexDigit? c
    pure (n * 16 + d)) (some 0)

/-- The character with a number. -/
def charOf (n : Nat) : Attempt Char :=
  if n < 0x110000 then .ok (Json.unitChar n)
  else if n < 0x80000000 then refuseFault "ValueError" "chr() arg not in range(0x110000)"
  else refuseFault "OverflowError" "Python int too large to convert to C int"

/-- The character that an escape of a width names, and what follows it. -/
def numbered (width : Nat) (cs : List Char) : Attempt (Char × List Char) := do
  if cs.length < width then refuse
  else
    let c ← charOf (← orRefuse (hexNumber? (cs.take width)))
    pure (c, cs.drop width)

/-- The line ends of empty lines inside quotes, and the text from the next character on.
A mark between documents ends a scalar too early. -/
def emptyQuotedLines (atStart : Bool) : List Char → Attempt (List Char × List Char)
  | [] => .ok ([], [])
  | c :: rest =>
    if atStart && atMark (c :: rest) then refuse
    else if isBlank c then emptyQuotedLines false rest
    else if isBreak c then
      (emptyQuotedLines true rest).map fun (breaks, rest) => (c :: breaks, rest)
    else .ok ([], c :: rest)

/-- A text before the rest of a scalar. -/
def after (cs : List Char) (rest : Attempt (List Char × List Char)) :
    Attempt (List Char × List Char) :=
  rest.map fun (more, rest) => (cs ++ more, rest)

/-- The text of a scalar of at most `fuel` characters after its opening quote, and what
follows its closing quote. -/
def quotedText (quote : Char) : Nat → List Char → Attempt (List Char × List Char)
  | 0, _ => refuse
  | _, [] => refuse
  | fuel + 1, c :: rest =>
    if c = quote then
      if c = '\x27' ∧ rest.head? = some c then after [c] (quotedText quote fuel (rest.drop 1))
      else .ok ([], rest)
    else if isGap c then
      let (blanks, next) := (c :: rest).span isBlank
      match next with
      | [] => refuse
      | d :: next =>
        if isBreak d then do
          let (breaks, next) ← emptyQuotedLines true next
          after (folded d breaks) (quotedText quote fuel next)
        else after blanks (quotedText quote fuel (d :: next))
    else if c = '\\' ∧ quote = '\x22' then
      match rest with
      | [] => refuse
      | e :: rest =>
        match escapeWidth? e, escaped? e with
        | some width, _ => do
          let (d, rest) ← numbered width rest
          after [d] (quotedText quote fuel rest)
        | none, some d => after [d] (quotedText quote fuel rest)
        | none, none =>
          if isBreak e then do
            let (breaks, rest) ← emptyQuotedLines true rest
            after breaks (quotedText quote fuel rest)
          else refuse
    else after [c] (quotedText quote fuel rest)

/-- The quoted scalar that a text begins with, and what follows. -/
def quoted : List Char → Attempt (List Char × List Char)
  | [] => refuse
  | quote :: rest =>
    if quote = '\x27' ∨ quote = '\x22' then quotedText quote (rest.length + 1) rest else refuse

end TreeTemplate.Document.Yaml
