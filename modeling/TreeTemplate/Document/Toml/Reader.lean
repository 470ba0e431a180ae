import TreeTemplate.Binary64.Text
import TreeTemplate.Document.Json.Reader
import TreeTemplate.Document.Toml.Table
import TreeTemplate.Document.Toml.Time
import TreeTemplate.Text.Identifier

/-! # Reading TOML

A reader of tables and values: strings, integers, floats, truth values, times, lists and
tables in braces.  A document is a row of statements; each binds a key of the current table,
opens a table or adds one to a row of tables.
-/
namespace TreeTemplate.Document.Toml

/-- The parts of a key, of which there is at least one. -/
structure Key where
  path : List String
  last : String

/-- A statement of a document. -/
inductive Statement where
  | bind (key : Key) (value : Value)
  | table (name : Key)
  | append (name : Key)

/-- Whether a character is a blank within a line. -/
def isBlank (c : Char) : Bool := c == ' ' || c == '\t'

/-- The text after leading blanks. -/
def skip (cs : List Char) : List Char := cs.dropWhile isBlank

/-- A control character that may not stand in a line. -/
def isControl (c : Char) : Bool := (c.toNat < 0x20 && c ≠ '\t') || c == '\x7f'

/-- The text after the rest of a line that holds nothing but a comment. -/
def endOfLine? (cs : List Char) : Option (List Char) :=
  match skip cs with
  | [] => some []
  | '\n' :: rest => some rest
  | '#' :: rest =>
    match rest.dropWhile (!isControl ·) with
    | [] => some []
    | '\n' :: rest => some rest
    | _ => none
  | _ => none

/-- The text after blanks, line ends and comments; `comment` tells whether a comment has
begun. -/
def skipLines : Bool → List Char → List Char
  | _, [] => []
  | comment, c :: rest =>
    if c = '\n' then skipLines false rest
    else if comment then if isControl c then c :: rest else skipLines true rest
    else if isBlank c then skipLines false rest
    else if c = '#' then skipLines true rest
    else c :: rest

/-- A character before the rest of a string. -/
def cons (c : Char) (r : Option (List Char × List Char)) : Option (List Char × List Char) :=
  r.map fun (cs, rest) => (c :: cs, rest)

/-- The character of a one-letter escape. -/
def escaped? : Char → Option Char
  | 'b' => some '\x08'
  | 't' => some '\t'
  | 'n' => some '\n'
  | 'f' => some '\x0c'
  | 'r' => some '\r'
  | '\x22' => some '\x22'
  | '\\' => some '\\'
  | _ => none

/-- The character whose code point is written by hexadecimal digits. -/
def codePoint? (ds : List Char) : Option Char := do
  let ds ← ds.mapM Json.hexDigit?
  let n := ds.foldl (fun n d => 16 * n + d) 0
  if n.isValidChar then pure (Char.ofNat n) else none

/-- The text of a double-quoted string after its opening quote. -/
def basicString : List Char → Option (List Char × List Char)
  | '\x22' :: rest => some ([], rest)
  | '\\' :: 'u' :: a :: b :: c :: d :: rest =>
    (codePoint? [a, b, c, d]).bind (cons · (basicString rest))
  | '\\' :: 'U' :: a :: b :: c :: d :: e :: f :: g :: h :: rest =>
    (codePoint? [a, b, c, d, e, f, g, h]).bind (cons · (basicString rest))
  | '\\' :: c :: rest => (escaped? c).bind (cons · (basicString rest))
  | c :: rest => if isControl c then none else cons c (basicString rest)
  | [] => none

/-- The text of a single-quoted string after its opening quote. -/
def literalString : List Char → Option (List Char × List Char)
  | [] => none
  | c :: rest =>
    if c = '\x27' then some ([], rest)
    else if isControl c then none
    else cons c (literalString rest)

/-- The quoted string that a text begins with. -/
def quoted? : List Char → Option (List Char × List Char)
  | '\x22' :: rest => basicString rest
  | '\x27' :: rest => literalString rest
  | _ => none

/-- Up to two quotes that belong to a string although its end comes after them. -/
def extraQuotes (quote : Char) (cs : List Char) : List Char × List Char :=
  match cs with
  | a :: b :: rest =>
    if a = quote then if b = quote then ([a, b], rest) else ([a], b :: rest) else ([], cs)
  | [a] => if a = quote then ([a], []) else ([], cs)
  | [] => ([], [])

/-- A control character that may not stand in a string of several lines. -/
def isInnerControl (c : Char) : Bool := isControl c && c ≠ '\n'

/-- The text after an escaped line end: the blanks and line ends there are left out. -/
def afterHiddenBreak? (cs : List Char) : Option (List Char) :=
  match skip cs with
  | '\n' :: rest => some (rest.dropWhile fun c => isBlank c || c == '\n')
  | [] => some []
  | _ => none

/-- The text of a double-quoted string of several lines, of at most `fuel` characters, after
its opening quotes. -/
def basicLines : Nat → List Char → Option (List Char × List Char)
  | 0, _ => none
  | _, '\x22' :: '\x22' :: '\x22' :: rest => some (extraQuotes '\x22' rest)
  | fuel + 1, '\\' :: 'u' :: a :: b :: c :: d :: rest =>
    (codePoint? [a, b, c, d]).bind (cons · (basicLines fuel rest))
  | fuel + 1, '\\' :: 'U' :: a :: b :: c :: d :: e :: f :: g :: h :: rest =>
    (codePoint? [a, b, c, d, e, f, g, h]).bind (cons · (basicLines fuel rest))
  | fuel + 1, '\\' :: c :: rest =>
    if isBlank c || c == '\n' then (afterHiddenBreak? (c :: rest)).bind (basicLines fuel)
    else (escaped? c).bind (cons · (basicLines fuel rest))
  | fuel + 1, c :: rest => if isInnerControl c then none else cons c (basicLines fuel rest)
  | _, [] => none

/-- The text of a single-quoted string of several lines after its opening quotes. -/
def literalLines : List Char → Option (List Char × List Char)
  | '\x27' :: '\x27' :: '\x27' :: rest => some (extraQuotes '\x27' rest)
  | c :: rest => if isInnerControl c then none else cons c (literalLines rest)
  | [] => none

/-- A text without the line end that it begins with. -/
def dropBreak (cs : List Char) : List Char := if cs.head? = some '\n' then cs.drop 1 else cs

/-- The string that a text begins with. -/
def string? (cs : List Char) : Option (List Char × List Char) :=
  match cs with
  | '\x22' :: '\x22' :: '\x22' :: rest => basicLines (rest.length + 1) (dropBreak rest)
  | '\x27' :: '\x27' :: '\x27' :: rest => literalLines (dropBreak rest)
  | cs => quoted? cs

/-- A character of an unquoted key. -/
def isKeyChar (c : Char) : Bool := Text.isNameChar c || c == '-'

/-- The part of a key that a text begins with. -/
def keyPart? (cs : List Char) : Option (String × List Char) :=
  match quoted? cs with
  | some (key, rest) => some (String.ofList key, rest)
  | none =>
    let (key, rest) := cs.span isKeyChar
    if key.isEmpty then none else some (String.ofList key, rest)

/-- The key of at most `fuel` parts that a text begins with, and the text after the blanks
behind it. -/
def keyParts? : Nat → List Char → Option (Key × List Char)
  | 0, _ => none
  | fuel + 1, cs => do
    let (part, rest) ← keyPart? cs
    match skip rest with
    | '.' :: rest => do
      let (more, rest) ← keyParts? fuel (skip rest)
      pure (⟨part :: more.path, more.last⟩, rest)
    | rest => pure (⟨[], part⟩, rest)

/-- The key that a text begins with, and the text after the blanks behind it. -/
def key? (cs : List Char) : Option (Key × List Char) := keyParts? (cs.length + 1) cs

/-- Digits with single underscores between them, and the text after them. -/
def digits (isDigit : Char → Bool) : List Char → List Char × List Char
  | [] => ([], [])
  | c :: rest =>
    if isDigit c then
      match rest with
      | '_' :: d :: more =>
        if isDigit d then
          let (ds, rest) := digits isDigit (d :: more)
          (c :: ds, rest)
        else ([c], rest)
      | rest =>
        let (ds, rest) := digits isDigit rest
        (c :: ds, rest)
    else ([], c :: rest)

/-- The digits of a base. -/
def isDigitIn (base : Nat) (c : Char) : Bool :=
  match Json.hexDigit? c with
  | some d => d < base
  | none => false

/-- An integer in a base, after the letter of the base. -/
def inBase (base : Nat) (cs : List Char) : Option (Value × List Char) :=
  let (ds, rest) := digits (isDigitIn base) cs
  if ds.isEmpty then none
  else some (.int (ds.foldl (fun n c => base * n + (Json.hexDigit? c).getD 0) 0 : Nat), rest)

/-- The fraction of a number, without its point, and the text after it. -/
def fraction (cs : List Char) : Option (List Char) × List Char :=
  match cs with
  | '.' :: rest =>
    let (ds, rest) := digits Text.isAsciiDigit rest
    if ds.isEmpty then (none, cs) else (some ds, rest)
  | _ => (none, cs)

/-- The exponent of a number and the text after it. -/
def exponent (cs : List Char) : Option Int × List Char :=
  match cs with
  | e :: rest =>
    if e = 'e' ∨ e = 'E' then
      let (negative, rest) := Binary64.splitSign rest
      let (ds, rest) := digits Text.isAsciiDigit rest
      if ds.isEmpty then (none, cs)
      else (some (Binary64.signedInt negative (Text.natOfDigits ds)), rest)
    else (none, cs)
  | [] => (none, cs)

/-- A decimal number after its sign; its whole part has no leading zeros. -/
def decimal (negative : Bool) (cs : List Char) : Option (Value × List Char) :=
  let (whole, rest) :=
    match cs with
    | '0' :: rest => (['0'], rest)
    | cs => digits Text.isAsciiDigit cs
  if whole.isEmpty then none
  else
    let (frac, rest) := fraction rest
    let (power, rest) := exponent rest
    match frac, power with
    | none, none => some (.int (Binary64.signedInt negative (Text.natOfDigits whole)), rest)
    | frac, power =>
      some (.float (Binary64.ofParts negative whole (frac.getD []) (power.getD 0)), rest)

/-- A number, an infinity or what is no number. -/
def number (cs : List Char) : Option (Value × List Char) :=
  match cs with
  | '0' :: 'x' :: rest => inBase 16 rest
  | '0' :: 'o' :: rest => inBase 8 rest
  | '0' :: 'b' :: rest => inBase 2 rest
  | cs =>
    let (negative, rest) := Binary64.splitSign cs
    match rest with
    | 'i' :: 'n' :: 'f' :: rest => some (.float (.infinite negative), rest)
    | 'n' :: 'a' :: 'n' :: rest => some (.float (.nan (.spelled rest.length)), rest)
    | rest => decimal negative rest

/-- A value that holds no other values. -/
def scalar (cs : List Char) : Option (Value × List Char) :=
  match cs with
  | 't' :: 'r' :: 'u' :: 'e' :: rest => some (.bool true, rest)
  | 'f' :: 'a' :: 'l' :: 's' :: 'e' :: rest => some (.bool false, rest)
  | '\x22' :: _ => (string? cs).map fun (s, rest) => (.str (String.ofList s), rest)
  | '\x27' :: _ => (string? cs).map fun (s, rest) => (.str (String.ofList s), rest)
  | cs =>
    match moment? cs with
    | some (m, rest) => some (.moment m, rest)
    | none => number cs

mutual

/-- The value that a text begins with. -/
def value : Nat → List Char → Option (Value × List Char)
  | 0, _ => none
  | fuel + 1, cs =>
    match cs with
    | '[' :: rest => (items fuel (skipLines false rest)).map fun (vs, rest) => (.list vs, rest)
    | '\x7b' :: rest =>
      match skip rest with
      | '\x7d' :: rest => some (.map [], rest)
      | rest => (members fuel [] rest).map fun (t, rest) => (.map (entryValues t), rest)
    | cs => scalar cs

/-- The items of a list up to its closing bracket. -/
def items : Nat → List Char → Option (List Value × List Char)
  | 0, _ => none
  | fuel + 1, cs =>
    match cs with
    | ']' :: rest => some ([], rest)
    | cs => do
      let (v, rest) ← value fuel cs
      match skipLines false rest with
      | ',' :: rest => do
        let (vs, rest) ← items fuel (skipLines false rest)
        pure (v :: vs, rest)
      | ']' :: rest => pure ([v], rest)
      | _ => none

/-- The entries of a table in braces up to the closing one, added to those before. -/
def members : Nat → Table → List Char → Option (Table × List Char)
  | 0, _, _ => none
  | fuel + 1, made, cs => do
    let (key, v, rest) ← pair fuel cs
    let made ← made.through 0 (Table.bindNew key.last v) key.path
    match skip rest with
    | ',' :: rest => members fuel made (skip rest)
    | '\x7d' :: rest => pure (made, rest)
    | _ => none

/-- A key and its value. -/
def pair : Nat → List Char → Option (Key × Value × List Char)
  | 0, _ => none
  | fuel + 1, cs => do
    let (key, rest) ← key? cs
    match rest with
    | '=' :: rest => do
      let (v, rest) ← value fuel (skip rest)
      pure (key, v, rest)
    | _ => none

end

/-- The statement that a text begins with. -/
def statement (cs : List Char) : Option (Statement × List Char) :=
  match cs with
  | '[' :: '[' :: rest => do
    let (name, rest) ← key? (skip rest)
    match rest with
    | ']' :: ']' :: rest => pure (.append name, rest)
    | _ => none
  | '[' :: rest => do
    let (name, rest) ← key? (skip rest)
    match rest with
    | ']' :: rest => pure (.table name, rest)
    | _ => none
  | cs => (pair (2 * cs.length + 2) cs).map fun (key, v, rest) => (.bind key v, rest)

/-- The statements of a text of at most `fuel` lines, each on a line of its own. -/
def statements : Nat → List Char → Option (List Statement)
  | _, [] => some []
  | 0, _ => none
  | fuel + 1, cs =>
    match endOfLine? cs with
    | some rest => statements fuel rest
    | none => do
      let (s, rest) ← statement (skip cs)
      let rest ← endOfLine? rest
      let more ← statements fuel rest
      pure (s :: more)

/-- A document of which some statements are read: its tables, the number of the current
section, and the path to the table of that section. -/
structure Progress where
  root : Table := []
  part : Nat := 0
  header : List String := []

/-- What a statement does to a document. -/
def Progress.after (p : Progress) : Statement → Option Progress
  | .bind key v => do
    let root ← p.root.within (Table.through p.part (Table.bindNew key.last v) key.path) p.header
    pure { p with root }
  | .table name => do
    let root ← p.root.within (Table.claim (p.part + 1) name.last) name.path
    pure ⟨root, p.part + 1, name.path ++ [name.last]⟩
  | .append name => do
    let root ← p.root.within (Table.append name.last) name.path
    pure ⟨root, p.part + 1, name.path ++ [name.last]⟩

/-- A text in which every line ends in a single character. -/
def unifyLines : List Char → List Char
  | [] => []
  | '\r' :: '\n' :: rest => '\n' :: unifyLines rest
  | c :: rest => c :: unifyLines rest

/-- Reads a document. -/
def read (text : List Char) : Option Value := do
  let text := unifyLines text
  let made ← statements (text.length + 1) text
  let done ← made.foldlM Progress.after {}
  pure (.map (entryValues done.root))

end TreeTemplate.Document.Toml
