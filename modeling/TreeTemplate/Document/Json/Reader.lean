import TreeTemplate.Text.DecimalDigit
import TreeTemplate.Value.Mapping

/-! # Reading JSON

A reader of the whole notation, which also takes `NaN` and the infinities.  An error
names what was expected and where, in lines, columns and characters.  Of a repeated
name the first place and the last value stay.
-/
namespace TreeTemplate.Document.Json

/-- What was wrong, and how many characters were left from there on. -/
structure Fault where
  what : String
  left : Nat

/-- A part of a document and the text after it. -/
abbrev Parsed (α : Type) := Except Fault (α × List Char)

/-- The white space of JSON. -/
def isSpace (c : Char) : Bool := c == ' ' || c == '\t' || c == '\n' || c == '\r'

/-- The text after leading white space. -/
def skip (cs : List Char) : List Char := cs.dropWhile isSpace

/-- The fault that something was expected at the start of a text. -/
def expecting {α : Type} (what : String) (cs : List Char) : Except Fault α :=
  .error ⟨"Expecting " ++ what, cs.length⟩

/-- The value of a hexadecimal digit. -/
def hexDigit? (c : Char) : Option Nat :=
  if '0' ≤ c ∧ c ≤ '9' then some (c.toNat - 0x30)
  else if 'a' ≤ c ∧ c ≤ 'f' then some (c.toNat - 0x57)
  else if 'A' ≤ c ∧ c ≤ 'F' then some (c.toNat - 0x37)
  else none

/-- The number written by four hexadecimal digits. -/
def hex4? (a b c d : Char) : Option Nat := do
  let a ← hexDigit? a
  let b ← hexDigit? b
  let c ← hexDigit? c
  let d ← hexDigit? d
  pure (((a * 16 + b) * 16 + c) * 16 + d)

/-- The character of a one-letter escape. -/
def escaped? : Char → Option Char
  | '\x22' => some '\x22'
  | '\\' => some '\\'
  | '/' => some '/'
  | 'b' => some '\x08'
  | 'f' => some '\x0c'
  | 'n' => some '\n'
  | 'r' => some '\r'
  | 't' => some '\t'
  | _ => none

/-- The character of a code unit; one that is no character by itself is replaced. -/
def unitChar (n : Nat) : Char :=
  if 0xD800 ≤ n ∧ n < 0xE000 then '\ufffd' else Char.ofNat n

/-- A character before the rest of a string. -/
def cons (c : Char) (r : Parsed (List Char)) : Parsed (List Char) :=
  r.map fun (cs, rest) => (c :: cs, rest)

/-- The inside of a string and the text after its closing quote.  `start` characters
were left at its opening quote. -/
def string (start : Nat) : List Char → Parsed (List Char)
  | [] => .error ⟨"Unterminated string starting at", start⟩
  | '\x22' :: rest => .ok ([], rest)
  | '\\' :: [] => .error ⟨"Unterminated string starting at", start⟩
  | '\\' :: 'u' :: digits =>
    let fault : Parsed (List Char) := .error ⟨"Invalid \\uXXXX escape", digits.length + 1⟩
    match digits with
    | a :: b :: c :: d :: rest =>
      let single := fun unit => cons (unitChar unit) (string start rest)
      if rest.isEmpty then fault
      else
        match hex4? a b c d, rest with
        | none, _ => fault
        | some unit, '\\' :: 'u' :: e :: f :: g :: h :: after =>
          if 0xD800 ≤ unit ∧ unit < 0xDC00 ∧ !after.isEmpty then
            match hex4? e f g h with
            | none => .error ⟨"Invalid \\uXXXX escape", after.length + 5⟩
            | some next =>
              if 0xDC00 ≤ next ∧ next < 0xE000 then
                cons (Char.ofNat (0x10000 + (unit - 0xD800) * 0x400 + (next - 0xDC00)))
                  (string start after)
              else single unit
          else single unit
        | some unit, _ => single unit
    | _ => fault
  | '\\' :: c :: rest =>
    match escaped? c with
    | some c => cons c (string start rest)
    | none => .error ⟨"Invalid \\escape", rest.length + 2⟩
  | c :: rest =>
    if c.toNat < 0x20 then .error ⟨"Invalid control character at", rest.length + 1⟩
    else cons c (string start rest)

/-- The fraction of a number, without its point, and the text after it. -/
def fraction (cs : List Char) : Option (List Char) × List Char :=
  match cs with
  | '.' :: d :: rest =>
    if Text.isAsciiDigit d then
      let (ds, rest) := Binary64.splitDigits (d :: rest)
      (some ds, rest)
    else (none, cs)
  | _ => (none, cs)

/-- The exponent of a number and the text after it. -/
def exponent (cs : List Char) : Option Int × List Char :=
  match cs with
  | e :: rest =>
    if e = 'e' ∨ e = 'E' then
      let (negative, rest) := Binary64.splitSign rest
      let (ds, rest) := Binary64.splitDigits rest
      if ds.isEmpty then (none, cs)
      else (some (Binary64.signedInt negative (Text.natOfDigits ds)), rest)
    else (none, cs)
  | _ => (none, cs)

/-- The number at the start of a text, whose whole part has no leading zeros. -/
def number (whole : List Char) : Parsed Value :=
  let (negative, unsigned) :=
    match whole with
    | '-' :: cs => (true, cs)
    | cs => (false, cs)
  let (ds, rest) :=
    match unsigned with
    | '0' :: cs => (['0'], cs)
    | cs => Binary64.splitDigits cs
  if ds.isEmpty then expecting "value" whole
  else
    let (frac, rest) := fraction rest
    let (power, rest) := exponent rest
    match frac, power with
    | none, none => .ok (.int (Binary64.signedInt negative (Text.natOfDigits ds)), rest)
    | frac, power =>
      .ok (.float (Binary64.ofParts negative ds (frac.getD []) (power.getD 0)), rest)

/-- A literal at the start of a text. -/
def literal? (cs : List Char) : Option (Value × List Char) :=
  let table : List (String × Value) :=
    [("null", .null), ("true", .bool true), ("false", .bool false),
      ("NaN", .float (.nan (.constant "json"))),
      ("Infinity", .float (.infinite false)), ("-Infinity", .float (.infinite true))]
  (table.find? fun entry => entry.1.toList.isPrefixOf cs).map fun entry =>
    (entry.2, cs.drop entry.1.length)

mutual

/-- A value at the start of a text. -/
def value : Nat → List Char → Parsed Value
  | 0, cs => expecting "value" cs
  | fuel + 1, cs =>
    match cs with
    | '\x22' :: rest => (string cs.length rest).map fun (s, rest) => (.str (String.ofList s), rest)
    | '[' :: rest =>
      match skip rest with
      | ']' :: rest => .ok (.list [], rest)
      | rest => (items fuel rest).map fun (vs, rest) => (.list vs, rest)
    | c :: rest =>
      if c = '\x7b' then
        match skip rest with
        | '\x7d' :: rest => .ok (.map [], rest)
        | rest => (members fuel rest).map fun (es, rest) => (.map (Mapping.ofPairs es), rest)
      else
        match literal? cs with
        | some found => .ok found
        | none => number cs
    | [] => expecting "value" cs

/-- The items of a list, from the first one to the closing bracket. -/
def items : Nat → List Char → Parsed (List Value)
  | 0, cs => expecting "value" cs
  | fuel + 1, cs =>
    match value fuel cs with
    | .error e => .error e
    | .ok (v, rest) =>
      match skip rest with
      | ']' :: rest => .ok ([v], rest)
      | ',' :: rest => (items fuel (skip rest)).map fun (vs, rest) => (v :: vs, rest)
      | rest => expecting "',' delimiter" rest

/-- The members of an object, from the first name to the closing brace. -/
def members : Nat → List Char → Parsed (List (Value × Value))
  | 0, cs => expecting "value" cs
  | fuel + 1, cs =>
    match cs with
    | '\x22' :: rest =>
      match string cs.length rest with
      | .error e => .error e
      | .ok (name, rest) =>
        match skip rest with
        | ':' :: rest =>
          match value fuel (skip rest) with
          | .error e => .error e
          | .ok (v, rest) =>
            let entry := (Value.str (String.ofList name), v)
            match skip rest with
            | ',' :: rest =>
              (members fuel (skip rest)).map fun (es, rest) => (entry :: es, rest)
            | '\x7d' :: rest => .ok ([entry], rest)
            | rest => expecting "',' delimiter" rest
        | rest => expecting "':' delimiter" rest
    | cs => expecting "property name enclosed in double quotes" cs

end

/-- A whole document. -/
def document (cs : List Char) : Except Fault Value :=
  if cs.head? = some '\ufeff' then
    .error ⟨"Unexpected UTF-8 BOM (decode using utf-8-sig)", cs.length⟩
  else
    match value (2 * cs.length + 2) (skip cs) with
    | .error e => .error e
    | .ok (v, rest) =>
      match skip rest with
      | [] => .ok v
      | rest => .error ⟨"Extra data", rest.length⟩

/-- The words of a fault in a text, with its place. -/
def Fault.message (text : List Char) (f : Fault) : String :=
  let pos := text.length - f.left
  let before := text.take pos
  let line := before.count '\n' + 1
  let column := (before.reverse.takeWhile (· ≠ '\n')).length + 1
  f.what ++ ": line " ++ toString line ++ " column " ++ toString column ++
    " (char " ++ toString pos ++ ")"

/-- Reads a document. -/
def read (text : List Char) : Except String Value :=
  (document text).mapError (Fault.message text)

end TreeTemplate.Document.Json
