import TreeTemplate.Text.Printable

/-! # Quoted texts

The unambiguous form in which messages show a text or a row of bytes.  A text is
quoted with `'`, or with `"` when it holds a `'` and no `"`; the quote, the backslash
and every character that cannot be printed are escaped.
-/
namespace TreeTemplate.Text

/-- The single quote. -/
def singleQuote : Char := '\x27'

/-- The double quote. -/
def doubleQuote : Char := '\x22'

/-- The quote that delimits the shown form of `cs`. -/
def quoteFor (cs : List Char) : Char :=
  if singleQuote ∈ cs ∧ doubleQuote ∉ cs then doubleQuote else singleQuote

/-- `n` in lower-case hexadecimal, padded with zeros to `width` digits. -/
def hexPadded (width n : Nat) : List Char :=
  let ds := Nat.toDigits 16 n
  List.replicate (width - ds.length) '0' ++ ds

/-- A character that cannot be printed, as its code point in hexadecimal. -/
def escapeCode (n : Nat) : List Char :=
  if n < 0x100 then '\\' :: 'x' :: hexPadded 2 n
  else if n < 0x10000 then '\\' :: 'u' :: hexPadded 4 n
  else '\\' :: 'U' :: hexPadded 8 n

/-- The short escape that a character has whether or not it can be printed. -/
def shortEscape? (quote c : Char) : Option (List Char) :=
  if c = quote ∨ c = '\\' then some ['\\', c]
  else if c = '\n' then some ['\\', 'n']
  else if c = '\r' then some ['\\', 'r']
  else if c = '\t' then some ['\\', 't']
  else none

/-- One character inside quotes. -/
def escapeChar (quote c : Char) : List Char :=
  match shortEscape? quote c with
  | some cs => cs
  | none => if isPrintable c then [c] else escapeCode c.toNat

/-- A text in quotes. -/
def quoted (cs : List Char) : List Char :=
  let quote := quoteFor cs
  quote :: cs.flatMap (escapeChar quote) ++ [quote]

/-- One byte inside quotes: ASCII that can be printed stands for itself. -/
def escapeByte (quote : Char) (b : UInt8) : List Char :=
  let c := Char.ofNat b.toNat
  match shortEscape? quote c with
  | some cs => cs
  | none => if 0x20 ≤ b.toNat ∧ b.toNat < 0x7F then [c] else escapeCode b.toNat

/-- A row of bytes in quotes, marked by a leading `b`. -/
def quotedBytes (bs : List UInt8) : List Char :=
  let quote := quoteFor (bs.map fun b => Char.ofNat b.toNat)
  'b' :: quote :: bs.flatMap (escapeByte quote) ++ [quote]

/-- A string in quotes. -/
def quote (s : String) : String := String.ofList (quoted s.toList)

example : quote "it's" = "\"it's\"" ∧ quote "a\\\n\x7f" = "'a\\\\\\n\\x7f'" := by decide +kernel

end TreeTemplate.Text
