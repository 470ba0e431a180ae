import TreeTemplate.Document.Encoding
import TreeTemplate.Document.Yaml.Literal
import TreeTemplate.Document.Yaml.Plain
import TreeTemplate.Document.Yaml.Quoted

/-! # Tokens of YAML

A document as a row of tokens, in which the structure that indentation gives is spelled
out: blocks are opened and closed, and every key is announced.  Whether a token is a key
shows only at the colon after it; until then it is remembered as a candidate, with its
place among the tokens, and one candidate is enough for each level of brackets.
-/
namespace TreeTemplate.Document.Yaml

/-- A line about the document after it. -/
inductive Directive where
  | version
  /-- What a handle of tags stands for. -/
  | handle (name expansion : List Char)
  | other
  deriving DecidableEq, Repr

/-- A token. -/
inductive Token where
  | directive (d : Directive)
  | startMark
  | endMark
  | openSequence
  | openMapping
  | closeBlock
  | item
  | key
  | value
  | openList
  | closeList
  | openBraces
  | closeBraces
  | comma
  | anchor (name : List Char)
  | alias (name : List Char)
  /-- The name of a tag; what comes before its last part may be a handle. -/
  | tag (handle : Option (List Char)) (name : List Char)
  | scalar (isPlain : Bool) (text : List Char)
  deriving DecidableEq, Repr

/-- A token that turns out to be a key if a colon follows on its line. -/
structure Candidate where
  /-- How many tokens stand before it. -/
  place : Nat
  /-- It begins a line of a block mapping, where nothing but a key can stand. -/
  required : Bool
  index : Nat
  line : Nat
  column : Nat

/-- A text of which the tokens before some character are known. -/
structure Scan where
  rest : List Char
  index : Nat := 0
  line : Nat := 0
  column : Nat := 0
  /-- The columns of the open blocks, innermost first. -/
  indents : List Nat := []
  /-- The candidate at each level of brackets, innermost first; the last level is that
  outside all brackets. -/
  candidates : List (Option Candidate) := [none]
  /-- Whether the next token may be a key. -/
  keyAllowed : Bool := true
  /-- The tokens found, last one first. -/
  tokens : List Token := []

namespace Scan

/-- Whether the scan is inside brackets. -/
def inFlow (s : Scan) : Bool := 1 < s.candidates.length

/-- A scan one character further. -/
def step (s : Scan) (c : Char) (rest : List Char) : Scan :=
  if isBreak c then
    { s with rest, index := s.index + 1, line := s.line + 1, column := 0 }
  else
    { s with rest, index := s.index + 1, column := if c = '\ufeff' then s.column else s.column + 1 }

/-- A scan `n` characters further. -/
def forward (s : Scan) : Nat → Scan
  | 0 => s
  | n + 1 =>
    match s.rest with
    | [] => s
    | c :: rest => (s.step c rest).forward n

/-- The scan whose remaining text is an end of what remained. -/
def moveTo (s : Scan) (rest : List Char) : Scan := s.forward (s.rest.length - rest.length)

/-- Adds a token. -/
def push (s : Scan) (t : Token) : Scan := { s with tokens := t :: s.tokens }

/-- Adds tokens before the last tokens, after the first `place` ones. -/
def insert (s : Scan) (place : Nat) (ts : List Token) : Scan :=
  let (last, first) := s.tokens.splitAt (s.tokens.length - place)
  { s with tokens := last ++ ts.reverse ++ first }

/-- Goes to the next token.  After a line end a key may stand, outside brackets. -/
def toToken (s : Scan) : Scan :=
  let (rest, broken) := skipGap false false s.rest
  let s := s.moveTo rest
  if broken && !s.inFlow then { s with keyAllowed := true } else s

/-- Drops a candidate, unless a key must stand there. -/
def dropped (c : Option Candidate) : Attempt (Option Candidate) :=
  match c with
  | some c => if c.required then refuse else .ok none
  | none => .ok none

/-- Drops the candidates that are on an earlier line or too far away. -/
def dropStale (s : Scan) : Attempt Scan := do
  let candidates ← s.candidates.mapM fun c =>
    match c with
    | some k => if k.line ≠ s.line ∨ k.index + 1024 < s.index then dropped c else .ok c
    | none => .ok none
  pure { s with candidates }

/-- Drops the candidate at the innermost level. -/
def dropCandidate (s : Scan) : Attempt Scan :=
  match s.candidates with
  | [] => .ok s
  | c :: outer => (dropped c).map fun c => { s with candidates := c :: outer }

/-- Remembers the token that comes next as a candidate, if it may be a key. -/
def remember (s : Scan) : Attempt Scan :=
  if s.keyAllowed then do
    let s ← s.dropCandidate
    let required := !s.inFlow && s.indents.head? == some s.column
    let candidate : Candidate := ⟨s.tokens.length, required, s.index, s.line, s.column⟩
    pure { s with candidates := some candidate :: s.candidates.drop 1 }
  else .ok s

/-- Whether keys may follow. -/
def allowing (s : Scan) (keyAllowed : Bool) : Scan := { s with keyAllowed }

/-- Whether a block at a column would be inside the open blocks. -/
def isDeeper (s : Scan) (column : Nat) : Bool := s.indents.head?.all (· < column)

/-- Opens a block at the current column, if it is inside the open blocks. -/
def openBlock (s : Scan) (t : Token) : Scan :=
  if s.isDeeper s.column then { s.push t with indents := s.column :: s.indents } else s

/-- Closes the blocks that are open right of a column, or all without one. -/
def closeBlocks (s : Scan) (column : Option Nat) : Scan :=
  if s.inFlow then s
  else
    let (closed, left) := s.indents.span fun i => column.all (· < i)
    { s with indents := left, tokens := closed.map (fun _ => Token.closeBlock) ++ s.tokens }

/-- A mark between documents or a directive, and what follows it; blocks end there. -/
def mark (s : Scan) (read : Attempt (Token × List Char)) : Attempt Scan := do
  let s ← (s.closeBlocks none).dropCandidate
  let (t, rest) ← read
  pure (((s.moveTo rest).push t).allowing false)

/-- An opening bracket. -/
def openFlow (s : Scan) (t : Token) : Attempt Scan := do
  let s ← s.remember
  pure (({ s with candidates := none :: s.candidates }.forward 1).push t |>.allowing true)

/-- A closing bracket. -/
def close (s : Scan) (t : Token) : Attempt Scan := do
  if s.inFlow then
    let s ← s.dropCandidate
    pure (({ s with candidates := s.candidates.drop 1 }.forward 1).push t |>.allowing false)
  else refuse

/-- A comma, which stands inside brackets only. -/
def comma (s : Scan) : Attempt Scan := do
  if s.inFlow then
    let s ← s.dropCandidate
    pure (((s.forward 1).push .comma).allowing true)
  else refuse

/-- The mark of an item, which stands outside brackets only. -/
def item (s : Scan) : Attempt Scan := do
  if s.inFlow || !s.keyAllowed then refuse
  else
    let s ← (s.openBlock .openSequence).dropCandidate
    pure (((s.forward 1).push .item).allowing true)

/-- The mark of a key. -/
def key (s : Scan) : Attempt Scan := do
  if s.inFlow then
    let s ← s.dropCandidate
    pure (((s.forward 1).push .key).allowing false)
  else if s.keyAllowed then
    let s ← (s.openBlock .openMapping).dropCandidate
    pure (((s.forward 1).push .key).allowing true)
  else refuse

/-- A colon, which makes the candidate a key. -/
def value (s : Scan) : Attempt Scan := do
  match s.candidates with
  | some c :: outer =>
    let s := { s with candidates := none :: outer }
    let s :=
      if !s.inFlow && s.isDeeper c.column then
        { s.insert c.place [.openMapping, .key] with indents := c.column :: s.indents }
      else s.insert c.place [.key]
    pure (((s.forward 1).push .value).allowing false)
  | _ =>
    if s.inFlow then pure (((s.forward 1).push .value).allowing false)
    else if s.keyAllowed then
      let s ← (s.openBlock .openMapping).dropCandidate
      pure (((s.forward 1).push .value).allowing true)
    else refuse

/-- A token that may be a key, and what follows it. -/
def content (s : Scan) (read : Attempt (Token × List Char)) : Attempt Scan := do
  let s ← s.remember
  let (t, rest) ← read
  pure (((s.moveTo rest).push t).allowing false)

/-- A scalar in lines of its own, after its mark. -/
def lines (s : Scan) (fold : Bool) (cs : List Char) : Attempt Scan := do
  let least := (s.indents.head?.map (· + 1)).getD 1
  let s ← s.dropCandidate
  let (text, rest) ← orRefuse (literal? fold least cs)
  pure (((s.moveTo rest).push (.scalar false text)).allowing true)

end Scan

namespace Token

/-- Characters of the name of an anchor. -/
def isNameChar (c : Char) : Bool := c.isAlphanum || c == '-' || c == '_'

/-- The text after digits, of which there is at least one. -/
def afterDigits? (cs : List Char) : Option (List Char) :=
  let (digits, rest) := cs.span Char.isDigit
  if digits.isEmpty then none else some rest

/-- The text after a version of the first generation. -/
def afterVersion? (cs : List Char) : Option (List Char) :=
  match (cs.dropWhile (· = ' ')).dropWhile (· = '0') with
  | '1' :: '.' :: rest => (afterDigits? rest).bind fun rest =>
    if rest.head? = some ' ' ∨ atBreak rest then some rest else none
  | _ => none

/-- Characters of the name of a tag. -/
def isTagChar (c : Char) : Bool :=
  c.isAlphanum || "-;/?:@&=+$,_.!~*\x27()[]%".toList.contains c

/-- The bytes that a text begins with, each as a percent sign and two digits. -/
def escapedBytes : List Char → Attempt (List UInt8 × List Char)
  | '%' :: a :: b :: rest => do
    let high ← orRefuse (Json.hexDigit? a)
    let low ← orRefuse (Json.hexDigit? b)
    let (bytes, rest) ← escapedBytes rest
    pure (UInt8.ofNat (16 * high + low) :: bytes, rest)
  | '%' :: _ => refuse
  | cs => .ok ([], cs)

/-- The characters of a tag of at most `fuel` characters that a text begins with, and what
follows. -/
def scanTagText : Nat → List Char → Attempt (List Char × List Char)
  | 0, cs => .ok ([], cs)
  | _, [] => .ok ([], [])
  | fuel + 1, c :: rest =>
    if c = '%' then do
      let (bytes, rest) ← escapedBytes (c :: rest)
      match Encoding.utf8.decode bytes with
      | .error _ => refuse
      | .ok text => after text (scanTagText fuel rest)
    else if isTagChar c then after [c] (scanTagText fuel rest)
    else .ok ([], c :: rest)

/-- The name of a tag that a text begins with, and what follows. -/
def scanTagName (cs : List Char) : Attempt (List Char × List Char) := do
  let (name, rest) ← scanTagText (cs.length + 1) cs
  if name.isEmpty then refuse else pure (name, rest)

/-- The handle whose `!` stands before a text, and what follows it. -/
def scanHandle (cs : List Char) : Attempt (List Char × List Char) :=
  let (name, rest) := cs.span isNameChar
  match rest with
  | '!' :: rest => .ok ('!' :: name ++ ['!'], rest)
  | _ => refuse

/-- Whether a text is at its end, at a blank or at a line end. -/
def atSpace (cs : List Char) : Bool := cs.head? == some ' ' || atBreak cs

/-- The tag whose `!` stands before a text, and what follows. -/
def scanTag (cs : List Char) : Attempt (Token × List Char) := do
  let (handle, name, rest) ←
    match cs with
    | '<' :: rest => do
      let (name, rest) ← scanTagName rest
      if rest.head? = some '>' then pure (none, name, rest.drop 1) else refuse
    | cs =>
      if atGap cs then pure (none, ['!'], cs)
      else if (cs.takeWhile fun c => c ≠ ' ' && !isBreak c).contains '!' then do
        let (handle, rest) ← scanHandle cs
        let (name, rest) ← scanTagName rest
        pure (some handle, name, rest)
      else do
        let (name, rest) ← scanTagName cs
        pure (some ['!'], name, rest)
  if atSpace rest then pure (.tag handle name, rest) else refuse

/-- What a handle stands for, and the text after it. -/
def scanExpansion (cs : List Char) : Attempt (Directive × List Char) := do
  match cs.dropWhile (· = ' ') with
  | '!' :: rest => do
    let (name, rest) ← if rest.head? = some ' ' then pure (['!'], rest) else scanHandle rest
    if rest.head? = some ' ' then
      let (expansion, rest) ← scanTagName (rest.dropWhile (· = ' '))
      if atSpace rest then pure (.handle name expansion, rest) else refuse
    else refuse
  | _ => refuse

/-- The text after a line on which nothing but a comment may follow. -/
def afterLine (cs : List Char) : Attempt (List Char) :=
  let cs := cs.dropWhile (· = ' ')
  let cs := if cs.head? = some '#' then cs.dropWhile (!isBreak ·) else cs
  if atBreak cs then .ok (cs.drop 1) else refuse

/-- The directive after a `%`, and what follows its line. -/
def scanDirective (cs : List Char) : Attempt (Token × List Char) := do
  let (name, rest) := cs.span isNameChar
  if name.isEmpty || !atSpace rest then refuse
  else
    let (d, rest) ←
      if name = "YAML".toList then
        (orRefuse (afterVersion? rest)).map fun rest => (Directive.version, rest)
      else if name = "TAG".toList then scanExpansion rest
      else pure (.other, rest.dropWhile (!isBreak ·))
    pure (.directive d, ← afterLine rest)

/-- Characters that may follow the name of an anchor, gaps apart. -/
def nameEnds : List Char := ['?', ':', ',', ']', '\x7d', '%', '@', '\x60']

/-- The name that a text begins with, and what follows. -/
def scanName (cs : List Char) : Attempt (List Char × List Char) :=
  let (name, rest) := cs.span isNameChar
  if !name.isEmpty && (atGap rest || (rest.head?.map nameEnds.contains).getD false) then
    .ok (name, rest)
  else refuse

/-- The scan after the token that begins with a character; the character is the first one
that remains. -/
def scan (s : Scan) (c : Char) (rest : List Char) : Attempt Scan :=
  if s.column = 0 ∧ atMark (c :: rest) then
    s.mark (.ok (if c = '-' then .startMark else .endMark, rest.drop 2))
  else if s.column = 0 ∧ c = '%' then s.mark (scanDirective rest)
  else
    match c with
    | '[' => s.openFlow .openList
    | '\x7b' => s.openFlow .openBraces
    | ']' => s.close .closeList
    | '\x7d' => s.close .closeBraces
    | ',' => s.comma
    | '*' => s.content ((scanName rest).map fun (name, rest) => (.alias name, rest))
    | '&' => s.content ((scanName rest).map fun (name, rest) => (.anchor name, rest))
    | '!' => s.content (scanTag rest)
    | c =>
      if c = '-' ∧ atGap rest then s.item
      else if c = '?' ∧ (s.inFlow ∨ atGap rest) then s.key
      else if c = ':' ∧ (s.inFlow ∨ atGap rest) then s.value
      else if (c = '|' ∨ c = '>') ∧ !s.inFlow then s.lines (c = '>') rest
      else if c = '\x27' ∨ c = '\x22' then
        s.content ((quoted (c :: rest)).map fun (text, rest) => (.scalar false text, rest))
      else if isPlainStart s.inFlow (c :: rest) then
        let indent := (s.indents.head?.map (· + 1)).getD 0
        let (text, rest) := plain s.inFlow indent (c :: rest)
        s.content (.ok (.scalar true text, rest))
      else refuse

/-- The tokens of a text as far as they are known before it is refused, and the refusal. -/
structure Row where
  tokens : List Token
  refusal : Option Refusal := none
  deriving Repr

/-- The tokens of a scan that ends with a refusal.  They are known up to the first one that
might still turn out to be a key. -/
def Row.refused (s : Scan) (cause : Refusal) : Row :=
  let candidates := (s.dropStale.toOption.getD s).candidates.filterMap id
  let known := candidates.foldl (fun n c => min n c.place) s.tokens.length
  ⟨s.tokens.reverse.take known, some cause⟩

/-- A scan after the next token, or the whole row if there is none. -/
def next (s : Scan) : Attempt (Scan ⊕ Row) := do
  let s ← s.toToken.dropStale
  let s := s.closeBlocks (some s.column)
  match s.rest with
  | [] =>
    let s ← (s.closeBlocks none).dropCandidate
    pure (.inr ⟨s.tokens.reverse, none⟩)
  | c :: rest => pure (.inl (← scan s c rest))

/-- The tokens of a text of which at most `fuel` tokens remain. -/
def scanAll : Nat → Scan → Row
  | 0, s => .refused s .malformed
  | fuel + 1, s =>
    match next s with
    | .error cause => .refused s cause
    | .ok (.inl s) => scanAll fuel s
    | .ok (.inr row) => row

/-- The tokens of a text. -/
def ofText (cs : List Char) : Row :=
  scanAll (cs.length + 1) { rest := alikeBreaks cs }

example : (ofText "a: [b]".toList).tokens =
    [.openMapping, .key, .scalar true ['a'], .value, .openList, .scalar true ['b'],
      .closeList, .closeBlock] := by decide +kernel

end Token
end TreeTemplate.Document.Yaml
