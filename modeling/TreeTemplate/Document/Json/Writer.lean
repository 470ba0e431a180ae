import TreeTemplate.Failure
import TreeTemplate.Text.Integer
import TreeTemplate.Value.Basic

/-! # Writing JSON

Values as JSON, on one line or indented by two blanks a level.  Tuples are written as
lists, and keys that are scalars as their text; whatever the notation has no form for is
refused.
-/
namespace TreeTemplate.Document.Json

/-- A text under construction, or the fault of a value without a form. -/
abbrev Written := Except Fault (List Char)

/-- A character inside quotes. -/
def escapeChar (c : Char) : List Char :=
  if c = '\x22' then ['\\', '\x22']
  else if c = '\\' then ['\\', '\\']
  else if c = '\n' then ['\\', 'n']
  else if c = '\r' then ['\\', 'r']
  else if c = '\t' then ['\\', 't']
  else if c = '\x0c' then ['\\', 'f']
  else if c = '\x08' then ['\\', 'b']
  else if c.toNat < 0x20 then '\\' :: 'u' :: Text.hexPadded 4 c.toNat
  else [c]

/-- A string in quotes. -/
def quoted (s : String) : List Char :=
  '\x22' :: s.toList.flatMap escapeChar ++ ['\x22']

/-- The name that a key is written as. -/
def name : Value → Except Fault String
  | .str s => .ok s
  | .int n => .ok (String.ofList (Text.showInt n))
  | .bool true => .ok "true"
  | .bool false => .ok "false"
  | .null => .ok "null"
  | .float x => .ok (String.ofList (x.write .json))
  | v => .error (.raised "TypeError"
      ("keys must be str, int, float, bool or None, not " ++ v.typeName))

/-- What stands between a bracket and an item at a level: nothing on one line, a line
end and the indentation otherwise. -/
def lineBreak (pretty : Bool) (level : Nat) : List Char :=
  if pretty then '\n' :: List.replicate (2 * level) ' ' else []

/-- What stands between two items at a level. -/
def separator (pretty : Bool) (level : Nat) : List Char :=
  ',' :: if pretty then lineBreak pretty level else [' ']

mutual

/-- A value at a level. -/
def writeChars (pretty : Bool) (level : Nat) : Value → Written
  | .null => .ok "null".toList
  | .bool true => .ok "true".toList
  | .bool false => .ok "false".toList
  | .int n => .ok (Text.showInt n)
  | .float x => .ok (x.write .json)
  | .str s => .ok (quoted s)
  | .list items => writeList pretty level items
  | .tuple items => writeList pretty level items
  | .map [] => .ok ['\x7b', '\x7d']
  | .map (entry :: rest) => do
    let cs ← writeMember pretty (level + 1) entry
    let more ← writeMembers pretty (level + 1) rest
    pure ('\x7b' :: lineBreak pretty (level + 1) ++ cs ++ more ++ lineBreak pretty level ++
      ['\x7d'])
  | v => .error (.raised "TypeError"
      ("Object of type " ++ v.typeName ++ " is not JSON serializable"))

/-- A list at a level. -/
def writeList (pretty : Bool) (level : Nat) : List Value → Written
  | [] => .ok ['[', ']']
  | v :: vs => do
    let cs ← writeChars pretty (level + 1) v
    let more ← writeItems pretty (level + 1) vs
    pure ('[' :: lineBreak pretty (level + 1) ++ cs ++ more ++ lineBreak pretty level ++ [']'])

/-- The items of a list after the first. -/
def writeItems (pretty : Bool) (level : Nat) : List Value → Written
  | [] => .ok []
  | v :: vs => do
    let cs ← writeChars pretty level v
    let more ← writeItems pretty level vs
    pure (separator pretty level ++ cs ++ more)

/-- An entry of a mapping. -/
def writeMember (pretty : Bool) (level : Nat) : Value × Value → Written
  | (k, v) => do
    let key ← name k
    let cs ← writeChars pretty level v
    pure (quoted key ++ ':' :: ' ' :: cs)

/-- The entries of a mapping after the first. -/
def writeMembers (pretty : Bool) (level : Nat) : List (Value × Value) → Written
  | [] => .ok []
  | entry :: rest => do
    let cs ← writeMember pretty level entry
    let more ← writeMembers pretty level rest
    pure (separator pretty level ++ cs ++ more)

end

/-- A value as a document. -/
def write (pretty : Bool) (v : Value) : Except Fault String :=
  (writeChars pretty 0 v).map String.ofList

end TreeTemplate.Document.Json
