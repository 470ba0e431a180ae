import TreeTemplate.Value.Basic
import TreeTemplate.Text.Integer
import TreeTemplate.Text.Quoted

/-! # Values shown as text

`shown` is the unambiguous form used in messages and inside containers; `text` is the
form that a template inserts, which differs for strings and moments.  What the host lends
is shown as the host says.
-/
namespace TreeTemplate.Value

/-- Texts with `, ` between them. -/
def commaSeparated : List (List Char) → List Char
  | [] => []
  | [cs] => cs
  | cs :: rest => cs ++ [',', ' '] ++ commaSeparated rest

/-- The items of a tuple in parentheses; a single item is followed by a comma. -/
def tupleText : List (List Char) → List Char
  | [cs] => '(' :: cs ++ [',', ')']
  | parts => '(' :: commaSeparated parts ++ [')']

mutual

/-- The unambiguous form of a value. -/
def shownChars (host : HostRef → String) : Value → List Char
  | .null => "None".toList
  | .bool true => "True".toList
  | .bool false => "False".toList
  | .int n => Text.showInt n
  | .float x => x.write .shown
  | .str s => Text.quoted s.toList
  | .bytes bs => Text.quotedBytes bs
  | .moment m => m.shown.toList
  | .list items => '[' :: commaSeparated (shownItems host items) ++ [']']
  | .tuple items => tupleText (shownItems host items)
  | .map entries => '\x7b' :: commaSeparated (shownEntries host entries) ++ ['\x7d']
  | .host r => (host r).toList

/-- The unambiguous forms of a row of values. -/
def shownItems (host : HostRef → String) : List Value → List (List Char)
  | [] => []
  | v :: vs => shownChars host v :: shownItems host vs

/-- The forms of a row of entries, each key and its value joined by a colon. -/
def shownEntries (host : HostRef → String) : List (Value × Value) → List (List Char)
  | [] => []
  | (k, v) :: rest =>
    (shownChars host k ++ [':', ' '] ++ shownChars host v) :: shownEntries host rest

end

/-- The unambiguous form of a value. -/
def shown (host : HostRef → String) (v : Value) : String :=
  String.ofList (shownChars host v)

/-- The form of a value that a template inserts into a text. -/
def text (host : HostRef → String) : Value → String
  | .str s => s
  | .moment m => m.text
  | v => shown host v

example : shown (fun _ => "") (.list [.tuple [.int 1], .str "a", .map [(.null, .bool true)]]) =
    "[(1,), 'a', \x7bNone: True\x7d]" := by decide +kernel

end TreeTemplate.Value
