import TreeTemplate.Template.Inline
import TreeTemplate.Value.Shown

/-! # Templates

The directives that a template consists of.  A template is written as plain data whose
texts carry markers; `Node.ofValue` reads the markers once, so that what a template does
is a matter of its nodes and never of the values that pass through it.  Parts that no
run can reach, such as elements after a stop marker, are left out.  The entries of a mapping
are put in order by the texts that their keys have at the time.
-/
namespace TreeTemplate

/-- What a text does where it stands as a leaf.  `dash` asks for a produced list to be
spliced. -/
inductive Leaf where
  /-- The value of a clause. -/
  | direct (dash : Bool) (clause : String)
  /-- The text of the value of a clause. -/
  | string (clause : String)
  /-- A comment, which leaves an empty text behind where a value is needed, and with
  `keep` everywhere. -/
  | comment (keep : Bool)
  /-- The document in the file that a clause names, processed in place. -/
  | «include» (dash : Bool) (clause : String)
  /-- The result of the function that a clause names. -/
  | call (dash : Bool) (clause : String)
  | plain (segments : List Inline.Segment)

mutual

/-- A template. -/
inductive Node where
  /-- A scalar that stands for itself. -/
  | verbatim (v : Value)
  | leaf (source : String) (content : Leaf)
  /-- A body repeated for every item of a list. -/
  | loop (source : String) (dash : Bool) (clause : String) (body : List Node)
  /-- A choice between two branches, either of which may be absent. -/
  | condition (source : String) (dash : Bool) (clause : String) (yes no : Option Node)
  /-- A plain list; `forced` asks for it to be spliced. -/
  | elements (forced : Bool) (parts : List Element)
  /-- A body merged once for every entry of a mapping. -/
  | each (key : String) (clause : String) (body : Node)
  /-- A choice among cases by their keys. -/
  | switch (key : String) (clause : String) (cases : List (Value × Node))
  /-- A switch whose cases are no mapping but a value of the named type. -/
  | badSwitch (key : String) (typeName : String)
  /-- A mapping whose entries are processed in order. -/
  | merge (entries : List Entry)
  /-- A mapping, given the texts of its keys. -/
  | mapping (given : (Value → String) → Node)

/-- An element of a plain list. -/
inductive Element where
  /-- Leave out the next item. -/
  | skip
  /-- Pass the next item to the function that a clause names. -/
  | capture (clause : String)
  /-- Splice the next item. -/
  | splice
  | item (node : Node)

/-- An entry of a mapping. -/
inductive Entry where
  /-- The entries of the mapping that a value makes. -/
  | merge (key : String) (value : Node)
  /-- A value that looks like a comment, where none may stand. -/
  | commented (key : Value) (value : String)
  /-- The entries of the mapping that a function makes of a value. -/
  | apply (key : String) (clause : String) (value : Node)
  /-- A key and its value. -/
  | put (key : Node) (value : Node)

end

namespace Leaf

/-- The dash after a marker, and the clause after it. -/
def splitDash : List Char → Bool × List Char
  | '-' :: cs => (true, cs)
  | cs => (false, cs)

/-- The clause of a text after its marker and the blanks before the clause. -/
def strippedClause (cs : List Char) : String := String.ofList (Inline.skipBlanks cs)

/-- What a text does as a leaf, by its first character. -/
def ofChars : List Char → Leaf
  | '&' :: cs => .direct (splitDash cs).1 (String.ofList (splitDash cs).2)
  | ',' :: cs => .direct (splitDash cs).1 (String.ofList (splitDash cs).2)
  | '$' :: cs => .string (String.ofList cs)
  | '#' :: cs => .comment (cs.head? = some '+')
  | '.' :: cs => .«include» (splitDash cs).1 (strippedClause (splitDash cs).2)
  | '^' :: cs => .call (splitDash cs).1 (strippedClause (splitDash cs).2)
  | cs => .plain (Inline.segments cs)

end Leaf

namespace Node

instance : Inhabited Node := ⟨.verbatim .null⟩

/-- What a text does at the head of a list. -/
inductive Head where
  | loop (dash : Bool) (clause : String)
  | condition (dash : Bool) (clause : String)
  | plain

/-- What a text does at the head of a list, by its first character. -/
def Head.ofChars : List Char → Head
  | '@' :: cs => .loop (Leaf.splitDash cs).1 (String.ofList (Leaf.splitDash cs).2)
  | '?' :: cs => .condition (Leaf.splitDash cs).1 (String.ofList (Leaf.splitDash cs).2)
  | _ => .plain

/-- What a text does as an element of a plain list. -/
inductive Marker where
  | stop (dash : Bool)
  | skip (dash : Bool)
  | capture (dash : Bool) (clause : String)
  | splice
  | none

/-- What a text does as an element of a plain list, by its first characters. -/
def Marker.ofChars : List Char → Marker
  | '/' :: '/' :: cs => .stop (Leaf.splitDash cs).1
  | '/' :: cs => .skip (Leaf.splitDash cs).1
  | '^' :: cs => .capture (Leaf.splitDash cs).1 (Leaf.strippedClause (Leaf.splitDash cs).2)
  | '<' :: _ => .splice
  | _ => .none

/-- Whether a marker carries a dash, which splices the whole list if the marker stands
first. -/
def Marker.dash : Marker → Bool
  | .stop dash => dash
  | .skip dash => dash
  | .capture dash _ => dash
  | _ => false

/-- Whether the first element of a plain list asks for the list to be spliced. -/
def forcedBy : List Value → Bool
  | .str s :: _ => (Marker.ofChars s.toList).dash
  | _ => false

/-- What the key of an entry asks for. -/
inductive KeyMark where
  /-- Takes the place of the whole mapping: once for every entry of a mapping. -/
  | each (clause : String)
  /-- Takes the place of the whole mapping: one of several cases. -/
  | switch (clause : String)
  /-- Leave the entry out. -/
  | dead
  | merge
  | apply (clause : String)
  | none

/-- What the text of a key asks for, by its first character. -/
def KeyMark.ofChars : List Char → KeyMark
  | '%' :: cs => .each (String.ofList cs)
  | '?' :: cs => .switch (String.ofList cs)
  | '/' :: _ => .dead
  | '<' :: _ => .merge
  | '^' :: cs => .apply (Leaf.strippedClause cs)
  | _ => .none

/-- Whether a text begins with a slash, which no value of an entry may. -/
def looksCommented (s : String) : Bool := s.toList.head? = some '/'

/-- An entry as it is read, before the entries are put in order. -/
inductive Reading where
  | dead
  /-- A directive that takes the place of the whole mapping. -/
  | whole (node : Node)
  | live (entry : Entry)

/-- The key of an order in which keys that begin with `<` come first and keys of either
sort are ordered by their text. -/
structure Rank where
  plain : Bool
  text : String

/-- The rank of a key with the given text. -/
def Rank.ofText (text : String) : Rank := ⟨text.toList.head? ≠ some '<', text⟩

/-- Whether a rank may stand before another. -/
def Rank.le (a b : Rank) : Bool :=
  if a.plain = b.plain then decide (a.text ≤ b.text) else b.plain

/-- Puts an entry before the first entry that it may stand before. -/
def insertRanked {α : Type} (r : Rank) (a : α) : List (Rank × α) → List (Rank × α)
  | [] => [(r, a)]
  | (s, b) :: rest =>
    if r.le s then (r, a) :: (s, b) :: rest else (s, b) :: insertRanked r a rest

/-- Entries in the order of their ranks, those of equal rank as they stood. -/
def sortRanked {α : Type} : List (Rank × α) → List (Rank × α)
  | [] => []
  | (r, a) :: rest => insertRanked r a (sortRanked rest)

/-- The directive that takes the place of the whole mapping. -/
def Reading.whole? : Reading → Option Node
  | .whole node => some node
  | _ => none

/-- The entry that is not left out. -/
def Reading.live? : Reading → Option Entry
  | .live entry => some entry
  | _ => none

/-- The mapping that entries in order make: the first directive that takes the place of
the whole mapping, or else the entries that are not left out. -/
def ofReadings (readings : List Reading) : Node :=
  match readings.findSome? Reading.whole? with
  | some node => node
  | none => .merge (readings.filterMap Reading.live?)

/-- Entries in the order of the ranks of their keys. -/
def inOrder (text : Value → String) (rows : List (Value × Reading)) : List Reading :=
  (sortRanked (rows.map fun row => (Rank.ofText (text row.1), row.2))).map (·.2)

/-- The mapping that entries make, whatever texts their keys have. -/
def ofRows (rows : List (Value × Reading)) : Node :=
  .mapping fun text => ofReadings (inOrder text rows)

/-- A text as a leaf. -/
def ofText (s : String) : Node := .leaf s (Leaf.ofChars s.toList)

/-- The element that a text is, before the elements after it; a stop marker leaves those
out. -/
def readElement (s : String) (rest : List Element) : List Element :=
  match Marker.ofChars s.toList with
  | .stop _ => []
  | .skip _ => .skip :: rest
  | .capture _ clause => .capture clause :: rest
  | .splice => .splice :: rest
  | .none => .item (ofText s) :: rest

/-- The entry of a key that takes the value, unless the value looks like a comment. -/
def unlessCommented (key value : Value) (entry : Entry) : Reading :=
  match value with
  | .str s => if looksCommented s then .live (.commented key s) else .live entry
  | _ => .live entry

mutual

/-- Reads a template from data. -/
def ofValue : Value → Node
  | .str s => ofText s
  | .list items => ofItems items
  | .tuple items => ofItems items
  | .map entries => ofRows (readEntries entries)
  | v => .verbatim v
  termination_by structural v => v

/-- Reads a list. -/
def ofItems : List Value → Node
  | .str s :: rest =>
    match Head.ofChars s.toList with
    | .loop dash clause => .loop s dash clause (ofValues rest)
    | .condition dash clause =>
      .condition s dash clause (ofBranch rest) (ofSecondBranch rest)
    | .plain => .elements (forcedBy [.str s]) (readElement s (readElements rest))
  | v :: rest => .elements false (.item (ofValue v) :: readElements rest)
  | [] => .elements false []

/-- Reads templates one by one. -/
def ofValues : List Value → List Node
  | [] => []
  | v :: vs => ofValue v :: ofValues vs

/-- Reads the first branch of a condition. -/
def ofBranch : List Value → Option Node
  | [] => none
  | v :: _ => some (ofValue v)

/-- Reads the second branch of a condition. -/
def ofSecondBranch : List Value → Option Node
  | [] => none
  | _ :: rest => ofBranch rest

/-- Reads the elements of a plain list, up to a stop marker. -/
def readElements : List Value → List Element
  | [] => []
  | .str s :: rest => readElement s (readElements rest)
  | v :: rest => .item (ofValue v) :: readElements rest

/-- Reads the entries of a mapping as they stand. -/
def readEntries : List (Value × Value) → List (Value × Reading)
  | [] => []
  | (k, v) :: rest => (k, readEntry (k, v)) :: readEntries rest

/-- Reads an entry. -/
def readEntry : Value × Value → Reading
  | (.str s, v) =>
    match KeyMark.ofChars s.toList with
    | .each clause => .whole (.each s clause (ofValue v))
    | .switch clause => .whole (ofSwitch s clause v)
    | .dead => .dead
    | .merge => unlessCommented (.str s) v (.merge s (ofValue v))
    | .apply clause => unlessCommented (.str s) v (.apply s clause (ofValue v))
    | .none => unlessCommented (.str s) v (.put (ofText s) (ofValue v))
  | (k, v) => unlessCommented k v (.put (ofValue k) (ofValue v))

/-- Reads a switch, whose cases must be a mapping. -/
def ofSwitch (key clause : String) : Value → Node
  | .map cases => .switch key clause (readCases cases)
  | v => .badSwitch key v.typeName

/-- Reads the cases of a switch as they stand. -/
def readCases : List (Value × Value) → List (Value × Node)
  | [] => []
  | (k, v) :: rest => (k, ofValue v) :: readCases rest

end

end Node
end TreeTemplate
