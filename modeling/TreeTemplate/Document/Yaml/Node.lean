import TreeTemplate.Document.Yaml.Tag
import TreeTemplate.Document.Yaml.Token

/-! # Nodes of YAML

The tree that a row of tokens spells.  A node with an anchor may stand again wherever its
name does.  Of a row that ends with a refusal the tree may still be refused earlier, for a
reason of its own.
-/
namespace TreeTemplate.Document.Yaml

/-- A node of a document. -/
inductive Node where
  /-- A text, and the number of the tokens after it. -/
  | scalar (tag : Tag) (text : List Char) (place : Nat)
  | sequence (tag : Tag) (items : List Node)
  | mapping (tag : Tag) (entries : List (Node × Node))

namespace Node

/-- The kind of a node. -/
def tag : Node → Tag
  | .scalar tag _ _ => tag
  | .sequence tag _ => tag
  | .mapping tag _ => tag

/-- A node that is left out. -/
def absent : Node := .scalar .null [] 0

/-- The tokens that remain, why there are no more of them, the handles of tags, and the nodes
that have a name; the name of a node that is still being read has none. -/
structure Supply where
  tokens : List Token
  refusal : Option Refusal := none
  handles : List (List Char × List Char) := []
  named : List (List Char × Option Node) := []

/-- A part of the reading of tokens. -/
abbrev Reading := StateT Supply Attempt

/-- The next token. -/
def peek : Reading (Option Token) := do
  let s ← get
  match s.tokens, s.refusal with
  | t :: _, _ => pure (some t)
  | [], none => pure none
  | [], some cause => throw cause

/-- Refuses the document. -/
def fail {α : Type} : Reading α := throw .malformed

/-- Takes the next token away. -/
def advance : Reading Unit := modify fun s => { s with tokens := s.tokens.drop 1 }

/-- Takes a token away if it is the next one. -/
def accept (t : Token) : Reading Bool := do
  if (← peek) = some t then
    advance
    pure true
  else pure false

/-- Takes away the token that has to come next. -/
def expect (t : Token) : Reading Unit := do
  if ← accept t then pure () else fail

/-- Whether the next token is one of these. -/
def atAny (ts : List Token) : Reading Bool := do
  return ((← peek).map ts.contains).getD true

/-- The anchor that comes next. -/
def anchor? : Reading (Option (List Char)) := do
  match ← peek with
  | some (.anchor name) => do advance; pure (some name)
  | _ => pure none

/-- The tag that comes next. -/
def tag? : Reading (Option (Option (List Char) × List Char)) := do
  match ← peek with
  | some (.tag handle name) => do advance; pure (some (handle, name))
  | _ => pure none

/-- The handles that every document has. -/
def commonHandles : List (List Char × List Char) :=
  [(['!'], ['!']), (['!', '!'], Tag.family)]

/-- The full name of a tag. -/
def fullName (handle : Option (List Char)) (name : List Char) : Reading (List Char) := do
  match handle with
  | none => pure name
  | some handle =>
    match ((← get).handles ++ commonHandles).lookup handle with
    | some expansion => pure (expansion ++ name)
    | none => fail

/-- The anchor and the full name of the tag before a node, in any order. -/
def properties : Reading (Option (List Char) × Option (List Char)) := do
  let before ← anchor?
  let tag ← tag?
  let name ← if before.isNone && tag.isSome then anchor? else pure before
  pure (name, ← tag.mapM fun (handle, name) => fullName handle name)

/-- Gives a name to a node, or to one that is still being read. -/
def setName (name : Option (List Char)) (node : Option Node) : Reading Unit :=
  match name with
  | none => pure ()
  | some name => modify fun s => { s with named := (name, node) :: s.named }

/-- Refuses a name that was given already, once the content after it is known. -/
def refuseTaken (name : Option (List Char)) : Reading Unit := do
  match name with
  | none => pure ()
  | some name =>
    let _ ← peek
    if ((← get).named.lookup name).isSome then fail else pure ()

/-- The node that has a name. -/
def ofName (name : List Char) : Reading Node := do
  match (← get).named.lookup name with
  | some (some node) => pure node
  | _ => fail

/-- A scalar with the name of its tag.  Without one it is of the kind of its text, and so is
an unquoted one whose tag is a mere `!`. -/
def ofScalar (name : Option (List Char)) (isPlain : Bool) (text : List Char) : Reading Node := do
  let tag :=
    match name with
    | none => if isPlain then Tag.ofPlain text else .text
    | some ['!'] => Tag.ofPlain text
    | some name => Tag.ofName name
  pure (.scalar tag text (← get).tokens.length)

/-- The kind of a collection with the name of its tag. -/
def collectionTag (usual : Tag) (name : Option (List Char)) : Tag :=
  match name with
  | none => usual
  | some ['!'] => usual
  | some name => Tag.ofName name

mutual

/-- A node.  Some places admit no block, and some admit items that are not indented. -/
def read : Nat → Bool → Bool → Reading Node
  | 0, _, _ => fail
  | fuel + 1, inBlock, hasItems => do
    if let some (.alias name) ← peek then
      advance
      ofName name
    else
      let (name, tag) ← properties
      refuseTaken name
      setName name none
      let node ← readBody fuel inBlock hasItems tag (name.isSome || tag.isSome)
      setName name (some node)
      pure node

/-- A node after its properties; without it, they stand for an empty scalar. -/
def readBody : Nat → Bool → Bool → Option (List Char) → Bool → Reading Node
  | 0, _, _, _, _ => fail
  | fuel + 1, inBlock, hasItems, tag, hasProperties => do
    match ← peek with
    | some (.scalar isPlain text) => do
      advance
      ofScalar tag isPlain text
    | some .openList => do
      advance
      return .sequence (collectionTag .list tag) (← readList fuel true)
    | some .openBraces => do
      advance
      return .mapping (collectionTag .mapping tag) (← readBraces fuel true)
    | t =>
      if hasItems && t == some .item then do
        return .sequence (collectionTag .list tag)
          (← readItems fuel [.item, .key, .value, .closeBlock])
      else if inBlock && t == some .openSequence then do
        advance
        let items ← readItems fuel [.item, .closeBlock]
        expect .closeBlock
        return .sequence (collectionTag .list tag) items
      else if inBlock && t == some .openMapping then do
        advance
        let entries ← readEntries fuel
        expect .closeBlock
        return .mapping (collectionTag .mapping tag) entries
      else if hasProperties then ofScalar tag true []
      else fail

/-- A node, which is left out if one of these tokens comes next. -/
def readUnless : Nat → List Token → Bool → Bool → Reading Node
  | 0, _, _, _ => fail
  | fuel + 1, stops, inBlock, hasItems => do
    if ← atAny stops then pure absent else read fuel inBlock hasItems

/-- The items of a sequence, each after its mark; an item is left out before one of these
tokens. -/
def readItems : Nat → List Token → Reading (List Node)
  | 0, _ => fail
  | fuel + 1, stops => do
    if ← accept .item then
      let item ← readUnless fuel stops true false
      let more ← readItems fuel stops
      pure (item :: more)
    else pure []

/-- The entries of a block mapping. -/
def readEntries : Nat → Reading (List (Node × Node))
  | 0 => fail
  | fuel + 1 => do
    if ← accept .key then
      let stops := [.key, .value, .closeBlock]
      let key ← readUnless fuel stops true true
      let value ← readValue fuel stops true
      let more ← readEntries fuel
      pure ((key, value) :: more)
    else pure []

/-- What stands after a key, if a colon does. -/
def readValue : Nat → List Token → Bool → Reading Node
  | 0, _, _ => fail
  | fuel + 1, stops, inBlock => do
    if ← accept .value then readUnless fuel stops inBlock inBlock else pure absent

/-- The items of a list in brackets and the closing one; all but the first come after a
comma.  A pair is a mapping of its own. -/
def readList : Nat → Bool → Reading (List Node)
  | 0, _ => fail
  | fuel + 1, isFirst => do
    if ← accept .closeList then pure []
    else
      if !isFirst then expect .comma
      if ← accept .closeList then pure []
      else
        let item ← do
          if ← accept .key then
            let key ← readUnless fuel [.value, .comma, .closeList] false false
            let value ← readValue fuel [.comma, .closeList] false
            pure (mapping .mapping [(key, value)])
          else read fuel false false
        let more ← readList fuel false
        pure (item :: more)

/-- The entries of a mapping in braces and the closing one; all but the first come after a
comma. -/
def readBraces : Nat → Bool → Reading (List (Node × Node))
  | 0, _ => fail
  | fuel + 1, isFirst => do
    if ← accept .closeBraces then pure []
    else
      if !isFirst then expect .comma
      if ← accept .closeBraces then pure []
      else
        let entry ← do
          if ← accept .key then
            let key ← readUnless fuel [.value, .comma, .closeBraces] false false
            let value ← readValue fuel [.comma, .closeBraces] false
            pure (key, value)
          else pure (← read fuel false false, absent)
        let more ← readBraces fuel false
        pure (entry :: more)

end

/-- Takes away all marks of an end of the document. -/
def endMarks : Nat → Reading Unit
  | 0 => pure ()
  | fuel + 1 => do
    if ← accept .endMark then endMarks fuel else pure ()

/-- Remembers what a handle stands for. -/
def setHandle (name expansion : List Char) : Reading Unit := do
  if ((← get).handles.lookup name).isSome then fail
  else modify fun s => { s with handles := (name, expansion) :: s.handles }

/-- Takes away the directives before a document, and tells whether there are any; no two of
them are about the version, or about one handle. -/
def directives : Nat → Bool → Reading Bool
  | 0, _ => fail
  | fuel + 1, hasVersion => do
    match ← peek with
    | some (.directive d) =>
      if hasVersion && d == .version then fail
      else
        if let .handle name expansion := d then setHandle name expansion
        advance
        let _ ← directives fuel (hasVersion || d == .version)
        pure true
    | _ => pure false

/-- The only document of a row of tokens; a row without tokens has none, which counts as an
absent one. -/
def document (fuel : Nat) : Reading Node := do
  let hasDirectives ← directives fuel false
  let node ← do
    if ← accept .startMark then readUnless fuel [.startMark, .endMark] true false
    else if hasDirectives then fail
    else readUnless fuel [] true false
  endMarks fuel
  if (← peek).isNone then pure node else fail

/-- The tree that a row of tokens spells. -/
def ofTokens (row : Token.Row) : Attempt Node :=
  (document (4 * row.tokens.length + 4) { tokens := row.tokens, refusal := row.refusal }).map (·.1)

end Node
end TreeTemplate.Document.Yaml
