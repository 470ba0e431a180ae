import TreeTemplate.Document.Yaml.NodeValue

/-! # Reading YAML

A reader of one document: mappings and sequences in blocks and in brackets, and scalars
without quotes, in quotes and in lines of their own.  Nodes may have names and tags.  Tags
of unknown kinds and nodes that contain themselves are refused.
-/
namespace TreeTemplate.Document.Yaml

/-- Whether a character may stand in a document. -/
def isAllowed (c : Char) : Bool :=
  let n := c.toNat
  c == '\t' || c == '\n' || c == '\r' || (0x20 ≤ n && n ≤ 0x7E) || n == 0x85 ||
    (0xA0 ≤ n && n ≤ 0xFFFD) || 0x10000 ≤ n

/-- Reads a document. -/
def read (text : List Char) : Attempt Value := do
  if text.all isAllowed then
    let text := if text.head? = some '\ufeff' then text.drop 1 else text
    let node ← Node.ofTokens (Token.ofText text)
    node.treeValue
  else refuse

end TreeTemplate.Document.Yaml
