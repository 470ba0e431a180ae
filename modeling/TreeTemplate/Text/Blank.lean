/-! # Blank characters

`isWhiteSpace` is the Unicode property White_Space, the set skipped around an
integer text.  `isBlank` adds the four information separators U+001C to U+001F
and is the set skipped after a directive marker and around an inline comment.
-/
namespace TreeTemplate.Text

/-- The Unicode property White_Space. -/
def isWhiteSpace (c : Char) : Bool :=
  let n := c.toNat
  (9 ≤ n && n ≤ 13) || n == 0x20 || n == 0x85 || n == 0xA0 || n == 0x1680 ||
    (0x2000 ≤ n && n ≤ 0x200A) || n == 0x2028 || n == 0x2029 || n == 0x202F ||
    n == 0x205F || n == 0x3000

/-- White space, and the four separators of files, groups, records and units. -/
def isBlank (c : Char) : Bool :=
  isWhiteSpace c || (0x1C ≤ c.toNat && c.toNat ≤ 0x1F)

/-- White space is blank. -/
theorem isBlank_of_isWhiteSpace {c : Char} (h : isWhiteSpace c = true) :
    isBlank c = true := by
  simp [isBlank, h]

example : isBlank '\u2003' = true ∧ isBlank '\u001d' = true ∧ isBlank '\u200b' = false := by
  decide

end TreeTemplate.Text
