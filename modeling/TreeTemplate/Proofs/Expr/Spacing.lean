import TreeTemplate.Proofs.Expr.ParserGrammar

/-! # White space between tokens

A text that is read as an expression has one row of terminals: the tokens from which the rules
derive the expression, and which the text spells with white space between them (`Terminals`).  The
scanner finds it (`Terminals.scanned`), whatever the white space is, since in a derivable row no
token runs into the next one.  So every text of the same terminals is read as the same expression
(`white_space_between_terminals_is_free`).
-/
namespace TreeTemplate.Expr
open Token (Spaced)

/-- A text spells the tokens that the scanner finds. -/
theorem spaced_of_ofText? {text : String} {ts : List Token}
    (h : Token.ofText? text.toList = some ts) : Spaced ts text.toList :=
  (@Token.spaced_of_ofTextFrom? false _ _ h).1

/-- The terminals of a derivation of an expression, which a text spells in order with any white
space before, between and after them. -/
structure Terminals (text : String) (e : Expr) (ts : List Token) : Prop where
  derives : TokenGrammar.Chain ts e
  spelled : Spaced ts text.toList

namespace Terminals

variable {text : String} {e : Expr} {ts : List Token}

/-- The scanner finds the terminals of a text. -/
theorem scanned (h : Terminals text e ts) : Token.ofText? text.toList = some ts := by
  have hend : NoPointNext [] := by simp [NoPointNext]
  have hrow := h.derives.row hend trivial
  rw [List.append_nil] at hrow
  exact Token.ofTextFrom?_of_spaced hrow h.spelled

/-- A text has no other terminals, and is read as no other expression. -/
theorem unique (h : Terminals text e ts) {e' : Expr} {us : List Token}
    (h' : Terminals text e' us) : e' = e ∧ us = ts := by
  have hparse : parse? text = some e := parse?_iff_spaced.mpr ⟨ts, h.derives, h.spelled⟩
  have hparse' : parse? text = some e' := parse?_iff_spaced.mpr ⟨us, h'.derives, h'.spelled⟩
  have hscan := h.scanned
  rw [h'.scanned] at hscan
  rw [hparse'] at hparse
  exact ⟨Option.some.inj hparse, Option.some.inj hscan⟩

/-- The same terminals with other white space around them. -/
theorem respaced (h : Terminals text e ts) {text' : String} (hs : Spaced ts text'.toList) :
    Terminals text' e ts := ⟨h.derives, hs⟩

end Terminals

/-- **White space between terminals is free.**  A text that is read as an expression is cut in one
way into the terminals of its derivation, the tokens that the scanner finds; and every text that
spells them in the same order, with any white space or none before, between and after them, is cut
into the same terminals and read as the same expression. -/
theorem white_space_between_terminals_is_free {text : String} {e : Expr}
    (h : parse? text = some e) :
    ∃ ts, Terminals text e ts ∧ Token.ofText? text.toList = some ts ∧
      (∀ e' us, Terminals text e' us → e' = e ∧ us = ts) ∧
      ∀ text' : String, Spaced ts text'.toList →
        parse? text' = some e ∧ Token.ofText? text'.toList = some ts := by
  obtain ⟨ts, hc, hs⟩ := parse?_iff_spaced.mp h
  have hts : Terminals text e ts := ⟨hc, hs⟩
  refine ⟨ts, hts, hts.scanned, fun e' us => hts.unique, fun text' hs' => ?_⟩
  have hts' := hts.respaced hs'
  exact ⟨parse?_iff_spaced.mpr ⟨ts, hts'.derives, hts'.spelled⟩, hts'.scanned⟩

/-- Two positions after points come together without becoming a number with a fraction, and a name
moves away from its arguments. -/
theorem white_space_between_terminals_is_free_positions :
    ∃ e, parse? "a .1 . 5?f(-2)" = some e ∧ parse? "a.1.5 ?\tf (\n-2 ) " = some e := by
  have hparse : parse? "a .1 . 5?f(-2)" = some (.chain
      (.dot (.named ['a']) [.literal (.int 1), .literal (.int 5)])
      [(.whenTrue, .call (.named ['f']) [.literal (.int (-2))])]) := by cbv
  obtain ⟨ts, -, hscan, -, hfree⟩ := white_space_between_terminals_is_free hparse
  have htokens : Token.ofText? "a .1 . 5?f(-2)".toList = some
      [.name ['a'], .mark '.', .number ['1'], .mark '.', .number ['5'], .mark '?', .name ['f'],
        .mark '(', .number ['-', '2'], .mark ')'] := by cbv
  rw [htokens] at hscan
  cases hscan
  exact ⟨_, hparse, (hfree "a.1.5 ?\tf (\n-2 ) " (spaced_of_ofText? (by cbv))).1⟩

end TreeTemplate.Expr
