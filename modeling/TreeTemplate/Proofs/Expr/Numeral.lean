import Mathlib.Data.List.TakeDrop
import TreeTemplate.Proofs.Expr.Grammar

/-! # Spelled numbers

What the scanner and the value function make of a spelled number.  The scanner takes the
longest number that a text begins with (`numberText_integer`, `numberText_number`), and
whatever it takes is a number of the grammar (`numeral_of_numberText`), with the value
that the grammar gives it (`numberValue_of_number`).
-/
namespace TreeTemplate.Expr.Grammar

/-! ## Where a run of characters ends -/

/-- A text that goes on with no character of a kind, or not at all. -/
def Ends (p : Char → Bool) (rest : List Char) : Prop := ∀ c ∈ rest.head?, p c = false

@[simp] theorem ends_nil (p : Char → Bool) : Ends p [] := by simp [Ends]

@[simp] theorem ends_cons {p : Char → Bool} {c : Char} {rest : List Char} :
    Ends p (c :: rest) ↔ p c = false := by simp [Ends]

theorem eq_false_of_any {p : Char → Bool} {cs : List Char} (h : cs.any p = false) {c : Char}
    (hc : c ∈ cs) : p c = false := by
  simpa using List.any_eq_false.mp h c hc

theorem Ends.mono {p q : Char → Bool} {rest : List Char} (hpq : ∀ c, q c = true → p c = true)
    (h : Ends p rest) : Ends q rest := by
  intro c hc
  have hp := h c hc
  cases hq : q c with
  | false => rfl
  | true => exact absurd (hpq c hq) (by simp [hp])

/-- A run of characters is taken as a whole. -/
theorem takeWhile_append {p : Char → Bool} {cs rest : List Char}
    (hcs : ∀ c ∈ cs, p c = true) (hr : Ends p rest) : (cs ++ rest).takeWhile p = cs := by
  have hstop : rest.takeWhile p = [] := by
    cases rest with
    | nil => rfl
    | cons c rest => simp [ends_cons.mp hr]
  rw [List.takeWhile_append_of_pos hcs, hstop, List.append_nil]

/-- Every text is a run of characters of a kind and a text that begins with none. -/
theorem exists_run (p : Char → Bool) (cs : List Char) :
    ∃ run rest, cs = run ++ rest ∧ (∀ c ∈ run, p c = true) ∧ Ends p rest := by
  induction cs with
  | nil => exact ⟨[], [], rfl, by simp, ends_nil p⟩
  | cons c cs ih =>
    cases hc : p c with
    | false => exact ⟨[], c :: cs, rfl, by simp, ends_cons.mpr hc⟩
    | true =>
      obtain ⟨run, rest, rfl, hrun, hrest⟩ := ih
      exact ⟨c :: run, rest, rfl, by simpa [hc] using hrun, hrest⟩

/-! ## What the scanner takes -/

/-- The characters at which the spelling of a number may go on. -/
def continuesNumber (c : Char) : Bool := Text.isAsciiDigit c || c == '.'

theorem fraction_point {fs rest : List Char} (hf : Digits fs)
    (hr : Ends Text.isAsciiDigit rest) : Token.fraction ('.' :: (fs ++ rest)) = '.' :: fs := by
  obtain ⟨hne, hall⟩ := hf
  cases fs with
  | nil => exact absurd rfl hne
  | cons d ds =>
    have hd : Text.isAsciiDigit d = true := hall d (by simp)
    have hds : ∀ c ∈ ds, Text.isAsciiDigit c = true := fun c hc => hall c (by simp [hc])
    simp [Token.fraction, hd, takeWhile_append hds hr]

theorem fraction_of_ends {rest : List Char} (h : Ends continuesNumber rest) :
    Token.fraction rest = [] := by
  cases rest with
  | nil => rfl
  | cons c rest =>
    have hc : c ≠ '.' := by
      rintro rfl
      simp [continuesNumber] at h
    simp [Token.fraction, hc]

/-- A fraction is either missing or a point and digits. -/
theorem fraction_cases (rest : List Char) :
    Token.fraction rest = [] ∨
      ∃ fs tail, rest = '.' :: (fs ++ tail) ∧ Digits fs ∧ Token.fraction rest = '.' :: fs := by
  unfold Token.fraction
  split
  · rename_i d cs
    cases hd : Text.isAsciiDigit d with
    | false => exact .inl (by simp)
    | true =>
      obtain ⟨run, tail, rfl, hrun, htail⟩ := exists_run Text.isAsciiDigit cs
      refine .inr ⟨d :: run, tail, rfl, ⟨by simp, by simpa [hd] using hrun⟩, ?_⟩
      simp [takeWhile_append hrun htail]
  · exact .inl rfl

theorem unsigned_append {index : Bool} {ds rest : List Char} (hd : Digits ds)
    (hr : Ends Text.isAsciiDigit rest) :
    Token.unsigned index (ds ++ rest) = if index then ds else ds ++ Token.fraction rest := by
  cases index <;> simp [Token.unsigned, takeWhile_append hd.2 hr, hd.1]

theorem unsigned_of_ends {index : Bool} {cs : List Char} (h : Ends Text.isAsciiDigit cs) :
    Token.unsigned index cs = [] := by
  have hnil : ∀ c ∈ ([] : List Char), Text.isAsciiDigit c = true := by simp
  have h := takeWhile_append hnil h
  rw [List.nil_append] at h
  simp [Token.unsigned, h]

theorem isAsciiDigit_ne_sign {c : Char} (h : Text.isAsciiDigit c = true) :
    ¬(c = '+' ∨ c = '-') := by
  rintro (rfl | rfl) <;> simp [Text.isAsciiDigit] at h

/-- A sign is part of the number after it. -/
theorem numberText_append {index negative : Bool} {sign ds rest : List Char}
    (hs : Sign sign negative) (hd : Digits ds) (hr : Ends Text.isAsciiDigit rest) :
    Token.numberText index (sign ++ (ds ++ rest)) =
      sign ++ Token.unsigned index (ds ++ rest) := by
  have hne : Token.unsigned index (ds ++ rest) ≠ [] := by
    rw [unsigned_append hd hr]
    cases index <;> simp [hd.1]
  cases hs with
  | plus | minus =>
    simp only [List.singleton_append, Token.numberText]
    cases h : Token.unsigned index (ds ++ rest) with
    | nil => exact absurd h hne
    | cons d tail => simp
  | none =>
    obtain ⟨hnil, hall⟩ := hd
    cases ds with
    | nil => exact absurd rfl hnil
    | cons d ds => simp [Token.numberText, isAsciiDigit_ne_sign (hall d (by simp))]

theorem numberText_integer {cs rest : List Char} {v : Value} (h : Integer cs v)
    (hr : Ends Text.isAsciiDigit rest) : Token.numberText true (cs ++ rest) = cs := by
  cases h with
  | mk hs hd => rw [List.append_assoc, numberText_append hs hd hr, unsigned_append hd hr]; rfl

theorem numberText_number {cs rest : List Char} {v : Value} (h : Number cs v)
    (hr : Ends continuesNumber rest) : Token.numberText false (cs ++ rest) = cs := by
  have hdigit : Ends Text.isAsciiDigit rest := hr.mono fun c hc => by simp [continuesNumber, hc]
  cases h with
  | whole h =>
    cases h with
    | mk hs hd =>
      rw [List.append_assoc, numberText_append hs hd hdigit, unsigned_append hd hdigit,
        fraction_of_ends hr]
      simp
  | decimal hs hd hf =>
    have hpoint (tail : List Char) : Ends Text.isAsciiDigit ('.' :: tail) :=
      ends_cons.mpr (by decide)
    rw [List.append_assoc, List.append_assoc, List.cons_append,
      numberText_append hs hd (hpoint _), unsigned_append hd (hpoint _)]
    simp [fraction_point hf hdigit]

/-- The spelling of a number at a place: after a point it has no fraction. -/
def Numeral (index : Bool) (cs : List Char) : Prop :=
  ∃ v, Number cs v ∧ (index = true → Integer cs v)

theorem numeral_of_unsigned {index negative : Bool} {sign cs : List Char}
    (hs : Sign sign negative) (hne : Token.unsigned index cs ≠ []) :
    ∃ rest, cs = Token.unsigned index cs ++ rest ∧
      Numeral index (sign ++ Token.unsigned index cs) := by
  obtain ⟨ds, rest, rfl, hds, hr⟩ := exists_run Text.isAsciiDigit cs
  by_cases hnil : ds = []
  · subst hnil
    exact absurd (unsigned_of_ends (by simpa using hr)) hne
  have hd : Digits ds := ⟨hnil, hds⟩
  rw [unsigned_append hd hr]
  cases index with
  | true => exact ⟨rest, rfl, _, .whole (.mk hs hd), fun _ => .mk hs hd⟩
  | false =>
    rcases fraction_cases rest with h | ⟨fs, tail, rfl, hf, h⟩
    · rw [h]
      exact ⟨rest, by simp, _, .whole (.mk hs (by simpa using hd)), by simp⟩
    · rw [h]
      exact ⟨tail, by simp, _, .decimal hs hd hf, by simp⟩

/-- What the scanner takes for a number is one. -/
theorem numeral_of_numberText {index : Bool} {cs : List Char}
    (hne : Token.numberText index cs ≠ []) :
    ∃ rest, cs = Token.numberText index cs ++ rest ∧ Numeral index (Token.numberText index cs) := by
  cases cs with
  | nil => exact absurd rfl hne
  | cons c cs =>
    by_cases hc : c = '+' ∨ c = '-'
    · have hu : Token.unsigned index cs ≠ [] := by
        intro h
        simp [Token.numberText, hc, h] at hne
      have htext : Token.numberText index (c :: cs) = c :: Token.unsigned index cs := by
        cases h : Token.unsigned index cs with
        | nil => exact absurd h hu
        | cons d tail => simp [Token.numberText, hc, h]
      have hs : ∃ negative, Sign [c] negative := by
        rcases hc with rfl | rfl
        · exact ⟨false, .plus⟩
        · exact ⟨true, .minus⟩
      obtain ⟨negative, hs⟩ := hs
      obtain ⟨rest, hrest, hnum⟩ := numeral_of_unsigned hs hu
      rw [htext]
      exact ⟨rest, congrArg (c :: ·) hrest, hnum⟩
    · have htext : Token.numberText index (c :: cs) = Token.unsigned index (c :: cs) := by
        simp [Token.numberText, hc]
      rw [htext] at hne ⊢
      exact numeral_of_unsigned .none hne

/-! ## The value of a number -/

/-- The sign of a number is told apart from its digits. -/
theorem splitSign_append {sign ds rest : List Char} {negative : Bool}
    (hs : Sign sign negative) (hd : Digits ds) :
    Binary64.splitSign (sign ++ (ds ++ rest)) = (negative, ds ++ rest) := by
  cases hs with
  | plus | minus => rfl
  | none =>
    obtain ⟨hne, hall⟩ := hd
    cases ds with
    | nil => exact absurd rfl hne
    | cons d ds =>
      have hsign := isAsciiDigit_ne_sign (hall d (by simp))
      rw [not_or] at hsign
      simp [Binary64.splitSign, hsign.1, hsign.2]

theorem splitDigits_append {ds rest : List Char} (hd : Digits ds)
    (hr : Ends Text.isAsciiDigit rest) : Binary64.splitDigits (ds ++ rest) = (ds, rest) := by
  have htake := takeWhile_append hd.2 hr
  have hsplit : ds ++ (ds ++ rest).dropWhile Text.isAsciiDigit = ds ++ rest := by
    conv_lhs => enter [1]; rw [← htake]
    exact List.takeWhile_append_dropWhile
  rw [Binary64.splitDigits, List.span_eq_takeWhile_dropWhile, htake,
    List.append_cancel_left hsplit]

theorem numberValue_of_integer {cs : List Char} {v : Value} (h : Integer cs v) :
    Token.numberValue cs = v := by
  cases h with
  | @mk sign ds negative hs hd =>
    have hsign : Binary64.splitSign (sign ++ (ds ++ [])) = (negative, ds ++ []) :=
      splitSign_append hs hd
    have hdigits : Binary64.splitDigits (ds ++ []) = (ds, []) :=
      splitDigits_append hd (ends_nil _)
    rw [List.append_nil] at hsign hdigits
    simp [Token.numberValue, hsign, hdigits]

/-- A number has the value that the grammar gives it. -/
theorem numberValue_of_number {cs : List Char} {v : Value} (h : Number cs v) :
    Token.numberValue cs = v := by
  cases h with
  | whole h => exact numberValue_of_integer h
  | @decimal sign ds fs _ hs hd hf =>
    have hpoint : Ends Text.isAsciiDigit ('.' :: fs) := ends_cons.mpr (by decide)
    simp [Token.numberValue, splitSign_append hs hd, splitDigits_append hd hpoint]

end TreeTemplate.Expr.Grammar
