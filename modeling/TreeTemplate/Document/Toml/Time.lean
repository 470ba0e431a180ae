import TreeTemplate.Moment.Text

/-! # Times of TOML

A day, a time of a day, or both with a `T` or a blank between them.  All parts have their full
number of digits, and a day with a time may have an offset.
-/
namespace TreeTemplate.Document.Toml

/-- The offset that a text begins with, and the text after it. -/
def offset? (cs : List Char) : Option (Offset × List Char) :=
  match cs with
  | [] => none
  | sign :: rest => do
    if sign = 'Z' ∨ sign = 'z' then pure (← (Offset.make 0).toOption, rest)
    else if sign = '+' ∨ sign = '-' then
      let (hours, rest) ← Text.number? [2] rest
      let (minutes, rest) ← Text.number? [2] (← Text.afterChar? ':' rest)
      if hours < 24 ∧ minutes < 60 then
        let ahead : Nat := 60 * hours + minutes
        let offset ← (Offset.make (if sign = '-' then -ahead else ahead)).toOption
        pure (offset, rest)
      else none
    else none

/-- The digits after a point, of which there is at least one, and the text after them. -/
def secondParts (cs : List Char) : List Char × List Char :=
  match cs with
  | '.' :: rest =>
    let (digits, rest) := rest.span Text.isAsciiDigit
    if digits.isEmpty then ([], cs) else (digits, rest)
  | _ => ([], cs)

/-- The time of a day that a text begins with, and the text after it. -/
def clock? (cs : List Char) : Option (Clock × List Char) := do
  let (hour, rest) ← Text.number? [2] cs
  let (minute, rest) ← Text.number? [2] (← Text.afterChar? ':' rest)
  let (second, rest) ← Text.number? [2] (← Text.afterChar? ':' rest)
  let (digits, rest) := secondParts rest
  let clock ← (Clock.make hour minute second (Clock.microsOf digits)).toOption
  pure (clock, rest)

/-- The day that a text begins with, and the text after it. -/
def date? (cs : List Char) : Option (Date × List Char) := do
  let (year, rest) ← Text.number? [4] cs
  let (month, rest) ← Text.number? [2] (← Text.afterChar? '-' rest)
  let (day, rest) ← Text.number? [2] (← Text.afterChar? '-' rest)
  let date ← (Date.make year month day).toOption
  pure (date, rest)

/-- The time of a day after a mark or a blank that a text begins with, and the text after it. -/
def clockOfDay? (cs : List Char) : Option (Clock × List Char) :=
  match cs with
  | c :: rest => if c = 'T' ∨ c = 't' ∨ c = ' ' then clock? rest else none
  | [] => none

/-- The moment that a text begins with, and the text after it. -/
def moment? (cs : List Char) : Option (Moment × List Char) :=
  match date? cs with
  | none => (clock? cs).map fun (clock, rest) => (.time clock, rest)
  | some (date, rest) =>
    match clockOfDay? rest with
    | none => some (.date date, rest)
    | some (clock, rest) =>
      match offset? rest with
      | none => some (.dateTime date clock none, rest)
      | some (offset, rest) => some (.dateTime date clock (some offset), rest)

example : (moment? "1979-05-27T07:32:00Z".toList).map (fun m => m.1.text) =
    some "1979-05-27 07:32:00+00:00" := by decide +kernel

end TreeTemplate.Document.Toml
