import TreeTemplate.Document.Yaml.Refusal
import TreeTemplate.Moment.Text

/-! # Times of YAML

A day, or a day with a time after a `T` or blanks, and the offset of the time after further
blanks.  A text that has the form of a time may still stand for none, such as the thirtieth
of February.
-/
namespace TreeTemplate.Document.Yaml

/-- The offset after a time: of universal time, or a sign, hours and minutes. -/
inductive Zone where
  | universal
  | ahead (negative : Bool) (hours minutes : Nat)

/-- A time of a day as it is written. -/
structure WrittenClock where
  hour : Nat
  minute : Nat
  second : Nat
  fraction : List Char
  zone : Option Zone

/-- A day, and perhaps a time of it, as they are written. -/
structure WrittenTime where
  year : Nat
  month : Nat
  day : Nat
  /-- Whether month and day are written with two digits. -/
  isPadded : Bool
  clock : Option WrittenClock

/-- Whether a character is a blank before a part of a time. -/
def isTimeBlank (c : Char) : Bool := c = ' ' ∨ c = '\t'

/-- The offset that is a whole text. -/
def zone? (cs : List Char) : Option (Option Zone) :=
  match cs.dropWhile isTimeBlank with
  | [] => if cs.isEmpty then some none else none
  | ['Z'] => some (some .universal)
  | c :: rest => do
    if c = '+' ∨ c = '-' then
      let (hours, rest) ← Text.number? [1, 2] rest
      match rest with
      | [] => pure (some (.ahead (c = '-') hours 0))
      | rest =>
        let (minutes, rest) ← Text.number? [2] (← Text.afterChar? ':' rest)
        if rest.isEmpty then pure (some (.ahead (c = '-') hours minutes)) else none
    else none

/-- The time of a day that is a whole text. -/
def clock? (cs : List Char) : Option WrittenClock := do
  let (hour, rest) ← Text.number? [1, 2] cs
  let (minute, rest) ← Text.number? [2] (← Text.afterChar? ':' rest)
  let (second, rest) ← Text.number? [2] (← Text.afterChar? ':' rest)
  let (fraction, rest) :=
    match Text.afterChar? '.' rest with
    | some rest => rest.span Text.isAsciiDigit
    | none => ([], rest)
  pure ⟨hour, minute, second, fraction, ← zone? rest⟩

/-- The time that is a whole text. -/
def time? (cs : List Char) : Option WrittenTime := do
  let (year, rest) ← Text.number? [4] cs
  let afterYear ← Text.afterChar? '-' rest
  let (month, rest) ← Text.number? [1, 2] afterYear
  let afterMonth ← Text.afterChar? '-' rest
  let (day, rest) ← Text.number? [1, 2] afterMonth
  let isPadded := (afterYear.length = afterMonth.length + 3 && afterMonth.length = rest.length + 2)
  match rest with
  | [] => pure ⟨year, month, day, isPadded, none⟩
  | c :: rest =>
    let clock ←
      if c = 't' ∨ c = 'T' then clock? rest
      else if isTimeBlank c then clock? (rest.dropWhile isTimeBlank)
      else none
    pure ⟨year, month, day, isPadded, some clock⟩

/-- Whether an unquoted text is a time. -/
def isTime (cs : List Char) : Bool :=
  match time? cs with
  | some t => t.isPadded || t.clock.isSome
  | none => false

/-- How far a zone is ahead. -/
def Zone.offset : Zone → Except MomentFault Offset
  | .universal => Offset.make 0
  | .ahead negative hours minutes =>
    Offset.make (if negative then -(60 * hours + minutes : Nat) else (60 * hours + minutes : Nat))

/-- The moment that a written time stands for. -/
def WrittenTime.moment (t : WrittenTime) : Except MomentFault Moment := do
  match t.clock with
  | none => pure (.date (← Date.make t.year t.month t.day))
  | some c =>
    let offset ← c.zone.mapM Zone.offset
    let date ← Date.make t.year t.month t.day
    let clock ← Clock.make c.hour c.minute c.second (Clock.microsOf c.fraction)
    pure (.dateTime date clock offset)

example : isTime "2001-12-14t21:59:43.10-05:00".toList = true ∧
    isTime "2001-1-1".toList = false := by decide +kernel

end TreeTemplate.Document.Yaml
