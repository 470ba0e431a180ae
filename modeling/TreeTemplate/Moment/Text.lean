import TreeTemplate.Moment.Basic
import TreeTemplate.Text.DecimalDigit

/-! # Moments as text

The year comes first and the smallest part last, each with its full number of digits; parts
of a second are written only if there are any.  `shown` is the unambiguous form of messages,
in which further parts of a time that are zero are left out.
-/
namespace TreeTemplate

/-- A number with zeros in front, up to a width. -/
def paddedDigits (width n : Nat) : List Char :=
  let ds := Nat.toDigits 10 n
  List.replicate (width - ds.length) '0' ++ ds

/-- A day as text. -/
def Date.text (d : Date) : List Char :=
  paddedDigits 4 d.year ++ '-' :: paddedDigits 2 d.month ++ '-' :: paddedDigits 2 d.day

/-- A time as text. -/
def Clock.text (t : Clock) : List Char :=
  paddedDigits 2 t.hour ++ ':' :: paddedDigits 2 t.minute ++ ':' :: paddedDigits 2 t.second ++
    if t.micro = 0 then [] else '.' :: paddedDigits 6 t.micro

/-- An offset as text. -/
def Offset.text (o : Offset) : List Char :=
  (if o.minutes < 0 then '-' else '+') :: paddedDigits 2 (o.minutes.natAbs / 60) ++
    ':' :: paddedDigits 2 (o.minutes.natAbs % 60)

/-- A moment as text, with a character between its day and its time. -/
def Moment.chars (gap : Char) : Moment → List Char
  | .date d => d.text
  | .time t => t.text
  | .dateTime d t offset => d.text ++ gap :: t.text ++ (offset.map Offset.text).getD []

/-- A moment as text. -/
def Moment.text (m : Moment) : String := String.ofList (m.chars ' ')

/-- Numbers with commas between them. -/
def numberRow (ns : List Nat) : String := ", ".intercalate (ns.map toString)

/-- The parts of a time that are shown: an hour and a minute, and more if need be. -/
def Clock.shownParts (t : Clock) : List Nat :=
  if t.micro ≠ 0 then [t.hour, t.minute, t.second, t.micro]
  else if t.second ≠ 0 then [t.hour, t.minute, t.second]
  else [t.hour, t.minute]

/-- A number of minutes as shown: whole days and the seconds of a further one. -/
def shownDuration (minutes : Int) : String :=
  let days := minutes / 1440
  let seconds := minutes % 1440 * 60
  let parts :=
    (if days = 0 then [] else ["days=" ++ toString days]) ++
      if seconds = 0 then [] else ["seconds=" ++ toString seconds]
  "datetime.timedelta(" ++ (if parts.isEmpty then "0" else ", ".intercalate parts) ++ ")"

/-- The clock of a place as shown. -/
def Offset.shown (o : Offset) : String :=
  if o.minutes = 0 then "datetime.timezone.utc"
  else "datetime.timezone(" ++ shownDuration o.minutes ++ ")"

/-- The unambiguous form of a moment. -/
def Moment.shown : Moment → String
  | .date d => "datetime.date(" ++ numberRow [d.year, d.month, d.day] ++ ")"
  | .time t => "datetime.time(" ++ numberRow t.shownParts ++ ")"
  | .dateTime d t offset =>
    "datetime.datetime(" ++ numberRow ([d.year, d.month, d.day] ++ t.shownParts) ++
      (offset.map fun o => ", tzinfo=" ++ o.shown).getD "" ++ ")"

/-- The name of the type of a moment. -/
def Moment.typeName : Moment → String
  | .date _ => "date"
  | .time _ => "time"
  | .dateTime _ _ _ => "datetime"

/-- The words of a fault. -/
def MomentFault.message : MomentFault → String
  | .year n => "year " ++ toString n ++ " is out of range"
  | .month => "month must be in 1..12"
  | .day => "day is out of range for month"
  | .hour => "hour must be in 0..23"
  | .minute => "minute must be in 0..59"
  | .second => "second must be in 0..59"
  | .offset minutes =>
    "offset must be a timedelta strictly between -timedelta(hours=24) and " ++
      "timedelta(hours=24), not " ++ shownDuration minutes ++ "."

/-- The microseconds of the digits after a point; digits after the sixth are left out. -/
def Clock.microsOf (digits : List Char) : Nat :=
  let six := digits.take 6
  Text.natOfDigits (six ++ List.replicate (6 - six.length) '0')

/-- The number that a moment has under a name. -/
def Moment.part? (m : Moment) (name : String) : Option Nat :=
  let ofDate (d : Date) : Option Nat :=
    match name with
    | "year" => some d.year
    | "month" => some d.month
    | "day" => some d.day
    | _ => none
  let ofClock (t : Clock) : Option Nat :=
    match name with
    | "hour" => some t.hour
    | "minute" => some t.minute
    | "second" => some t.second
    | "microsecond" => some t.micro
    | _ => none
  match m with
  | .date d => ofDate d
  | .time t => ofClock t
  | .dateTime d t _ => (ofDate d).or (ofClock t)

example : (Date.make 5 1 9).toOption.map Date.text = some "0005-01-09".toList := by
  decide +kernel

end TreeTemplate
