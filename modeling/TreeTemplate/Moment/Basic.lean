/-! # Moments

Days of the calendar, times of a day, and a day with a time, which may be that of a place
with a known distance from universal time.  Each part is within its bounds by its type, and
moments are compared by their `point`.  Main statements: the days before a year add up, and a
day is made of its parts.
-/
namespace TreeTemplate

namespace Calendar

/-- Whether a year has a day more than others. -/
def isLeap (year : Nat) : Bool := year % 4 = 0 && (year % 100 ≠ 0 || year % 400 = 0)

/-- The number of days of a month. -/
def daysInMonth (year month : Nat) : Nat :=
  if month = 2 then if isLeap year then 29 else 28
  else if month = 4 ∨ month = 6 ∨ month = 9 ∨ month = 11 then 30
  else 31

/-- The number of days before a year, from the first of January of the year 1 on. -/
def daysBeforeYear (year : Nat) : Nat :=
  let y := year - 1
  365 * y + y / 4 - y / 100 + y / 400

/-- The number of days of a year before a month. -/
def daysBeforeMonth (year month : Nat) : Nat :=
  ((List.range month).drop 1).foldl (fun days m => days + daysInMonth year m) 0

/-- A year goes on until the next one begins. -/
theorem daysBeforeYear_succ {year : Nat} (h : 0 < year) :
    daysBeforeYear (year + 1) = daysBeforeYear year + if isLeap year then 366 else 365 := by
  obtain ⟨y, rfl⟩ : ∃ y, year = y + 1 := ⟨year - 1, by omega⟩
  have h4 : (y + 1) / 4 = y / 4 + if (y + 1) % 4 = 0 then 1 else 0 := by split <;> omega
  have h100 : (y + 1) / 100 = y / 100 + if (y + 1) % 100 = 0 then 1 else 0 := by
    split <;> omega
  have h400 : (y + 1) / 400 = y / 400 + if (y + 1) % 400 = 0 then 1 else 0 := by
    split <;> omega
  have of100 : (y + 1) % 100 = 0 → (y + 1) % 4 = 0 := by omega
  have of400 : (y + 1) % 400 = 0 → (y + 1) % 100 = 0 := by omega
  have le : y / 100 ≤ y / 4 := by omega
  simp only [daysBeforeYear, isLeap, Nat.add_sub_cancel, h4, h100, h400]
  by_cases p4 : (y + 1) % 4 = 0 <;> by_cases p100 : (y + 1) % 100 = 0 <;>
    by_cases p400 : (y + 1) % 400 = 0 <;> simp_all <;> omega

end Calendar

/-- A day of the calendar. -/
structure Date where
  year : Nat
  month : Nat
  day : Nat
  year_mem : 1 ≤ year ∧ year ≤ 9999
  month_mem : 1 ≤ month ∧ month ≤ 12
  day_mem : 1 ≤ day ∧ day ≤ Calendar.daysInMonth year month
  deriving DecidableEq, Repr

/-- A time of a day, in microseconds. -/
structure Clock where
  hour : Nat
  minute : Nat
  second : Nat
  micro : Nat
  hour_lt : hour < 24
  minute_lt : minute < 60
  second_lt : second < 60
  micro_lt : micro < 1000000
  deriving DecidableEq, Repr

/-- How far the time of a place is ahead of universal time. -/
structure Offset where
  minutes : Int
  minutes_mem : -1440 < minutes ∧ minutes < 1440
  deriving DecidableEq, Repr

/-- A day, a time, or both. -/
inductive Moment where
  | date (d : Date)
  | time (t : Clock)
  | dateTime (d : Date) (t : Clock) (offset : Option Offset)
  deriving DecidableEq, Repr

/-- Why numbers make no moment. -/
inductive MomentFault where
  | year (year : Nat)
  | month
  | day
  | hour
  | minute
  | second
  | offset (minutes : Int)
  deriving DecidableEq, Repr

/-- The day of a year, a month and a day of the month. -/
def Date.make (year month day : Nat) : Except MomentFault Date :=
  if hy : 1 ≤ year ∧ year ≤ 9999 then
    if hm : 1 ≤ month ∧ month ≤ 12 then
      if hd : 1 ≤ day ∧ day ≤ Calendar.daysInMonth year month then
        .ok ⟨year, month, day, hy, hm, hd⟩
      else .error .day
    else .error .month
  else .error (.year year)

/-- A day is made of its parts. -/
theorem Date.make_parts (d : Date) : Date.make d.year d.month d.day = .ok d := by
  simp [Date.make, d.year_mem, d.month_mem, d.day_mem]

/-- The time of an hour, a minute, a second and further microseconds. -/
def Clock.make (hour minute second micro : Nat) : Except MomentFault Clock :=
  if hh : hour < 24 then
    if hm : minute < 60 then
      if hs : second < 60 then
        .ok ⟨hour, minute, second, micro % 1000000, hh, hm, hs, Nat.mod_lt _ (by decide)⟩
      else .error .second
    else .error .minute
  else .error .hour

/-- The offset of a number of minutes. -/
def Offset.make (minutes : Int) : Except MomentFault Offset :=
  if h : -1440 < minutes ∧ minutes < 1440 then .ok ⟨minutes, h⟩ else .error (.offset minutes)

/-- The number of a day, that of the first of January of the year 1 being 1. -/
def Date.ordinal (d : Date) : Nat :=
  Calendar.daysBeforeYear d.year + Calendar.daysBeforeMonth d.year d.month + d.day

/-- The microseconds of a day up to a time. -/
def Clock.micros (t : Clock) : Nat :=
  ((t.hour * 60 + t.minute) * 60 + t.second) * 1000000 + t.micro

/-- What a moment is compared by. -/
inductive Moment.Point where
  | day (d : Date)
  | clock (t : Clock)
  /-- A time at an unknown place. -/
  | floating (d : Date) (t : Clock)
  /-- Microseconds of universal time. -/
  | instant (micros : Int)
  deriving DecidableEq, Repr

/-- What a moment is compared by: at known places, the instant. -/
def Moment.point : Moment → Moment.Point
  | .date d => .day d
  | .time t => .clock t
  | .dateTime d t none => .floating d t
  | .dateTime d t (some o) =>
    .instant (((d.ordinal : Int) * 1440 - o.minutes) * 60000000 + t.micros)

example : (Date.make 2024 2 29).toOption.map Date.ordinal = some 738945 := by decide +kernel

example : (Date.make 2023 2 29).toOption = none ∧ (Date.make 0 1 1).toOption = none := by
  decide +kernel

end TreeTemplate
