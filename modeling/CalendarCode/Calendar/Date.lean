import CalendarCode.Calendar.Weekday

/-!
This module contains the dates of the Gregorian calendar, extended to all years that a date can
have. There is a year zero.
-/

namespace CalendarCode

def isLeapYear (year : Int) : Bool :=
  year % 4 == 0 && (year % 100 != 0 || year % 400 == 0)

/-- The number of days of a month; there are none outside the twelve months. -/
def daysInMonth (year : Int) (month : Nat) : Nat :=
  match month with
  | 1 | 3 | 5 | 7 | 8 | 10 | 12 => 31
  | 4 | 6 | 9 | 11 => 30
  | 2 => if isLeapYear year then 29 else 28
  | _ => 0

/-- A date that exists, in one of the years from -262143 to 262142. -/
structure Date where
  year : Int
  month : Nat
  day : Nat
  first_year : -262143 ≤ year
  last_year : year ≤ 262142
  first_day : 1 ≤ day
  last_day : day ≤ daysInMonth year month
  deriving DecidableEq

namespace Date

def ofParts? (year : Int) (month day : Nat) : Option Date :=
  if h : (-262143 ≤ year ∧ year ≤ 262142) ∧ 1 ≤ day ∧ day ≤ daysInMonth year month then
    some ⟨year, month, day, h.1.1, h.1.2, h.2.1, h.2.2⟩
  else none

def daysBeforeMonth (year : Int) (month : Nat) : Nat :=
  (List.range (month - 1)).foldl (fun days i => days + daysInMonth year (i + 1)) 0

/-- The number of days from the first of January of year one to that of another year. -/
def daysBeforeYear (year : Int) : Int :=
  let y := year - 1
  365 * y + y / 4 - y / 100 + y / 400

/-- The number of days since the first of January of the same year. -/
def dayOfYear (d : Date) : Nat :=
  daysBeforeMonth d.year d.month + (d.day - 1)

def dayNumber (d : Date) : Int :=
  daysBeforeYear d.year + d.dayOfYear

def weekday (d : Date) : Weekday :=
  .ofIndex (d.dayNumber % 7).toNat

example : (ofParts? 2010 11 4).map weekday = some .thursday := by decide
example : (ofParts? 2011 2 29) = none := by decide
example : (ofParts? 2012 12 31).map dayOfYear = some 365 := by decide

end Date

end CalendarCode
