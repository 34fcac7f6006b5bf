import CalendarCode.Calendar.Date

/-!
This module contains moments: a date together with a time of the day. A second may be a leap second,
which lasts twice as long; one that is given by its numbers is the last one of its minute.
-/

namespace CalendarCode

/-- A time of the day. Nanoseconds from `10 ^ 9` on belong to a leap second. -/
structure Clock where
  hour : Nat
  minute : Nat
  second : Nat
  nano : Nat
  hour_lt : hour < 24
  minute_lt : minute < 60
  second_lt : second < 60
  nano_lt : nano < 2000000000
  deriving DecidableEq

namespace Clock

def ofParts? (hour minute second nano : Nat) : Option Clock :=
  if h : (hour < 24 ∧ minute < 60 ∧ second < 60) ∧
      (nano < 1000000000 ∨ second = 59 ∧ nano < 2000000000) then
    some ⟨hour, minute, second, nano, h.1.1, h.1.2.1, h.1.2.2, by omega⟩
  else none

def midnight : Clock :=
  ⟨0, 0, 0, 0, by decide, by decide, by decide, by decide⟩

def minuteOfDay (t : Clock) : Nat :=
  t.hour * 60 + t.minute

def secondOfDay (t : Clock) : Nat :=
  t.minuteOfDay * 60 + t.second

end Clock

structure Moment where
  date : Date
  clock : Clock
  deriving DecidableEq

namespace Moment

def ofParts? (year : Int) (month day hour minute second nano : Nat) : Option Moment := do
  let date ← Date.ofParts? year month day
  let clock ← Clock.ofParts? hour minute second nano
  return ⟨date, clock⟩

def ofDate (date : Date) : Moment :=
  ⟨date, .midnight⟩

def weekday (m : Moment) : Weekday :=
  m.date.weekday

def isAfter (m : Moment) (d : Date) : Bool :=
  d.dayNumber < m.date.dayNumber
    || (d.dayNumber == m.date.dayNumber && (0 < m.clock.secondOfDay || 0 < m.clock.nano))

/--
The nanoseconds that have passed since the midnight at which a day begins. A leap second counts from
the second that it belongs to, so its second half runs past the next midnight.
-/
def elapsedSince (m : Moment) (d : Date) : Int :=
  (m.date.dayNumber - d.dayNumber) * 86400000000000
    + (m.clock.secondOfDay : Int) * 1000000000 + m.clock.nano

end Moment

end CalendarCode
