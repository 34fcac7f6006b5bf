import CalendarCode.Arith.Basic
import CalendarCode.Calendar.Moment

/-!
This module contains the numbers that a moment is encoded by: the time of the day in hours, whether
it is on a weekend, and how close a holiday is. The closeness is one during the holiday, rises over
the day before it and falls over the day after it.
-/

namespace CalendarCode

variable {α : Type} [Arith α]

/-- The hours since midnight; seconds do not count. -/
def Moment.timeOfDay (m : Moment) : α :=
  Arith.ofNat m.clock.hour + Arith.ofNat m.clock.minute / Arith.ofNat 60

variable (α) in
def Moment.isWeekend (m : Moment) : Bool :=
  match m.weekday with
  | .saturday | .sunday => true
  | .friday => decide ((Arith.ofNat 18 : α) < m.timeOfDay)
  | _ => false

structure Holiday where
  month : Nat
  day : Nat
  deriving DecidableEq

namespace Holiday

def christmas : Holiday :=
  ⟨12, 25⟩

def remainingShare (seconds : Int) : α :=
  Arith.ofNat 1 - Arith.ofInt seconds / Arith.ofNat 86400

def proximity (h : Holiday) (m : Moment) : α :=
  match Date.ofParts? m.date.year h.month h.day with
  | none => Arith.ofNat 0
  | some d =>
    if m.isAfter d then
      let seconds := (m.elapsedSince d).tdiv 1000000000
      let days := seconds.tdiv 86400
      if days = 0 then Arith.ofNat 1
      else if days = 1 then remainingShare (seconds - 86400)
      else Arith.ofNat 0
    else
      let seconds := (-m.elapsedSince d).tdiv 1000000000
      if seconds.tdiv 86400 = 0 then remainingShare seconds else Arith.ofNat 0

end Holiday

end CalendarCode
