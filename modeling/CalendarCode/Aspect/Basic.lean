import CalendarCode.Calendar.DaySet
import CalendarCode.Calendar.Holiday
import CalendarCode.Json.Basic

/-!
This module contains the aspects of a moment that can be encoded, and the numbers and names that
belong to each of them.
-/

namespace CalendarCode

inductive Aspect where
  | season
  | dayOfWeek
  | weekend
  | customDays
  | holiday
  | timeOfDay
  deriving DecidableEq

namespace Aspect

/-- All aspects, in the order in which their codes stand side by side. -/
def all : List Aspect :=
  [season, dayOfWeek, weekend, customDays, holiday, timeOfDay]

def name : Aspect → String
  | season => "season"
  | dayOfWeek => "day of week"
  | weekend => "weekend"
  | customDays => "customdays"
  | holiday => "holiday"
  | timeOfDay => "time of day"

def key : Aspect → String
  | season => "season"
  | dayOfWeek => "dayOfWeek"
  | weekend => "weekend"
  | customDays => "customDays"
  | holiday => "holiday"
  | timeOfDay => "timeOfDay"

def tag : Aspect → String
  | season => "Season"
  | dayOfWeek => "DayOfWeek"
  | weekend => "Weekend"
  | customDays => "CustomDays"
  | holiday => "Holiday"
  | timeOfDay => "TimeOfDay"

def ofTag? (tag : String) : Option Aspect :=
  all.find? fun a => a.tag == tag

def periodic : Aspect → Bool
  | season | dayOfWeek | timeOfDay => true
  | _ => false

section

variable {α : Type} [Arith α]

def low : Aspect → α :=
  fun _ => Arith.ofNat 0

/-- The highest value. Every year has room for a leap day. -/
def high : Aspect → α
  | season => Arith.ofNat 366
  | dayOfWeek => Arith.ofNat 7
  | weekend | customDays | holiday => Arith.ofNat 1
  | timeOfDay => Arith.ofNat 24

/-- The radius where none is given: a quarter of a year, four hours, or one unit. -/
def defaultRadius : Aspect → α
  | season => Arith.ratio 183 2
  | timeOfDay => Arith.ofNat 4
  | _ => Arith.ofNat 1

def flag (b : Bool) : α :=
  if b then Arith.ofNat 1 else Arith.ofNat 0

def value (days : DaySet) (m : Moment) : Aspect → α
  | season => Arith.ofNat m.date.dayOfYear
  | dayOfWeek => Arith.ofNat m.weekday.index
  | weekend => flag (m.isWeekend α)
  | customDays => flag (days.contains m.weekday)
  | holiday => Holiday.christmas.proximity m
  | timeOfDay => m.timeOfDay

end

def toJson {α : Type} (a : Aspect) : Json α :=
  .string a.tag

/-- The aspect with a tag, or with the tag as the only key of an object that holds null. -/
def ofJson? {α : Type} : Json α → Option Aspect
  | .string tag => ofTag? tag
  | .object [(tag, .null)] => ofTag? tag
  | _ => none

theorem mem_all (a : Aspect) : a ∈ all := by
  cases a <;> decide

@[simp]
theorem ofTag?_tag (a : Aspect) : ofTag? a.tag = some a := by
  cases a <;> decide

end Aspect

end CalendarCode
