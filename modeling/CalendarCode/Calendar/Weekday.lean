import CalendarCode.Text.Blank

/-!
This module contains the days of the week, counted from Monday, and their English names.
-/

namespace CalendarCode

inductive Weekday where
  | monday
  | tuesday
  | wednesday
  | thursday
  | friday
  | saturday
  | sunday
  deriving DecidableEq

namespace Weekday

def all : List Weekday :=
  [monday, tuesday, wednesday, thursday, friday, saturday, sunday]

def index : Weekday → Nat
  | monday => 0
  | tuesday => 1
  | wednesday => 2
  | thursday => 3
  | friday => 4
  | saturday => 5
  | sunday => 6

/-- The day at a place of the week; days after Sunday start over with Monday. -/
def ofIndex (i : Nat) : Weekday :=
  match i % 7 with
  | 0 => monday
  | 1 => tuesday
  | 2 => wednesday
  | 3 => thursday
  | 4 => friday
  | 5 => saturday
  | _ => sunday

def abbreviation : Weekday → String
  | monday => "Mon"
  | tuesday => "Tue"
  | wednesday => "Wed"
  | thursday => "Thu"
  | friday => "Fri"
  | saturday => "Sat"
  | sunday => "Sun"

def spellings : Weekday → List String
  | monday => ["mon", "monday"]
  | tuesday => ["tue", "tuesday"]
  | wednesday => ["wed", "wednesday"]
  | thursday => ["thu", "thursday"]
  | friday => ["fri", "friday"]
  | saturday => ["sat", "saturday"]
  | sunday => ["sun", "sunday"]

/-- A name without the white space around it and with its English letters in lower case. -/
def foldName (name : String) : List Char :=
  (Text.trim name.toList).map Char.toLower

def ofName? (name : String) : Option Weekday :=
  all.find? fun d => d.spellings.any fun s => s.toList == foldName name

theorem index_lt (d : Weekday) : d.index < 7 := by
  cases d <;> decide

@[simp]
theorem ofIndex_index (d : Weekday) : ofIndex d.index = d := by
  cases d <;> rfl

theorem mem_all (d : Weekday) : d ∈ all := by
  cases d <;> decide

example : ofName? " SunDay\t" = some sunday := by decide
example : ofName? "su" = none := by decide

end Weekday

end CalendarCode
