import CalendarCode.Calendar.Weekday

/-!
This module contains sets of weekdays, one bit for each day, and how such a set is read from a list
of names.
-/

namespace CalendarCode

/-- A set of weekdays: bit `i` stands for the day with the index `i`. -/
structure DaySet where
  mask : BitVec 7
  deriving DecidableEq

inductive DayFault where
  /-- No name was given. -/
  | noNames
  /-- A name that spells no day. -/
  | unknown (name : String)
  deriving DecidableEq

namespace DaySet

def empty : DaySet :=
  ⟨0#7⟩

def insert (s : DaySet) (d : Weekday) : DaySet :=
  ⟨s.mask ||| 1#7 <<< d.index⟩

def contains (s : DaySet) (d : Weekday) : Bool :=
  s.mask.getLsbD d.index

def members (s : DaySet) : List Weekday :=
  Weekday.all.filter s.contains

def indices (s : DaySet) : List Nat :=
  (List.range 7).filter s.mask.getLsbD

def size (s : DaySet) : Nat :=
  (List.range 7).countP s.mask.getLsbD

def isEmpty (s : DaySet) : Bool :=
  s.mask == 0#7

def text (s : DaySet) : String :=
  " ".intercalate (s.members.map Weekday.abbreviation)

/-- The set of all days that are named. Every name has to spell a day, and one name is needed. -/
def ofNames (names : List String) : Except DayFault DaySet :=
  if names.isEmpty then .error .noNames else names.foldlM insertName empty
where
  insertName (s : DaySet) (name : String) : Except DayFault DaySet :=
    match Weekday.ofName? name with
    | some d => .ok (s.insert d)
    | none => .error (.unknown name)

@[simp]
theorem contains_empty (d : Weekday) : empty.contains d = false := by
  cases d <;> rfl

@[simp]
theorem contains_insert (s : DaySet) (d e : Weekday) :
    (s.insert d).contains e = (s.contains e || decide (d = e)) := by
  cases d <;> cases e <;> simp [insert, contains, Weekday.index]

theorem mem_members {s : DaySet} {d : Weekday} : d ∈ s.members ↔ s.contains d = true := by
  simp [members, Weekday.mem_all]

end DaySet

end CalendarCode
