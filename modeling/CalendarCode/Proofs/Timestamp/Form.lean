import CalendarCode.Proofs.Timestamp.Digits

/-!
This module contains the forms in which a moment is written: a date alone, or a date and a time of
the day, with more or less of the time. A form keeps a moment if nothing of the moment is lost.
-/

namespace CalendarCode

namespace Clock

def isLeap (t : Clock) : Bool :=
  1000000000 ≤ t.nano

/-- The second as it is written: a leap second is the sixtieth. -/
def writtenSecond (t : Clock) : Nat :=
  if t.isLeap then 60 else t.second

def fraction (t : Clock) : Nat :=
  t.nano % 1000000000

/-- Whether the time lies in no leap second but one at the end of its minute. -/
def IsWritable (t : Clock) : Prop :=
  t.isLeap = true → t.second = 59

instance (t : Clock) : Decidable t.IsWritable :=
  inferInstanceAs (Decidable (_ → _))

end Clock

namespace Timestamp

inductive Precision where
  | minute
  | second
  /-- Seconds, and as many digits behind a point. -/
  | fraction (digits : Nat)
  deriving DecidableEq

inductive Separator where
  | space
  | letter
  deriving DecidableEq

inductive Form where
  | date
  | dateTime (separator : Separator) (precision : Precision)
  deriving DecidableEq

namespace Precision

def Keeps (p : Precision) (t : Clock) : Prop :=
  match p with
  | .minute => t.writtenSecond = 0 ∧ t.fraction = 0
  | .second => t.fraction = 0
  | .fraction digits => 1 ≤ digits ∧ digits ≤ 9 ∧ 10 ^ (9 - digits) ∣ t.fraction

instance (p : Precision) (t : Clock) : Decidable (p.Keeps t) :=
  match p with
  | .minute => inferInstanceAs (Decidable (_ ∧ _))
  | .second => inferInstanceAs (Decidable (_ = _))
  | .fraction _ => inferInstanceAs (Decidable (_ ∧ _ ∧ _))

end Precision

def Separator.char : Separator → Char
  | .space => ' '
  | .letter => 'T'

def Form.Keeps (form : Form) (m : Moment) : Prop :=
  match form with
  | .date => m.clock = .midnight
  | .dateTime _ p => m.clock.IsWritable ∧ p.Keeps m.clock

instance (form : Form) (m : Moment) : Decidable (form.Keeps m) :=
  match form with
  | .date => inferInstanceAs (Decidable (_ = _))
  | .dateTime _ p => inferInstanceAs (Decidable (_ ∧ p.Keeps _))

end Timestamp

open Decimal Timestamp

def Date.written (d : Date) : List Char :=
  padded 4 d.year.toNat ++ '-' :: padded 2 d.month ++ '-' :: padded 2 d.day

namespace Clock

def writtenToMinute (t : Clock) : List Char :=
  padded 2 t.hour ++ ':' :: padded 2 t.minute

def writtenToSecond (t : Clock) : List Char :=
  t.writtenToMinute ++ ':' :: padded 2 t.writtenSecond

def written (t : Clock) : Precision → List Char
  | .minute => t.writtenToMinute
  | .second => t.writtenToSecond
  | .fraction digits =>
    t.writtenToSecond ++ '.' :: padded digits (t.fraction / 10 ^ (9 - digits))

theorem fraction_lt (t : Clock) : t.fraction < 10 ^ 9 :=
  Nat.mod_lt t.nano (by decide)

theorem writtenSecond_lt (t : Clock) : t.writtenSecond < 10 ^ 2 := by
  have hsecond := t.second_lt
  unfold writtenSecond
  split
  . omega
  . omega

end Clock

def Moment.written (m : Moment) : Form → List Char
  | .date => m.date.written
  | .dateTime separator precision =>
    m.date.written ++ separator.char :: m.clock.written precision

example : Moment.written ⟨⟨2010, 11, 4, by decide, by decide, by decide, by decide⟩, .midnight⟩
    (.dateTime .space .minute) = "2010-11-04 00:00".toList := by decide

namespace Timestamp

theorem isTrimmed_date (d : Date) : Text.IsTrimmed d.written := by
  have hyear := Text.isTrimmed_padded (k := 4) (by decide) d.year.toNat
  have hmonth := Text.isTrimmed_padded (k := 2) (by decide) d.month
  have hday := Text.isTrimmed_padded (k := 2) (by decide) d.day
  exact (hyear.append_cons '-' hmonth).append_cons '-' hday

theorem isTrimmed_clock (t : Clock) {precision : Precision} (h : precision.Keeps t) :
    Text.IsTrimmed (t.written precision) := by
  have hhour := Text.isTrimmed_padded (k := 2) (by decide) t.hour
  have hminute := Text.isTrimmed_padded (k := 2) (by decide) t.minute
  have hsecond := Text.isTrimmed_padded (k := 2) (by decide) t.writtenSecond
  cases precision with
  | minute => exact hhour.append_cons ':' hminute
  | second => exact (hhour.append_cons ':' hminute).append_cons ':' hsecond
  | fraction digits =>
    have hfraction := Text.isTrimmed_padded h.1 (t.fraction / 10 ^ (9 - digits))
    exact ((hhour.append_cons ':' hminute).append_cons ':' hsecond).append_cons '.' hfraction

theorem isTrimmed_written {m : Moment} {form : Form} (h : form.Keeps m) :
    Text.IsTrimmed (m.written form) := by
  cases form with
  | date => exact isTrimmed_date m.date
  | dateTime separator precision =>
    exact (isTrimmed_date m.date).append_cons separator.char (isTrimmed_clock m.clock h.2)

end Timestamp

end CalendarCode
