import CalendarCode.Scalar.Config

/-!
This module contains where settings put the run of a value, and what they need in memory for that.
Positions are words: the place of a value on a circle may be beyond all of them, and so may the end
of its run.
-/

namespace CalendarCode.ScalarConfig

variable {α : Type} [Arith α] (c : ScalarConfig α)

/--
The value of the domain that stands for a finite one: on a line the closest one, on a circle the one
at the same place.
-/
def bound (v : α) : α :=
  if c.periodic then
    -- rounding can lead to the upper end, which is the lower one
    let w := Arith.modulo (v - c.low) c.span + c.low
    if c.high ≤ w then c.low else w
  else Arith.clamp c.low c.high v

def center (v : α) : Int :=
  if c.periodic then
    Word.clamp (Arith.truncate ((v - c.low) * Arith.ofNat c.innerSize / c.range))
  else
    Word.wrap (Word.clamp
      (Arith.truncate ((v - c.low + c.resolution / Arith.ofNat 2) / c.resolution)) + c.padding)

/-- The first active position for a value. On a circle it may be negative. -/
def start? (v : α) : Option Int :=
  if Arith.isFinite v then some (Word.wrap (c.center (c.bound v) - c.halfwidth)) else none

/-- The length of the run from a position on. There is no run if its end is not a word. -/
def runLength (start : Int) : Nat :=
  (Word.wrap (start + c.width) - start).toNat

/-- On a line, buckets are counted by their first position, and the highest value has the last. -/
def bucketCount : Nat :=
  if c.periodic then c.innerSize else ((c.start? c.high).getD 0).toNat + 1

/--
Whether there is memory for a code and for the table of the buckets, which takes 24 bytes for each.
Nothing has `2 ^ 63` bytes.
-/
def Fits : Prop :=
  c.size < 0x8000000000000000 ∧ 24 * c.bucketCount < 0x8000000000000000

instance : Decidable c.Fits :=
  inferInstanceAs (Decidable (_ ∧ _))

end CalendarCode.ScalarConfig
