import CalendarCode.Code.Basic
import CalendarCode.Code.Row
import CalendarCode.Scalar.Codec

/-!
This module contains the decoding of a code into ranges of values. Short gaps between active
positions are closed first. A run that is not longer than the run of one value stands for the value
at its middle; a longer one stands for all values whose runs fit into it.
-/

namespace CalendarCode

structure Decoded (α : Type) where
  ranges : List (α × α)

namespace Decoded

variable {α : Type} [Arith α] [Numeral α]

/-- A single value is written alone. -/
def rangeText (range : α × α) : String :=
  let (low, high) := range
  if low == high then Numeral.hundredths low
  else s!"{Numeral.hundredths low}-{Numeral.hundredths high}"

def description (d : Decoded α) : String :=
  ", ".intercalate (d.ranges.map rangeText)

end Decoded

namespace ScalarCodec

variable {α : Type} [Arith α] (k : ScalarCodec α)

def valueAt (p : Nat) : α :=
  let steps : α := Arith.ofNat p - Arith.ofNat k.padding
  if k.periodic then steps * k.range / Arith.ofNat k.innerSize + k.low
  else steps * k.resolution + k.low

def centers (run : Run) : Nat × Nat :=
  if run.length ≤ k.width then
    let middle := run.start + run.length / 2
    (middle, middle)
  else (run.start + k.halfwidth, run.start + run.length - 1 - k.halfwidth)

/-- The ranges of a run. On a circle it may cross the upper end of the domain and fall apart. -/
def rangesOf (run : Run) : List (α × α) :=
  let (left, right) := k.centers run
  let first := k.valueAt left
  let last := k.valueAt right
  let beyond := k.periodic && decide (k.high ≤ first)
  let first := Arith.larger (if beyond then first - k.range else first) k.low
  let last := Arith.larger (if beyond then last - k.range else last) k.low
  if k.periodic && decide (k.high ≤ last) then [(first, k.high), (k.low, last - k.range)]
  else [(Arith.smaller first k.high, Arith.smaller last k.high)]

def row (code : Code) : Row :=
  ⟨k.periodic, code.activity.toArray⟩

def read (code : Code) : Option (Decoded α) :=
  if code.activity.any id then
    some ⟨((k.row code).fillHoles k.halfwidth).runs.flatMap k.rangesOf⟩
  else none

def decode (code : Code) : Except (Error α) (Option (Decoded α)) :=
  if code.size = k.size then .ok (k.read code) else .error (.size k.size code.size)

end ScalarCodec

end CalendarCode
