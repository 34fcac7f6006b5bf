import CalendarCode.Scalar.Codec

/-!
This module contains the distance between an expected and an actual value, and the closeness that
follows from it. On a circle the shorter way round counts.
-/

namespace CalendarCode.ScalarCodec

variable {α : Type} [Arith α] (k : ScalarCodec α)

def distance (expected actual : α) : α :=
  if k.periodic then
    let e := Arith.modulo (expected - k.low) k.span
    let a := Arith.modulo (actual - k.low) k.span
    let d := Arith.abs (e - a)
    Arith.smaller d (k.span - d)
  else Arith.abs (expected - actual)

/-- One less the share of the domain that lies between the values, and never below zero. -/
def fractionalCloseness (expected actual : α) : α :=
  Arith.ofNat 1 - Arith.smaller (k.distance expected actual / k.span) (Arith.ofNat 1)

def closeness (expected actual : α) (fractional : Bool) : α :=
  if fractional then k.fractionalCloseness expected actual else k.distance expected actual

end CalendarCode.ScalarCodec
