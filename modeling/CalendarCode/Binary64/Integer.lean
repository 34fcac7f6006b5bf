/-!
This module contains the integer parts of floating point numbers. Those of a finite number are
exact; infinite ones count as more than any word, and what is no number counts as zero.
-/

namespace CalendarCode.Binary64

def ofInt (i : Int) : Float :=
  .ofModel (.ofInt i)

def truncate (x : Float) : Int :=
  x.toModel.unpack.toInt (-0x10000000000000000) 0x10000000000000000

def ceil (x : Float) : Nat :=
  let i := truncate x
  if ofInt i < x then (i + 1).toNat else i.toNat

end CalendarCode.Binary64
