/-!
This module takes a floating point number apart: a finite `Float` is a sign and an integer times a
power of two.
-/

namespace CalendarCode.Binary64

/-- The number `mantissa * 2 ^ exponent`, with a sign that a zero has as well. -/
structure Parts where
  negative : Bool
  mantissa : Nat
  exponent : Int
  deriving DecidableEq

namespace Parts

def hiddenBit : Nat := 4503599627370496

def ofBits? (bits : Nat) : Option Parts :=
  let fraction : Nat := bits % hiddenBit
  let scale : Nat := bits / hiddenBit % 2048
  let negative := decide (2048 ≤ bits / hiddenBit)
  if scale = 2047 then none
  else if scale = 0 then some ⟨negative, fraction, -1074⟩
  else some ⟨negative, fraction + hiddenBit, (scale : Int) - 1075⟩

def ofFloat? (x : Float) : Option Parts :=
  ofBits? x.toBits.toNat

def fraction (p : Parts) : Nat × Nat :=
  (p.mantissa <<< p.exponent.toNat, 1 <<< (-p.exponent).toNat)

end Parts

end CalendarCode.Binary64
