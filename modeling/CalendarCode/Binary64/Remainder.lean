/-!
This module contains the exact remainder of two floating point numbers. Both numbers are integers
times a common power of two, so the remainder is one of the integers, and it never has more digits
than the number that it comes from: no rounding takes place.
-/

namespace CalendarCode.Binary64

open Float.Model

/--
What is left of a number after the largest whole number of steps of another size toward zero. It has
the sign of the number. There is none if the number is not finite or the size is zero, and an
infinite step is never taken.
-/
def remainderOf : UnpackedFloat → UnpackedFloat → UnpackedFloat
  | .finite sign m e _, .finite _ n f _ =>
    let g := min e f
    .round .binary64 sign ((m <<< (e - g).toNat) % (n <<< (f - g).toNat)) g
  | .zero sign, .finite .. => .zero sign
  | .zero sign, .infinity _ => .zero sign
  | .finite sign m e h, .infinity _ => .finite sign m e h
  | _, _ => .notANumber

def remainder (x y : Float) : Float :=
  .ofModel (.pack (remainderOf x.toModel.unpack y.toModel.unpack))

def modulo (x y : Float) : Float :=
  let r := remainder x y
  if r < 0.0 then r + y.abs else r

end CalendarCode.Binary64
