/-!
This module contains the way in which a decimal literal becomes a floating point number here: its
significand is rounded first and then scaled by powers of ten, with a rounding for each of them. The
outcome can differ from the number closest to the literal in the last place.
-/

namespace CalendarCode.Binary64

def powerOfTen (k : Nat) : Float :=
  Float.ofScientific 1 false k

def topPower : Nat := 308

/-- `x` divided by `10 ^ k`, in steps that each divide by a finite power of ten. -/
def scaleDown (x : Float) (k : Nat) : Float :=
  if k ≤ topPower then x / powerOfTen k
  else if x == 0.0 then x
  else scaleDown (x / powerOfTen topPower) (k - topPower)
termination_by k
decreasing_by simp_all [topPower]; omega

/-- `x` multiplied by `10 ^ k`; none if that leaves the finite numbers. -/
def scaleUp? (x : Float) (k : Nat) : Option Float :=
  if k ≤ topPower then
    let y := x * powerOfTen k
    if y.isInf then none else some y
  else if x == 0.0 then some x
  else none

def ofLiteral? (negative : Bool) (significand : Nat) (exponent : Int) : Option Float :=
  let x := Float.ofNat significand
  let scaled :=
    if 0 ≤ exponent then scaleUp? x exponent.toNat else some (scaleDown x (-exponent).toNat)
  scaled.map fun y => if negative then -y else y

end CalendarCode.Binary64
