import CalendarCode.Arith.Basic

/-!
This module makes the rational numbers an instance of `Arith`: every operation is exact, every
number is finite, and the integer parts have no bound.
-/

namespace CalendarCode

instance : Arith Rat where
  decidableLT := inferInstance
  decidableLE := inferInstance
  ofInt i := i
  isFinite _ := true
  abs x := if x < 0 then -x else x
  modulo x y := x - y * (x / y).floor
  truncate x := if x < 0 then x.ceil else x.floor
  ceil x := x.ceil.toNat

namespace Arith

@[simp]
theorem ofInt_exact (i : Int) : (ofInt i : Rat) = i := rfl

@[simp]
theorem ofNat_exact (n : Nat) : (ofNat n : Rat) = ((n : Int) : Rat) := rfl

@[simp]
theorem isFinite_exact (x : Rat) : isFinite x = true := rfl

@[simp]
theorem ratio_exact (num den : Int) : (ratio num den : Rat) = num / den := rfl

theorem abs_exact (x : Rat) : Arith.abs x = if x < 0 then -x else x := rfl

theorem truncate_exact (x : Rat) : truncate x = if x < 0 then x.ceil else x.floor := rfl

theorem ceil_exact (x : Rat) : ceil x = x.ceil.toNat := rfl

end Arith

end CalendarCode
