import CalendarCode.Decimal.Basic

/-!
This module contains the two notations of a decimal number: positional, with zeros up to the point,
and scientific, with one digit before the point and a power of ten.
-/

namespace CalendarCode.Decimal

/-- All digits in their places, with a point only if some stand behind it. -/
def positional (d : Decimal) : List Char :=
  let top := d.magnitude
  if 0 ≤ d.exponent then d.digits ++ List.replicate d.exponent.toNat '0'
  else if top < 0 then
    '0' :: '.' :: List.replicate (-top - 1).toNat '0' ++ d.digits
  else
    d.digits.take (top + 1).toNat ++ '.' :: d.digits.drop (top + 1).toNat

/-- One digit before the point, the others behind it, and a power of ten that has a sign. -/
def scientific (d : Decimal) : List Char :=
  let top := d.magnitude
  let head := d.digits.take 1
  let tail := d.digits.drop 1
  let power := (if top < 0 then '-' else '+') :: Nat.toDigits 10 top.natAbs
  head ++ (if tail.isEmpty then [] else '.' :: tail) ++ 'e' :: power

def hundredths (n : Nat) : List Char :=
  Nat.toDigits 10 (n / 100) ++ '.' :: Nat.digitChar (n / 10 % 10) :: [Nat.digitChar (n % 10)]

example : positional ⟨915, -1⟩ = ['9', '1', '.', '5'] := by decide
example : positional ⟨1, 3⟩ = ['1', '0', '0', '0'] := by decide
example : positional ⟨25, -3⟩ = ['0', '.', '0', '2', '5'] := by decide
example : scientific ⟨15, -8⟩ = ['1', '.', '5', 'e', '-', '7'] := by decide
example : scientific ⟨1, 16⟩ = ['1', 'e', '+', '1', '6'] := by decide
example : hundredths 2405 = ['2', '4', '.', '0', '5'] := by decide

end CalendarCode.Decimal
