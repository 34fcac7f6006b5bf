/-!
This module contains decimal numbers: an integer and the place of its last digit. The digits are
those of the integer, so a number has as many significant digits as its integer has.
-/

namespace CalendarCode

structure Decimal where
  coefficient : Nat
  exponent : Int
  deriving DecidableEq

namespace Decimal

def digitCount (n : Nat) : Nat :=
  (Nat.toDigits 10 n).length

def digits (d : Decimal) : List Char :=
  Nat.toDigits 10 d.coefficient

def magnitude (d : Decimal) : Int :=
  d.exponent + d.digits.length - 1

def strip (d : Decimal) : Decimal :=
  go d.coefficient d.exponent
where
  go (n : Nat) (e : Int) : Decimal :=
    if h : n ≠ 0 ∧ n % 10 = 0 then go (n / 10) (e + 1) else ⟨n, e⟩
  termination_by n
  decreasing_by omega

/-- Which way a number goes that lies in the middle between two decimals. -/
inductive Tie where
  | toEven
  | up
  deriving DecidableEq

def divNearest (tie : Tie) (num den : Nat) : Nat :=
  let q := num / den
  let rest := 2 * (num % den)
  if rest < den then q
  else if den < rest then q + 1
  else if tie = .toEven ∧ q % 2 = 0 then q
  else q + 1

end Decimal

end CalendarCode
