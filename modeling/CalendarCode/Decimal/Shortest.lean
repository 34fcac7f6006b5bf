import CalendarCode.Binary64.Parts
import CalendarCode.Decimal.Basic

/-!
This module contains the shortest decimal of a floating point number: among all decimals that are
read back as the number, one with the fewest digits, and of those the closest.

The reals that round to `m * 2 ^ e` form an interval. For one digit, two digits and so on, the two
neighbours of the number on the grid of decimals with that many digits are tested; the first grid
with a neighbour inside the interval decides.
-/

namespace CalendarCode.Decimal

open Binary64

/--
A positive number and the reals that round to it, all as multiples of one unit `num / den`: the
number itself, the lower end and the upper end. The ends belong to the interval if `closed`.
-/
structure Interval where
  value : Nat
  lower : Nat
  upper : Nat
  closed : Bool
  num : Nat
  den : Nat

namespace Interval

/--
The unit is a quarter of the last binary place. Below a power of two the next number is only half
a place away.
-/
def ofParts (p : Parts) : Interval :=
  let edge := p.mantissa = Parts.hiddenBit ∧ -1074 < p.exponent
  {
    value := 4 * p.mantissa
    lower := 4 * p.mantissa - if edge then 1 else 2
    upper := 4 * p.mantissa + 2
    closed := p.mantissa % 2 = 0
    num := 1 <<< (p.exponent - 2).toNat
    den := 1 <<< (2 - p.exponent).toNat
  }

def magnitude (i : Interval) : Int :=
  let num := i.value * i.num
  if i.den ≤ num then (digitCount (num / i.den) : Int) - 1
  else -(digitCount ((i.den - 1) / num) : Int)

def contains (i : Interval) (n d : Nat) : Bool :=
  if i.closed then i.lower * d ≤ n && n ≤ i.upper * d
  else i.lower * d < n && n < i.upper * d

def onGrid? (i : Interval) (tie : Tie) (e : Int) : Option Decimal :=
  -- one step of the grid is `num / den` units
  let num := i.den * Nat.pow 10 e.toNat
  let den := i.num * Nat.pow 10 (-e).toNat
  let near := divNearest tie (i.value * den) num
  let below := i.value * den / num
  let far := if near = below then below + 1 else below
  if i.contains (near * num) den then some ⟨near, e⟩
  else if i.contains (far * num) den then some ⟨far, e⟩
  else none

def shortest (i : Interval) (tie : Tie) : Decimal :=
  let top := i.magnitude
  let grids := (List.range 17).map fun (k : Nat) => top - k
  match grids.findSome? (i.onGrid? tie) with
  | some d => d.strip
  | none => ⟨0, 0⟩

end Interval

def shortest (tie : Tie) (p : Parts) : Decimal :=
  if p.mantissa = 0 then ⟨0, 0⟩ else (Interval.ofParts p).shortest tie

end CalendarCode.Decimal
