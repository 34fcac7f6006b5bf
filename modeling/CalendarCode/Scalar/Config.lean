import CalendarCode.Arith.Basic
import CalendarCode.Numeral.Basic
import CalendarCode.Word

/-!
This module contains the settings of a scalar codec and the quantities that follow from them.

A code has a run of `width` active positions, and the run moves with the value. On a line it moves
from the first to the last position, and half a run lies beyond each end of the domain. On a circle
it wraps around, so that the ends of the domain are neighbours.
-/

namespace CalendarCode

structure ScalarConfig (α : Type) where
  /-- The number of active positions. -/
  width : Nat
  low : α
  high : α
  /-- The distance that two values need to have no active position in common. -/
  radius : α
  /-- Whether the domain is a circle. -/
  periodic : Bool := false
  name : Option String := none

namespace ScalarConfig

variable {α : Type} [Arith α] (c : ScalarConfig α)

def halfwidth : Nat :=
  (c.width - 1) / 2

/-- The number of positions in front of the one that stands for the lowest value. -/
def padding : Nat :=
  if c.periodic then 0 else c.halfwidth

def resolution : α :=
  c.radius / Arith.ofNat c.width

def span : α :=
  c.high - c.low

/-- What the positions cover: the domain, and on a line also half a step beyond each end. -/
def range : α :=
  if c.periodic then c.span else c.span + c.resolution

/-- The number of positions, as far as a word can hold it. -/
def size : Nat :=
  Word.saturate <|
    Arith.ceil (Arith.ofNat c.width * (c.range / c.radius) + Arith.ofNat 2 * Arith.ofNat c.padding)

def innerSize : Nat :=
  c.size - 2 * c.padding

def displayName [Numeral α] : String :=
  c.name.getD s!"[{Numeral.plain c.low}:{Numeral.plain c.high}]"

end ScalarConfig

end CalendarCode
