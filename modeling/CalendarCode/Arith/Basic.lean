/-!
This module contains the arithmetic that the codecs are written over. A codec computes with numbers
of a type `α`, and one definition serves both the rounded numbers of a running program and the exact
numbers that one reasons about: `Float` and `Rat` are the two instances.
-/

namespace CalendarCode

/--
Numbers that a codec can compute with. Nothing here promises a law: a rounded type has few, and the
exact type brings its own.
-/
class Arith (α : Type) extends Add α, Sub α, Mul α, Div α, LT α, LE α, BEq α where
  decidableLT : DecidableLT α
  decidableLE : DecidableLE α
  /-- The number closest to an integer. -/
  ofInt : Int → α
  /-- Whether a number is an ordinary one, and so not infinite and not undefined. -/
  isFinite : α → Bool
  abs : α → α
  /-- The remainder of least non-negative value, as far as `α` can express it. -/
  modulo : α → α → α
  /-- The integer part, toward zero. -/
  truncate : α → Int
  /-- The least natural number that is not below. -/
  ceil : α → Nat

namespace Arith

variable {α : Type} [Arith α]

instance : DecidableLT α := decidableLT

instance : DecidableLE α := decidableLE

def ofNat (n : Nat) : α :=
  ofInt n

def ratio (num den : Int) : α :=
  ofInt num / ofInt den

def clamp (low high x : α) : α :=
  if x < low then low else if high < x then high else x

/-- The larger of two numbers; one that is not equal to itself loses. -/
def larger (x y : α) : α :=
  if x < y then y else if x == x then x else y

def smaller (x y : α) : α :=
  if y < x then y else if x == x then x else y

end Arith

end CalendarCode
