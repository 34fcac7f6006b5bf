import CalendarCode.Decimal.Digits

/-!
This module contains JSON as it is written: numbers are still digits, strings are still code units,
and objects may repeat a key. Everything that follows the grammar is here, also what has no value,
such as a number beyond all bounds or one half of a surrogate pair.
-/

namespace CalendarCode.Json

/-- A number as it is written. The parts behind the point and the letter may be missing. -/
structure Literal where
  negative : Bool
  whole : List Char
  fraction : List Char
  exponent : Option Int

/-- The code units of a string: characters, and escaped units of sixteen bits. -/
abbrev Units := List Nat

inductive Written where
  | null
  | bool (b : Bool)
  | number (l : Literal)
  | string (units : Units)
  | array (items : List Written)
  | object (fields : List (Units × Written))

/-- Adds digits to a number as long as it stays below `2 ^ 64`; the others are left. -/
def Literal.absorb (n : Nat) : List Char → Nat × List Char
  | [] => (n, [])
  | c :: cs =>
    let m := 10 * n + Decimal.digitValue c
    if m < 18446744073709551616 then absorb m cs else (n, c :: cs)

/-- The digits that count, as a number below `2 ^ 64`, and the power of ten that they stand at. -/
def Literal.scientific (l : Literal) : Nat × Int :=
  let (n, left) := absorb 0 l.whole
  let (m, unused) := absorb n l.fraction
  (m, (left.length : Int) - (l.fraction.length - unused.length) + l.exponent.getD 0)

def Literal.natural? (l : Literal) : Option Nat :=
  match l.fraction, l.exponent, absorb 0 l.whole with
  | [], none, (n, []) => some n
  | _, _, _ => none

/-- The characters that code units stand for. A half of a surrogate pair stands for nothing. -/
def Units.chars? : Units → Option (List Char)
  | [] => some []
  | high :: low :: units =>
    if 0xd800 ≤ high ∧ high < 0xdc00 then
      if 0xdc00 ≤ low ∧ low < 0xe000 then
        (chars? units).map (Char.ofNat (0x10000 + (high - 0xd800) * 0x400 + (low - 0xdc00)) :: ·)
      else none
    else if 0xdc00 ≤ high ∧ high < 0xe000 then none
    else (chars? (low :: units)).map (Char.ofNat high :: ·)
  | [unit] => if 0xd800 ≤ unit ∧ unit < 0xe000 then none else some [Char.ofNat unit]

def Units.string? (units : Units) : Option String :=
  (chars? units).map String.ofList

end CalendarCode.Json
