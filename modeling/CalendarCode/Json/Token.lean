import CalendarCode.Json.Written

/-!
This module contains the tokens of JSON and how a text falls apart into them. White space is a
space, a tab or one of the two line ends.
-/

namespace CalendarCode.Json

inductive Token where
  | leftBracket
  | rightBracket
  | leftBrace
  | rightBrace
  | comma
  | colon
  | null
  | bool (b : Bool)
  | number (l : Literal)
  | string (units : Units)

namespace Token

def isSpace (c : Char) : Bool :=
  c == ' ' || c == '\t' || c == '\n' || c == '\r'

def hexDigit? (c : Char) : Option Nat :=
  if '0' ≤ c ∧ c ≤ '9' then some (c.toNat - '0'.toNat)
  else if 'a' ≤ c ∧ c ≤ 'f' then some (c.toNat - 'a'.toNat + 10)
  else if 'A' ≤ c ∧ c ≤ 'F' then some (c.toNat - 'A'.toNat + 10)
  else none

def unit? (digits : List Char) : Option Nat :=
  digits.foldlM (fun n c => (hexDigit? c).map (16 * n + ·)) 0

def escaped? (c : Char) : Option Nat :=
  match c with
  | '\x22' | '\\' | '/' => some c.toNat
  | 'b' => some 0x8
  | 'f' => some 0xc
  | 'n' => some 0xa
  | 'r' => some 0xd
  | 't' => some 0x9
  | _ => none

def units? : List Char → Option (Units × List Char)
  | [] => none
  | '\x22' :: cs => some ([], cs)
  | '\\' :: 'u' :: a :: b :: c :: d :: cs =>
    match unit? [a, b, c, d] with
    | some unit => (units? cs).map fun (units, rest) => (unit :: units, rest)
    | none => none
  | '\\' :: e :: cs =>
    match escaped? e with
    | some unit => (units? cs).map fun (units, rest) => (unit :: units, rest)
    | none => none
  | c :: cs =>
    if c < ' ' ∨ c = '\\' then none
    else (units? cs).map fun (units, rest) => (c.toNat :: units, rest)

def whole? (cs : List Char) : Option (List Char × List Char) :=
  match Decimal.leading? cs with
  | some ('0' :: _, _) => some (['0'], cs.drop 1)
  | found => found

def fraction? : List Char → Option (List Char × List Char)
  | '.' :: cs => Decimal.leading? cs
  | cs => some ([], cs)

def power? : List Char → Option (Int × List Char)
  | '-' :: cs => (Decimal.leading? cs).map fun (ds, rest) => (-(Decimal.valueOf ds : Int), rest)
  | '+' :: cs => (Decimal.leading? cs).map fun (ds, rest) => (Decimal.valueOf ds, rest)
  | cs => (Decimal.leading? cs).map fun (ds, rest) => (Decimal.valueOf ds, rest)

def exponent? : List Char → Option (Option Int × List Char)
  | 'e' :: cs | 'E' :: cs => (power? cs).map fun (n, rest) => (some n, rest)
  | cs => some (none, cs)

def literal? (negative : Bool) (cs : List Char) : Option (Literal × List Char) := do
  let (whole, cs) ← whole? cs
  let (fraction, cs) ← fraction? cs
  let (exponent, cs) ← exponent? cs
  return (⟨negative, whole, fraction, exponent⟩, cs)

def after? (word cs : List Char) : Option (List Char) :=
  if word.isPrefixOf cs then some (cs.drop word.length) else none

def take? (c : Char) (cs : List Char) : Option (Token × List Char) :=
  match c with
  | '[' => some (.leftBracket, cs)
  | ']' => some (.rightBracket, cs)
  | '\x7b' => some (.leftBrace, cs)
  | '\x7d' => some (.rightBrace, cs)
  | ',' => some (.comma, cs)
  | ':' => some (.colon, cs)
  | '\x22' => (units? cs).map fun (units, rest) => (.string units, rest)
  | 'n' => (after? ['u', 'l', 'l'] cs).map fun rest => (.null, rest)
  | 't' => (after? ['r', 'u', 'e'] cs).map fun rest => (.bool true, rest)
  | 'f' => (after? ['a', 'l', 's', 'e'] cs).map fun rest => (.bool false, rest)
  | '-' => (literal? true cs).map fun (l, rest) => (.number l, rest)
  | c => (literal? false (c :: cs)).map fun (l, rest) => (.number l, rest)

theorem length_of_units? {cs rest : List Char} {units : Units}
    (h : units? cs = some (units, rest)) : rest.length ≤ cs.length := by
  fun_induction units? cs generalizing units <;> grind [Option.map_eq_some_iff]

theorem length_of_whole? {cs ds rest : List Char} (h : whole? cs = some (ds, rest)) :
    rest.length < cs.length := by
  unfold whole? at h
  split at h
  next hd =>
    have := Decimal.length_of_leading? hd
    grind
  next => exact Decimal.length_of_leading? h

theorem length_of_fraction? {cs ds rest : List Char} (h : fraction? cs = some (ds, rest)) :
    rest.length ≤ cs.length := by
  unfold fraction? at h
  grind [→ Decimal.length_of_leading?]

theorem length_of_power? {cs rest : List Char} {n : Int} (h : power? cs = some (n, rest)) :
    rest.length < cs.length := by
  unfold power? at h
  grind [Option.map_eq_some_iff, → Decimal.length_of_leading?]

theorem length_of_exponent? {cs rest : List Char} {n : Option Int}
    (h : exponent? cs = some (n, rest)) : rest.length ≤ cs.length := by
  unfold exponent? at h
  grind [Option.map_eq_some_iff, → length_of_power?]

theorem length_of_literal? {negative : Bool} {cs rest : List Char} {l : Literal}
    (h : literal? negative cs = some (l, rest)) : rest.length < cs.length := by
  simp only [literal?, Option.bind_eq_bind, Option.bind_eq_some_iff, Prod.exists] at h
  obtain ⟨_, _, hw, _, _, hf, _, _, he, h⟩ := h
  have := length_of_whole? hw
  have := length_of_fraction? hf
  have := length_of_exponent? he
  grind

theorem length_of_after? {word cs rest : List Char} (h : after? word cs = some rest) :
    rest.length ≤ cs.length := by
  unfold after? at h
  grind

theorem length_of_take? {c : Char} {cs rest : List Char} {t : Token}
    (h : take? c cs = some (t, rest)) : rest.length ≤ cs.length := by
  unfold take? at h
  split at h <;>
    grind [Option.map_eq_some_iff, → length_of_units?, → length_of_literal?, → length_of_after?]

def ofText? (cs : List Char) : Option (List Token) :=
  match cs with
  | [] => some []
  | c :: cs =>
    if isSpace c then ofText? cs
    else
      match h : take? c cs with
      | none => none
      | some (t, rest) =>
        have := length_of_take? h
        (ofText? rest).map (t :: ·)
termination_by cs.length

end Token

end CalendarCode.Json
