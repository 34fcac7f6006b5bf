/-!
This module contains digits at the start of a text and the number that they write.
-/

namespace CalendarCode.Decimal

def digitValue (c : Char) : Nat :=
  c.toNat - '0'.toNat

def valueOf (digits : List Char) : Nat :=
  digits.foldl (fun n c => 10 * n + digitValue c) 0

def leading? (cs : List Char) : Option (List Char × List Char) :=
  match cs.takeWhile Char.isDigit with
  | [] => none
  | ds => some (ds, cs.dropWhile Char.isDigit)

theorem leading?_eq_some_iff {cs ds rest : List Char} :
    leading? cs = some (ds, rest) ↔
      ds ≠ [] ∧ ds = cs.takeWhile Char.isDigit ∧ rest = cs.dropWhile Char.isDigit := by
  unfold leading?
  split <;> grind

theorem length_of_leading? {cs ds rest : List Char} (h : leading? cs = some (ds, rest)) :
    rest.length < cs.length := by
  obtain ⟨hne, hds, hrest⟩ := leading?_eq_some_iff.1 h
  have hlen := congrArg List.length (@List.takeWhile_append_dropWhile _ Char.isDigit cs)
  rw [List.length_append, ← hds, ← hrest] at hlen
  have := List.length_pos_iff.2 hne
  omega

example : valueOf ['0', '4', '2'] = 42 := by decide
example : leading? ['4', '2', '-'] = some (['4', '2'], ['-']) := by decide
example : leading? ['-', '4'] = none := by decide

end CalendarCode.Decimal
