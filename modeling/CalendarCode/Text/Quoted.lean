import CalendarCode.Text.Hidden

/-!
This module contains quoted texts, as messages show them: between double quotes, with a backslash
before quotes and backslashes, and with hidden characters given by name or by number.
-/

namespace CalendarCode.Text

def escape (c : Char) : List Char :=
  if c = '\x00' then ['\\', '0']
  else if c = '\t' then ['\\', 't']
  else if c = '\r' then ['\\', 'r']
  else if c = '\n' then ['\\', 'n']
  else if c = '\\' then ['\\', '\\']
  else if c = '\x22' then ['\\', '\x22']
  else if isHidden c then ['\\', 'u', '\x7b'] ++ Nat.toDigits 16 c.toNat ++ ['\x7d']
  else [c]

def quote (cs : List Char) : List Char :=
  '\x22' :: cs.flatMap escape ++ ['\x22']

def quoted (s : String) : String :=
  String.ofList (quote s.toList)

example : escape 'a' = ['a'] := by decide
example : escape '\n' = ['\\', 'n'] := by decide

end CalendarCode.Text
