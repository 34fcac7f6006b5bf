import CalendarCode.Json.Basic
import CalendarCode.Numeral.Basic

/-!
This module contains the compact text of a JSON value: no spaces, and fields in the order that the
object has. Only quotes, backslashes and control characters are escaped in strings.
-/

namespace CalendarCode.Json

def escape (c : Char) : List Char :=
  if c = '\x22' then ['\\', '\x22']
  else if c = '\\' then ['\\', '\\']
  else if c = '\x08' then ['\\', 'b']
  else if c = '\x0c' then ['\\', 'f']
  else if c = '\n' then ['\\', 'n']
  else if c = '\r' then ['\\', 'r']
  else if c = '\t' then ['\\', 't']
  else if c < ' ' then
    ['\\', 'u', '0', '0', Nat.digitChar (c.toNat / 16), Nat.digitChar (c.toNat % 16)]
  else [c]

def stringText (s : String) : String :=
  String.ofList ('\x22' :: s.toList.flatMap escape ++ ['\x22'])

variable {α : Type} [Numeral α]

mutual

def text : Json α → String
  | .null => "null"
  | .bool b => if b then "true" else "false"
  | .natural n => toString n.toNat
  | .negative i => toString i.toInt
  | .real x => Numeral.json x
  | .string s => stringText s
  | .array items => "[" ++ itemsText items ++ "]"
  | .object fields => "\x7b" ++ fieldsText fields ++ "\x7d"

def itemsText : List (Json α) → String
  | [] => ""
  | [v] => text v
  | v :: items => text v ++ "," ++ itemsText items

def fieldsText : List (String × Json α) → String
  | [] => ""
  | [(key, v)] => stringText key ++ ":" ++ text v
  | (key, v) :: fields => stringText key ++ ":" ++ text v ++ "," ++ fieldsText fields

end

end CalendarCode.Json
