import CalendarCode.Config.Basic
import CalendarCode.Json.Value

/-!
This module contains configurations as JSON: an object with the key of each aspect, and with the
name unless it is empty. When one is read, every key may be left out, but no other key may occur.
-/

namespace CalendarCode.Config

variable {α : Type} [Arith α]

def toJson (c : Config α) : Json α :=
  .object <| [
    ("season", c.season.toJson),
    ("dayOfWeek", c.dayOfWeek.toJson),
    ("weekend", c.weekend.toJson),
    ("customDays", c.customDays.toJson),
    ("holiday", c.holiday.toJson),
    ("timeOfDay", c.timeOfDay.toJson)]
    ++ if c.name.isEmpty then [] else [("name", .string c.name)]

def readField (c : Config α) (field : String × Json α) : Except (ConfigFault α) (Config α) :=
  let (key, v) := field
  match key with
  | "season" => (Setting.ofJson key v).map fun s => { c with season := s }
  | "dayOfWeek" => (Setting.ofJson key v).map fun s => { c with dayOfWeek := s }
  | "weekend" => (Setting.ofJson key v).map fun s => { c with weekend := s }
  | "customDays" => (CustomDays.ofJson v).map fun s => { c with customDays := s }
  | "holiday" => (Setting.ofJson key v).map fun s => { c with holiday := s }
  | "timeOfDay" => (Setting.ofJson key v).map fun s => { c with timeOfDay := s }
  | "name" =>
    match v.string? with
    | some s => .ok { c with name := s }
    | none => .error .nameNotText
  | _ => .error (.unknownKey key)

def ofJson (v : Json α) : Except (ConfigFault α) (Config α) :=
  match v with
  | .object fields => fields.foldlM readField {}
  | _ => .error (.notObject v)

def ofText [Numeral α] (text : String) : Except (Error α) (Config α) :=
  match Json.ofText? text with
  | some v => (ofJson v).mapError .config
  | none => .error .json

end CalendarCode.Config
