import CalendarCode.Calendar.DaySet
import CalendarCode.Json.Printer
import CalendarCode.Text.Quoted

/-!
This module contains everything that can be wrong with a configuration or an input, and how it is
said. An error is a cause; its words are chosen in one place.
-/

namespace CalendarCode

inductive ConfigFault (α : Type) where
  /-- The number of active positions is not odd. -/
  | evenWidth (width : Nat)
  /-- The lowest value is not below the highest one, or one of them is not finite. -/
  | emptyDomain (low high : α)
  /-- The radius is not positive and finite. -/
  | badRadius (radius : α)
  /-- The code has not more positions than are active at once. -/
  | noRoom (size width : Nat)
  /-- The codec does not fit into memory. This is no fault that is told: the construction halts. -/
  | tooLarge
  /-- A radius with a width of zero. -/
  | zeroWidthWithRadius
  /-- Days with a width of zero. -/
  | zeroWidth
  | radiusNotNumber
  /-- An array that is no pair. -/
  | notPair (size : Nat)
  | notSetting (got : Json α)
  | notWidth (got : Json α)
  | notDays (got : Json α)
  | notObject (got : Json α)
  | nameNotText
  | unknownKey (key : String)
  | days (fault : DayFault)
  /-- A fault of the setting with this key. -/
  | inKey (key : String) (fault : ConfigFault α)

inductive InputFault (α : Type) where
  /-- A text that follows no layout of timestamps. -/
  | notTimestamp (text : String)
  /-- A value that is neither a text nor missing. -/
  | notText (got : Json α)

inductive Error (α : Type) where
  /-- A text that is not JSON, or no JSON of the form that is needed. -/
  | json
  | config (fault : ConfigFault α)
  | input (fault : InputFault α)
  /-- A code or a list of the wrong size. -/
  | size (expected got : Nat)
  /-- A bucket that the field does not have. Without an index, no bucket was given. -/
  | bucket (field : String) (index : Option Nat) (count : Nat)

def DayFault.message : DayFault → String
  | .noNames => "custom days need at least one day name"
  | .unknown name => s!"unable to understand {Text.quoted name} as a day of week"

variable {α : Type} [Numeral α]

def ConfigFault.message : ConfigFault α → String
  | .evenWidth width => s!"width must be an odd number, got {width}"
  | .emptyDomain low high =>
    s!"min_value ({Numeral.plain low}) must be less than max_value ({Numeral.plain high})"
  | .badRadius radius => s!"radius must be positive, got {Numeral.plain radius}"
  | .noRoom size width =>
    s!"output width ({size}) must exceed active bits ({width}); lower the radius"
  | .tooLarge => "capacity overflow"
  | .zeroWidthWithRadius => "width must be positive when a radius is given"
  | .zeroWidth => "width must be positive"
  | .radiusNotNumber => "radius must be a number"
  | .notPair size => s!"expected [width, radius], got {size} elements"
  | .notSetting got => s!"expected 0, a width or [width, radius], got {got.text}"
  | .notWidth got => s!"width must be a non-negative integer, got {got.text}"
  | .notDays got => s!"provide [width, day] or [width, [days...]], got {got.text}"
  | .notObject got => s!"expected a JSON object, got {got.text}"
  | .nameNotText => "name must be a string"
  | .unknownKey key => s!"unknown configuration key {Text.quoted key}"
  | .days fault => fault.message
  | .inKey key fault => s!"{key}: {fault.message}"

def InputFault.message : InputFault α → String
  | .notTimestamp text => s!"not a timestamp: {Text.quoted text}"
  | .notText got => s!"expected a timestamp string or null, got {got.text}"

namespace Error

def indexText : Option Nat → String
  | some i => s!"Some({i})"
  | none => "None"

def message : Error α → String
  | .json => "JSON parse error"
  | .config fault => s!"Invalid configuration: {fault.message}"
  | .input fault => s!"Invalid input: {fault.message}"
  | .size expected got => s!"Dimension mismatch: expected {expected}, got {got}"
  | .bucket field index count =>
    s!"Bucket {indexText index} out of range for field '{field}' ({count} buckets)"

def isConfig {α : Type} : Error α → Bool
  | .json | .config _ => true
  | _ => false

end Error

end CalendarCode
