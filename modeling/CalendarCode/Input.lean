import CalendarCode.Calendar.Timestamp
import CalendarCode.Error

/-!
This module contains inputs: a moment, or nothing where data is missing. A blank text and the JSON
value null are missing data.
-/

namespace CalendarCode

abbrev Input := Option Moment

namespace Input

variable {α : Type}

/-- The moment that a text writes, without the white space around it. -/
def ofText (text : String) : Except (Error α) Input :=
  match Text.trim text.toList with
  | [] => .ok none
  | cs =>
    match Timestamp.moment? Timestamp.layouts cs with
    | some m => .ok (some m)
    | none => .error (.input (.notTimestamp (String.ofList cs)))

def ofJson : Json α → Except (Error α) Input
  | .null => .ok none
  | .string s => ofText s
  | v => .error (.input (.notText v))

end Input

end CalendarCode
