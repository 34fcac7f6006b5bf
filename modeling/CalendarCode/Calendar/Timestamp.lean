import CalendarCode.Calendar.Moment
import CalendarCode.Decimal.Digits
import CalendarCode.Text.Blank

/-!
This module contains the layouts in which a moment can be written. A layout is a list of items, and
a text follows it if the items use up the whole text and the numbers make up a moment.
-/

namespace CalendarCode.Timestamp

open Decimal

/-- One part of a layout. White space in front of a number does not count. -/
inductive Item where
  /-- Up to four digits, or a sign and any number of digits. -/
  | year
  /-- One or two digits, like the items that follow. -/
  | month
  | day
  | hour
  | minute
  /-- The sixtieth second is a leap second. -/
  | second
  /-- Nothing, or a point and at least one digit; digits after the ninth do not count. -/
  | fraction
  /-- White space, of which there may be none. -/
  | blank
  | literal (c : Char)
  deriving DecidableEq

abbrev Layout := List Item

structure Numbers where
  year : Int := 0
  month : Nat := 0
  day : Nat := 0
  hour : Nat := 0
  minute : Nat := 0
  second : Nat := 0
  nano : Nat := 0

namespace Numbers

def moment? (n : Numbers) : Option Moment :=
  if n.second = 60 then
    Moment.ofParts? n.year n.month n.day n.hour n.minute 59 (n.nano + 1000000000)
  else Moment.ofParts? n.year n.month n.day n.hour n.minute n.second n.nano

end Numbers

def number? (most : Nat) (cs : List Char) : Option (Nat × List Char) := do
  let (ds, _) ← leading? (cs.take most)
  return (valueOf ds, cs.drop ds.length)

def signedYear? : List Char → Option (Int × List Char)
  | '-' :: cs => (leading? cs).map fun (ds, rest) => (-(valueOf ds : Int), rest)
  | '+' :: cs => (leading? cs).map fun (ds, rest) => ((valueOf ds : Int), rest)
  | cs => (number? 4 cs).map fun (n, rest) => ((n : Int), rest)

def nanos (digits : List Char) : Nat :=
  valueOf ((digits ++ List.replicate 9 '0').take 9)

def Item.take? (item : Item) (n : Numbers) (cs : List Char) : Option (Numbers × List Char) :=
  let two := number? 2 (Text.trimLeft cs)
  match item with
  | .year => (signedYear? (Text.trimLeft cs)).map fun (y, rest) => ({ n with year := y }, rest)
  | .month => two.map fun (m, rest) => ({ n with month := m }, rest)
  | .day => two.map fun (d, rest) => ({ n with day := d }, rest)
  | .hour => two.map fun (h, rest) => ({ n with hour := h }, rest)
  | .minute => two.map fun (m, rest) => ({ n with minute := m }, rest)
  | .second => two.map fun (s, rest) => ({ n with second := s }, rest)
  | .fraction =>
    match cs with
    | '.' :: cs => (leading? cs).map fun (ds, rest) => ({ n with nano := nanos ds }, rest)
    | _ => some (n, cs)
  | .blank => some (n, Text.trimLeft cs)
  | .literal c =>
    match cs with
    | d :: rest => if c = d then some (n, rest) else none
    | [] => none

def Layout.moment? (layout : Layout) (cs : List Char) : Option Moment := do
  let (n, rest) ← layout.foldlM (fun (n, cs) item => item.take? n cs) (({} : Numbers), cs)
  if rest.isEmpty then n.moment? else none

def date : Layout :=
  [.year, .literal '-', .month, .literal '-', .day]

def clock : Layout :=
  [.hour, .literal ':', .minute]

def clockWithSeconds : Layout :=
  clock ++ [.literal ':', .second]

def clockWithFraction : Layout :=
  clockWithSeconds ++ [.fraction]

def dateTimes : List Layout :=
  [clockWithSeconds, clockWithFraction, clock].flatMap fun time =>
    [date ++ .blank :: time, date ++ .literal 'T' :: time]

/-- All layouts, in the order in which they are tried. A date without a time means its midnight. -/
def layouts : List Layout :=
  dateTimes ++ [date]

def moment? (layouts : List Layout) (cs : List Char) : Option Moment :=
  layouts.findSome? fun layout => layout.moment? cs

end CalendarCode.Timestamp
