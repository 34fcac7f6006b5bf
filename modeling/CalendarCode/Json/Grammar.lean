import CalendarCode.Json.Token

/-!
This module contains the grammar of JSON as a machine that takes one token after the other. The
containers that are still open are kept on a stack, so the depth of a text has no bound here.
-/

namespace CalendarCode.Json

inductive Frame where
  | items (done : List Written)
  /-- The value of the last key is still to come. -/
  | fields (done : List (Units × Written)) (key : Units)

inductive Expected where
  | nextValue (stack : List Frame)
  /-- A value, or the end of the array that was just opened. -/
  | firstItem (stack : List Frame)
  | nextKey (done : List (Units × Written)) (stack : List Frame)
  /-- A key, or the end of the object that was just opened. -/
  | firstKey (stack : List Frame)
  | colon (done : List (Units × Written)) (key : Units) (stack : List Frame)
  /-- A comma or the end of the innermost container, of which a value is complete. -/
  | more (latest : Written) (stack : List Frame)

namespace Expected

def startValue? (stack : List Frame) : Token → Option Expected
  | .null => some (.more .null stack)
  | .bool b => some (.more (.bool b) stack)
  | .number l => some (.more (.number l) stack)
  | .string units => some (.more (.string units) stack)
  | .leftBracket => some (.firstItem stack)
  | .leftBrace => some (.firstKey stack)
  | _ => none

def startField? (done : List (Units × Written)) (stack : List Frame) : Token → Option Expected
  | .string key => some (.colon done key stack)
  | _ => none

def goOn? (latest : Written) : List Frame → Token → Option Expected
  | .items done :: stack, .comma => some (.nextValue (.items (latest :: done) :: stack))
  | .items done :: stack, .rightBracket =>
    some (.more (.array (latest :: done).reverse) stack)
  | .fields done key :: stack, .comma => some (.nextKey ((key, latest) :: done) stack)
  | .fields done key :: stack, .rightBrace =>
    some (.more (.object ((key, latest) :: done).reverse) stack)
  | _, _ => none

def step? : Expected → Token → Option Expected
  | .nextValue stack, t => startValue? stack t
  | .firstItem stack, .rightBracket => some (.more (.array []) stack)
  | .firstItem stack, t => startValue? (.items [] :: stack) t
  | .nextKey done stack, t => startField? done stack t
  | .firstKey stack, .rightBrace => some (.more (.object []) stack)
  | .firstKey stack, t => startField? [] stack t
  | .colon done key stack, .colon => some (.nextValue (.fields done key :: stack))
  | .colon _ _ _, _ => none
  | .more latest stack, t => goOn? latest stack t

end Expected

def Written.ofTokens? (tokens : List Token) : Option Written :=
  match tokens.foldlM Expected.step? (.nextValue []) with
  | some (.more v []) => some v
  | _ => none

def Written.ofText? (text : String) : Option Written :=
  (Token.ofText? text.toList).bind ofTokens?

end CalendarCode.Json
