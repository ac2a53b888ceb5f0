import Unrouted.Json.Basic
import Unrouted.Json.Lexer

/-!
From tokens to values, one token at a time.  The containers around the place that has
been reached wait for a value, the innermost first; lists of items and fields have
their latest entry first.
-/

namespace Unrouted
namespace Json

/-- A container that waits for its next value.  A key may be illegible. -/
inductive Waiting where
  | array (items : List Json)
  | object (fields : List (Option String × Json)) (key : Option String)

/-- What has been reached, with the containers around it. -/
inductive Reader where
  | value (around : List Waiting)
  /-- Just after the start of an array. -/
  | firstItem (around : List Waiting)
  | afterItem (items : List Json) (around : List Waiting)
  /-- Just after the start of an object. -/
  | firstKey (around : List Waiting)
  | key (fields : List (Option String × Json)) (around : List Waiting)
  | colon (fields : List (Option String × Json)) (key : Option String) (around : List Waiting)
  | afterField (fields : List (Option String × Json)) (around : List Waiting)
  | done (result : Json)

namespace Reader

/-- Hands a finished value to the container that waits for it. -/
def place (v : Json) : List Waiting → Reader
  | [] => done v
  | .array items :: around => afterItem (v :: items) around
  | .object fields k :: around => afterField ((k, v) :: fields) around

/-- An object without its illegible keys is not the object that was written. -/
def closeObject (fields : List (Option String × Json)) : Json :=
  match fields.reverse.mapM fun f => f.1.map fun k => (k, f.2) with
  | some fields => .object fields
  | none => .illegible

/-- The token at the beginning of a value. -/
def begin (around : List Waiting) : Token → Option Reader
  | .null => some (place .null around)
  | .bool b => some (place (.bool b) around)
  | .number n => some (place ((n.map Json.number).getD .illegible) around)
  | .string s => some (place ((s.map Json.string).getD .illegible) around)
  | .beginArray => some (firstItem around)
  | .beginObject => some (firstKey around)
  | _ => none

/-- One more token; `none` when no text goes on like this. -/
def step : Reader → Token → Option Reader
  | value around, t => begin around t
  | firstItem around, .endArray => some (place (.array []) around)
  | firstItem around, t => begin (.array [] :: around) t
  | afterItem items around, .comma => some (value (.array items :: around))
  | afterItem items around, .endArray => some (place (.array items.reverse) around)
  | firstKey around, .endObject => some (place (.object []) around)
  | firstKey around, .string k => some (colon [] k around)
  | key fields around, .string k => some (colon fields k around)
  | colon fields k around, .colon => some (value (.object fields k :: around))
  | afterField fields around, .comma => some (key fields around)
  | afterField fields around, .endObject => some (place (closeObject fields) around)
  | _, _ => none

def run (r : Reader) (ts : List Token) : Option Reader := ts.foldlM step r

end Reader

def ofTokens? (ts : List Token) : Option Json :=
  match (Reader.value []).run ts with
  | some (.done j) => some j
  | _ => none

/-- The value that a text spells, blanks around it allowed. -/
def ofText? (s : String) : Option Json := (tokens? s.toList).bind ofTokens?

end Json
end Unrouted
