import Unrouted.Json.Decimal
import Unrouted.Json.Number

/-!
Tokens of JSON texts.  A string or a number may be well formed and still stand for
no value: a string with half of a surrogate pair, a number beyond binary64.  Such a
token is a token all the same, because a value that nobody reads may hold it.
-/

namespace Unrouted
namespace Json

inductive Token where
  | beginArray
  | endArray
  | beginObject
  | endObject
  | colon
  | comma
  | null
  | bool (b : Bool)
  | number (n : Option Number)
  | string (s : Option String)
deriving DecidableEq, Repr

/-- A character of a string, or a 16-bit unit from an escape that is half of a
surrogate pair. -/
inductive StringPart where
  | char (c : Char)
  | half (unit : Nat)
deriving DecidableEq, Repr

namespace StringPart

def isHigh (unit : Nat) : Bool := decide (0xD800 ≤ unit) && decide (unit ≤ 0xDBFF)

def isLow (unit : Nat) : Bool := decide (0xDC00 ≤ unit) && decide (unit ≤ 0xDFFF)

/-- What an escaped unit stands for. -/
def ofUnit (unit : Nat) : StringPart :=
  if isHigh unit || isLow unit then .half unit else .char (Char.ofNat unit)

def paired (high low : Nat) : Char :=
  Char.ofNat (0x10000 + (high - 0xD800) * 0x400 + (low - 0xDC00))

/-- The characters of a string: the halves have to come in pairs, high before low. -/
def chars? : List StringPart → Option (List Char)
  | [] => some []
  | .char c :: rest => (chars? rest).map (c :: ·)
  | .half h :: .half l :: rest =>
    if isHigh h && isLow l then (chars? rest).map (paired h l :: ·) else none
  | .half _ :: _ => none

end StringPart

def hexDigit (n : Nat) : Char := if n < 10 then Char.ofNat (48 + n) else Char.ofNat (87 + n)

/-- A character inside a string's quotes.  Only the quote, the backslash and control
characters are escaped. -/
def escape (c : Char) : List Char :=
  if c = '"' then ['\\', '"']
  else if c = '\\' then ['\\', '\\']
  else if c = '\n' then ['\\', 'n']
  else if c = '\r' then ['\\', 'r']
  else if c = '\t' then ['\\', 't']
  else if c = '\x08' then ['\\', 'b']
  else if c = '\x0c' then ['\\', 'f']
  else if c.toNat < 0x20 then
    ['\\', 'u', '0', '0', hexDigit (c.toNat / 16), hexDigit (c.toNat % 16)]
  else [c]

namespace Token

/-- The written form.  A token without a value is written as null. -/
def text : Token → List Char
  | beginArray => ['[']
  | endArray => [']']
  | beginObject => ['{']
  | endObject => ['}']
  | colon => [':']
  | comma => [',']
  | null => "null".toList
  | bool true => "true".toList
  | bool false => "false".toList
  | number (some (.whole n)) => (toString n).toList
  | number (some (.real x)) => (Decimal.floatText? x).getD "null".toList
  | number none => "null".toList
  | string (some s) => '"' :: (s.toList.flatMap escape ++ ['"'])
  | string none => "null".toList

def ofWord? (cs : List Char) : Option Token :=
  if cs = "null".toList then some null
  else if cs = "true".toList then some (bool true)
  else if cs = "false".toList then some (bool false)
  else none

def ofNumeral? (cs : List Char) : Option Token :=
  (Numeral.ofChars? cs).map fun s => number s.value?

def ofParts (parts : List StringPart) : Token :=
  string ((StringPart.chars? parts).map String.ofList)

end Token

end Json
end Unrouted
