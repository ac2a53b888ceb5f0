import Unrouted.Json.Basic

/-!
Reading values of known shape.  A record is written as an object, whose unknown keys
are passed over, or as an array of its values in the declared order, whose last
values may be left out when they have a default.
-/

namespace Unrouted
namespace Json

inductive DecodeError where
  | notJson
  | illegible
  | tooDeep
  | expected (what : String)
  | missing (field : String)
  | repeated (field : String)
  | tooMany
  | unknown (what : String)
deriving DecidableEq, Repr

namespace DecodeError

def message : DecodeError → String
  | notJson => "not a JSON text"
  | illegible => "a string or a number without a value"
  | tooDeep => "too many nested values"
  | expected what => "expected " ++ what
  | missing field => "missing field " ++ field
  | repeated field => "repeated field " ++ field
  | tooMany => "too many values"
  | unknown what => "unknown " ++ what

end DecodeError

abbrev Decoded (α : Type) := Except DecodeError α

def toUInt64 : Json → Decoded UInt64
  | .number (.whole n) =>
    if 0 ≤ n ∧ n.toNat < UInt64.size then .ok (UInt64.ofNat n.toNat)
    else .error (.expected "a number of 64 bits")
  | _ => .error (.expected "a number of 64 bits")

def toInt32 : Json → Decoded Int32
  | .number (.whole n) =>
    if Int32.minValue.toInt ≤ n ∧ n ≤ Int32.maxValue.toInt then .ok (Int32.ofInt n)
    else .error (.expected "a number of 32 bits")
  | _ => .error (.expected "a number of 32 bits")

def toBool : Json → Decoded Bool
  | .bool b => .ok b
  | _ => .error (.expected "true or false")

def toText : Json → Decoded String
  | .string s => .ok s
  | _ => .error (.expected "a string")

def toList {α : Type} (decode : Json → Decoded α) : Json → Decoded (List α)
  | .array items => items.mapM decode
  | _ => .error (.expected "an array")

/-- Null stands for an absent value. -/
def toOption {α : Type} (decode : Json → Decoded α) : Json → Decoded (Option α)
  | .null => .ok none
  | j => (decode j).map some

/-- One of some names, as a string or as the only key of an object whose value is
null. -/
def toName : Json → Decoded String
  | .string s => .ok s
  | .object [(s, .null)] => .ok s
  | _ => .error (.expected "a name")

/-- A value that is kept as it is.  It nests at most `limit` arrays and objects. -/
def keep (limit : Nat) (j : Json) : Decoded Json :=
  if !j.legible then .error .illegible
  else if limit < j.depth then .error .tooDeep
  else .ok j.settle

/-- The fields of a record that were given. -/
structure Record where
  fields : List (String × Json)

namespace Record

def ofJson (names : List String) : Json → Decoded Record
  | .object fields =>
    let known := fields.filter fun f => names.contains f.1
    match names.find? fun name => decide (1 < known.countP fun f => f.1 == name) with
    | some name => .error (.repeated name)
    | none => .ok { fields := known }
  | .array items =>
    if names.length < items.length then .error .tooMany
    else .ok { fields := names.zip items }
  | _ => .error (.expected "an object or an array")

def find? (r : Record) (name : String) : Option Json :=
  (r.fields.find? fun f => f.1 == name).map Prod.snd

def required {α : Type} (r : Record) (name : String) (decode : Json → Decoded α) : Decoded α :=
  match r.find? name with
  | some j => decode j
  | none => .error (.missing name)

def optional {α : Type} (r : Record) (name : String) (default : α)
    (decode : Json → Decoded α) : Decoded α :=
  match r.find? name with
  | some j => decode j
  | none => .ok default

end Record

end Json
end Unrouted
