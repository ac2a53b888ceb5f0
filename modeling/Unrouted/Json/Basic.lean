import Unrouted.Json.Token

/-!
JSON values.  An object keeps its fields in order, and a key may stand in it more
than once; `settle` leaves the last field of each key.
-/

namespace Unrouted

inductive Json where
  | null
  | bool (b : Bool)
  | number (n : Json.Number)
  | string (s : String)
  | array (items : List Json)
  | object (fields : List (String × Json))
  /-- A well-formed part of a text that stands for no value.  It does no harm where
  nobody reads it. -/
  | illegible
deriving Inhabited

namespace Json

/- The recursions over a value run through its lists of items and fields. -/
mutual

/-- Every part stands for a value. -/
def legible : Json → Bool
  | array items => allLegible items
  | object fields => allFieldsLegible fields
  | illegible => false
  | _ => true

def allLegible : List Json → Bool
  | [] => true
  | j :: rest => j.legible && allLegible rest

def allFieldsLegible : List (String × Json) → Bool
  | [] => true
  | (_, j) :: rest => j.legible && allFieldsLegible rest

end

mutual

/-- How many arrays and objects are nested around the innermost value. -/
def depth : Json → Nat
  | array items => greatestDepth items + 1
  | object fields => greatestFieldDepth fields + 1
  | _ => 0

def greatestDepth : List Json → Nat
  | [] => 0
  | j :: rest => max j.depth (greatestDepth rest)

def greatestFieldDepth : List (String × Json) → Nat
  | [] => 0
  | (_, j) :: rest => max j.depth (greatestFieldDepth rest)

end

/-- Puts a field into a list ordered by key, over the field of the same key. -/
def putField (key : String) (value : Json) : List (String × Json) → List (String × Json)
  | [] => [(key, value)]
  | (k, v) :: rest =>
    if key < k then (key, value) :: (k, v) :: rest
    else if key = k then (key, value) :: rest
    else (k, v) :: putField key value rest

/-- Fields in the order of their keys, the last one of each key. -/
def orderFields (fields : List (String × Json)) : List (String × Json) :=
  fields.foldl (fun done f => putField f.1 f.2 done) []

mutual

/-- The same value with ordered fields in all its objects. -/
def settle : Json → Json
  | array items => array (settleItems items)
  | object fields => object (orderFields (settleFields fields))
  | j => j

def settleItems : List Json → List Json
  | [] => []
  | j :: rest => j.settle :: settleItems rest

def settleFields : List (String × Json) → List (String × Json)
  | [] => []
  | (k, j) :: rest => (k, j.settle) :: settleFields rest

end

mutual

def tokens : Json → List Token
  | null => [.null]
  | bool b => [.bool b]
  | number n => [.number (some n)]
  | string s => [.string (some s)]
  | array items => .beginArray :: (itemTokens items ++ [.endArray])
  | object fields => .beginObject :: (fieldTokens fields ++ [.endObject])
  | illegible => [.null]

def itemTokens : List Json → List Token
  | [] => []
  | [j] => j.tokens
  | j :: rest => j.tokens ++ .comma :: itemTokens rest

def fieldTokens : List (String × Json) → List Token
  | [] => []
  | [(k, j)] => .string (some k) :: .colon :: j.tokens
  | (k, j) :: rest => .string (some k) :: .colon :: (j.tokens ++ .comma :: fieldTokens rest)

end

/-- The written form without blanks. -/
def text (j : Json) : String := String.ofList (j.tokens.flatMap Token.text)

def ofNat (n : Nat) : Json := number (.whole n)

def ofUInt64 (n : UInt64) : Json := ofNat n.toNat

def ofInt (n : Int) : Json := number (.whole n)

end Json

end Unrouted
