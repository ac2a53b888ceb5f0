/-!
Numbers of JSON texts.  A numeral without a point and an exponent is a whole number
when it fits 64 bits, with the sign taken into account; every other numeral, and the
numeral `-0`, stands for a binary64 number.
-/

namespace Unrouted
namespace Json

inductive Number where
  /-- At least `-2 ^ 63` and less than `2 ^ 64`. -/
  | whole (n : Int)
  | real (x : Float)
deriving DecidableEq, Repr

/-- A numeral by its digits.  An absent fraction is empty, because a present one has
a digit. -/
structure Numeral where
  negative : Bool
  whole : List Nat
  fraction : List Nat
  /-- The sign and the digits of the exponent. -/
  exponent : Option (Bool × List Nat)
deriving DecidableEq, Repr

namespace Numeral

def digits (cs : List Char) : List Nat := cs.map fun c => c.toNat - '0'.toNat

def leading (cs : List Char) : List Char := cs.takeWhile Char.isDigit

def afterLeading (cs : List Char) : List Char := cs.dropWhile Char.isDigit

def sign : List Char → Bool × List Char
  | '-' :: rest => (true, rest)
  | cs => (false, cs)

/-- Only the number zero begins with the digit zero. -/
def goodWhole : List Char → Bool
  | [] => false
  | ['0'] => true
  | '0' :: _ => false
  | _ => true

/-- A point is followed by a digit. -/
def fractionPart? : List Char → Option (List Char × List Char)
  | '.' :: rest =>
    if (leading rest).isEmpty then none else some (leading rest, afterLeading rest)
  | rest => some ([], rest)

/-- An exponent has a digit, and nothing follows it. -/
def exponentDigits? (negative : Bool) (cs : List Char) : Option (Option (Bool × List Nat)) :=
  if !cs.isEmpty && cs.all Char.isDigit then some (some (negative, digits cs)) else none

def exponentPart? : List Char → Option (Option (Bool × List Nat))
  | [] => some none
  | e :: rest =>
    if e = 'e' ∨ e = 'E' then
      match rest with
      | '+' :: ds => exponentDigits? false ds
      | '-' :: ds => exponentDigits? true ds
      | ds => exponentDigits? false ds
    else none

/-- Takes a numeral apart; `none` when the characters are not one. -/
def ofChars? (cs : List Char) : Option Numeral :=
  let (negative, cs) := sign cs
  if goodWhole (leading cs) then
    match fractionPart? (afterLeading cs) with
    | none => none
    | some (fraction, rest) =>
      (exponentPart? rest).map fun exponent =>
        { negative, whole := digits (leading cs), fraction := digits fraction, exponent }
  else none

def largest : Nat := 0xFFFFFFFFFFFFFFFF

/-- Appends decimal digits to a number as long as it fits 64 bits.  Gives the number
and the digits from the first that did not fit. -/
def absorb (n : Nat) : List Nat → Nat × List Nat
  | [] => (n, [])
  | d :: rest => if n * 10 + d ≤ largest then absorb (n * 10 + d) rest else (n, d :: rest)

def tenToThe (k : Nat) : Float := Float.ofScientific 1 false k

/-- `x * 10 ^ e` by one multiplication or division, or by a division by `10 ^ 308`
for each of the steps that a very small number takes.  There is no value where the
result is too large. -/
def scale? (x : Float) (e : Int) : Option Float :=
  if e.natAbs ≤ 308 then
    if 0 ≤ e then
      let y := x * tenToThe e.toNat
      if y.isInf then none else some y
    else some (x / tenToThe e.natAbs)
  else if x == 0.0 then some x
  else if 0 ≤ e then none
  else scale? (x / tenToThe 308) (e + 308)
termination_by e.natAbs
decreasing_by omega

/-- The value of an exponent; `none` when it does not fit 31 bits. -/
def exponentValue? : Option (Bool × List Nat) → Option Int
  | none => some 0
  | some (negative, ds) =>
    let n : Nat := ds.foldl (fun n d => n * 10 + d) 0
    if n ≤ 0x7FFFFFFF then some (if negative then -(n : Int) else n) else none

/-- The magnitude of a numeral that is no whole number.  The first digits that fit
64 bits count in full; of the others before the point only their number counts, of
those after it nothing. -/
def magnitude? (s : Numeral) : Option Float :=
  let (n, dropped) := absorb 0 s.whole
  let (n, cut) := absorb n s.fraction
  let place : Int := ((dropped.length + cut.length : Nat) : Int) - (s.fraction.length : Int)
  match exponentValue? s.exponent with
  | some e => scale? (UInt64.ofNat n).toFloat (place + e)
  | none =>
    if n ≠ 0 && s.exponent.any (fun e => !e.1) then none else some 0.0

/-- The number a numeral stands for; `none` when it is too large for a binary64
number. -/
def value? (s : Numeral) : Option Number :=
  let (n, dropped) := absorb 0 s.whole
  if dropped.isEmpty && s.fraction.isEmpty && s.exponent.isNone then
    if !s.negative then some (.whole n)
    else if n ≠ 0 && decide (n ≤ 0x8000000000000000) then some (.whole (-n))
    else some (.real (-(UInt64.ofNat n).toFloat))
  else
    s.magnitude?.map fun x => .real (if s.negative then -x else x)

end Numeral

end Json
end Unrouted
