/-!
The shortest decimal that reads back as a given binary64 number.  A decimal reads
back when it lies in the interval of the numbers that round to the given one; on
each decimal grid only the two neighbours of the number need a look, and the coarsest
grid with a hit gives the fewest digits.
-/

namespace Unrouted

/-- `digits * 10 ^ exponent`. -/
structure Decimal where
  digits : Nat
  exponent : Int
deriving DecidableEq, Repr

namespace Decimal

def twoToThe (e : Int) : Rat :=
  if 0 ≤ e then (1 <<< e.toNat : Nat) else mkRat 1 (1 <<< e.natAbs)

def tenToThe (e : Int) : Rat :=
  if 0 ≤ e then (Nat.pow 10 e.toNat : Nat) else mkRat 1 (Nat.pow 10 e.natAbs)

/-- The numbers that round to one binary64 number.  The ends belong to it when
`closed`. -/
structure Interval where
  low : Rat
  middle : Rat
  high : Rat
  closed : Bool

def Interval.holds (i : Interval) (x : Rat) : Bool :=
  if i.closed then decide (i.low ≤ x) && decide (x ≤ i.high)
  else decide (i.low < x) && decide (x < i.high)

/-- The interval of a positive finite number, from its pattern.  Below a power of two
the numbers are twice as dense as above, so its lower half is half as long. -/
def Interval.ofBits (bits : UInt64) : Interval :=
  let field := (bits.toNat >>> 52) % 2048
  let fraction := bits.toNat % (1 <<< 52)
  let m := if field = 0 then fraction else fraction + 1 <<< 52
  let e : Int := if field = 0 then -1074 else field - 1075
  let unit := twoToThe (e - 2)
  let below := if fraction = 0 ∧ 1 < field then 1 else 2
  { low := ((4 * m - below : Nat) : Rat) * unit, middle := ((4 * m : Nat) : Rat) * unit,
    high := ((4 * m + 2 : Nat) : Rat) * unit, closed := m % 2 == 0 }

/-- The grid neighbour in the interval, the nearer of two and the even one of two at
equal distance. -/
def onGrid? (i : Interval) (e : Int) : Option Decimal :=
  let step := tenToThe e
  let below := (i.middle / step).floor.toNat
  let above := below + 1
  let lowHit := below ≠ 0 && i.holds (below * step)
  let highHit := i.holds (above * step)
  let lowGap := i.middle - below * step
  let highGap := above * step - i.middle
  if lowHit && (!highHit || decide (lowGap < highGap) ||
      (decide (lowGap = highGap) && below % 2 == 0)) then some { digits := below, exponent := e }
  else if highHit then some { digits := above, exponent := e }
  else none

/-- Looks at ever finer grids. -/
def search (i : Interval) : Nat → Int → Decimal
  | 0, e => { digits := 0, exponent := e }
  | steps + 1, e => (onGrid? i e).getD (search i steps (e - 1))

/-- The shortest decimal for a positive finite number.  The search starts above the
first digit; the finest grid that is ever needed is that of `5e-324`. -/
def ofBits (bits : UInt64) : Decimal :=
  let i := Interval.ofBits bits
  let start := (Nat.toDigits 10 i.middle.floor.toNat).length
  search i (start + 325) start

def zeros (n : Nat) : List Char := List.replicate n '0'

/-- The written form.  The point stands among or beside the digits while the first
digit is at most 16 places before it and at most 5 places after it; otherwise there is
an exponent.  A number without an exponent always has a point. -/
def text (d : Decimal) : List Char :=
  let ds := Nat.toDigits 10 d.digits
  let places := ds.length + d.exponent
  if 0 ≤ d.exponent ∧ places ≤ 16 then ds ++ zeros d.exponent.toNat ++ ['.', '0']
  else if 0 < places ∧ places ≤ 16 then
    ds.take places.toNat ++ '.' :: ds.drop places.toNat
  else if -5 < places ∧ places ≤ 0 then
    '0' :: '.' :: (zeros places.natAbs ++ ds)
  else
    let mark := 'e' :: (toString (places - 1)).toList
    match ds with
    | [d] => d :: mark
    | d :: rest => d :: '.' :: (rest ++ mark)
    | [] => mark

/-- The written form of any binary64 number.  What is not finite has none. -/
def floatText? (x : Float) : Option (List Char) :=
  if !x.isFinite then none
  else
    let bits := x.toBits
    let size := bits &&& 0x7FFFFFFFFFFFFFFF
    let body := if size = 0 then ['0', '.', '0'] else (ofBits size).text
    some (if bits = size then body else '-' :: body)

end Decimal

end Unrouted
