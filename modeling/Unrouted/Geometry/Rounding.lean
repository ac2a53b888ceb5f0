/-!
Rounding to 53 significant bits, to nearest and with ties to the even neighbour.
Every whole number below 2 ^ 53 is kept.  No exponent is too large or too small
here: the values of this library stay far inside the range of a binary64 number,
so rounding the significand is all that binary64 arithmetic does to them.
-/

namespace Unrouted
namespace Rounding

/-- The whole number nearest to `n / d`, the even one of two at equal distance. -/
def nearest (n d : Nat) : Nat :=
  let q := n / d
  let r := n % d
  if 2 * r < d then q else if d < 2 * r then q + 1 else q + q % 2

/-- The value of the last of 53 binary places of a number with whole part `n`,
or one when the number has no more than 53 places before the point. -/
def lastPlace (n : Nat) : Nat := 1 <<< (n.log2 - 52)

/-- `n / d` with 53 significant bits.  The quotient is a whole number or at least
`2 ^ 52`: no place after the point is kept. -/
def roundQuotient (n d : Nat) : Nat :=
  let u := lastPlace (n / d)
  nearest n (d * u) * u

def roundNat (n : Nat) : Nat := roundQuotient n 1

/-- A rational number with 53 significant bits.  The shift makes the quotient of
a nonzero number at least `2 ^ 52`. -/
def roundRat (x : Rat) : Rat :=
  let s := x.den.log2 + 53
  mkRat (x.num.sign * (roundQuotient (x.num.natAbs <<< s) x.den : Nat)) (1 <<< s)

/- The square root is Newton's iteration from above; `guess` itself bounds the
number of steps, because each step but the last makes it smaller. -/
def rootFrom (n : Nat) : Nat → Nat → Nat
  | 0, guess => guess
  | steps + 1, guess =>
    let next := (guess + n / guess) / 2
    if next < guess then rootFrom n steps next else guess

/-- The whole part of the square root. -/
def floorRoot (n : Nat) : Nat :=
  if n ≤ 1 then n else
    let guess := 1 <<< (n.log2 / 2 + 1)
    rootFrom n guess guess

/-- The square root of `n` with 53 significant bits, for `n` at least `2 ^ 104`.
There is no tie when `n` is an even power of two times a number with at most 53
significant bits: the square of a number with 54 significant bits has more. -/
def roundRoot (n : Nat) : Nat :=
  let u := lastPlace (floorRoot n)
  let q := floorRoot n / u
  let middle := (2 * q + 1) * u
  if middle * middle < 4 * n then (q + 1) * u else q * u

end Rounding
end Unrouted
