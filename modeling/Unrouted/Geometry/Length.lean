import Unrouted.Geometry.Point
import Unrouted.Geometry.Rounding

/-!
Distances between points as binary64 arithmetic gives them: the two squares, their
sum and the root are each rounded to 53 significant bits.  The squared distance is
a whole number.  A distance is zero or at least one, so its last binary place is
at least `2 ^ -52`, and a length is a whole number of these units.
-/

namespace Unrouted

/-- A length in units of `2 ^ -52`. -/
structure Length where
  units : Nat
deriving DecidableEq, Repr, Inhabited

namespace Length

instance : LE Length := ⟨fun a b => a.units ≤ b.units⟩

instance : LT Length := ⟨fun a b => a.units < b.units⟩

instance (a b : Length) : Decidable (a ≤ b) := inferInstanceAs (Decidable (a.units ≤ b.units))

instance (a b : Length) : Decidable (a < b) := inferInstanceAs (Decidable (a.units < b.units))

def zero : Length := { units := 0 }

/-- The root of a whole number; the number is scaled by `2 ^ 104`, its root by
`2 ^ 52`. -/
def ofSquare (n : Nat) : Length := { units := Rounding.roundRoot (n <<< 104) }

/-- The binary64 pattern.  A positive length has its leading bit at place
`e ≥ 52`, so its exponent field is `e - 52 + 1023`, and the 52 bits after the
leading one fill the fraction field. -/
def bits (l : Length) : UInt64 :=
  if l.units = 0 then 0 else
    let e := l.units.log2
    UInt64.ofNat ((e + 971) <<< 52 + (l.units <<< 52 >>> e - 1 <<< 52))

/-- The same number among the floating-point numbers. -/
def toFloat (l : Length) : Float := Float.ofBits l.bits

theorem le_iff {a b : Length} : a ≤ b ↔ a.units ≤ b.units := Iff.rfl

theorem lt_iff {a b : Length} : a < b ↔ a.units < b.units := Iff.rfl

end Length

namespace Point

/-- The square of the difference of two coordinates, with 53 significant bits. -/
def gapSq (a b : Int32) : Nat :=
  let gap := (b.toInt - a.toInt).natAbs
  Rounding.roundNat (gap * gap)

def distanceSq (p q : Point) : Nat := Rounding.roundNat (gapSq p.x q.x + gapSq p.y q.y)

def distance (p q : Point) : Length := Length.ofSquare (p.distanceSq q)

theorem gapSq_comm (a b : Int32) : gapSq a b = gapSq b a := by
  simp only [gapSq, ← Int.natAbs_neg (b.toInt - a.toInt), Int.neg_sub]

theorem distanceSq_comm (p q : Point) : p.distanceSq q = q.distanceSq p := by
  simp only [distanceSq, gapSq_comm]

theorem distance_comm (p q : Point) : p.distance q = q.distance p := by
  simp only [distance, distanceSq_comm]

end Point

end Unrouted
