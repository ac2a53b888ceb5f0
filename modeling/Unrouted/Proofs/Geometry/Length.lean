import Unrouted.Geometry.Length

/-!
Rounding does not lose a positive number, so only equal points are at distance zero.
-/

namespace Unrouted
namespace Rounding

/-- The last place of a positive number is at most the number. -/
theorem lastPlace_le {n : Nat} (h : 0 < n) : lastPlace n ≤ n := by
  have hle : 2 ^ (n.log2 - 52) ≤ 2 ^ n.log2 := Nat.pow_le_pow_right (by omega) (by omega)
  have hlog := Nat.log2_self_le (show n ≠ 0 by omega)
  rw [lastPlace, Nat.one_shiftLeft]
  omega

theorem lastPlace_pos (n : Nat) : 0 < lastPlace n := by
  rw [lastPlace, Nat.one_shiftLeft]
  exact Nat.two_pow_pos _

theorem le_nearest (n d : Nat) : n / d ≤ nearest n d := by
  simp only [nearest]
  split
  · exact Nat.le_refl _
  · split <;> omega

theorem roundNat_pos {n : Nat} (h : 0 < n) : 0 < roundNat n := by
  have hu := lastPlace_pos n
  have hq : 0 < n / lastPlace n := Nat.div_pos (lastPlace_le h) hu
  have hnear := le_nearest n (lastPlace n)
  simp only [roundNat, roundQuotient, Nat.div_one, Nat.one_mul]
  exact Nat.mul_pos (by omega) hu

/- The guess stays positive: while it is at most the number, the quotient is too. -/
theorem rootFrom_pos {n : Nat} (h : 0 < n) (steps : Nat) {guess : Nat} (hguess : 0 < guess) :
    0 < rootFrom n steps guess := by
  induction steps generalizing guess with
  | zero => exact hguess
  | succ steps ih =>
    simp only [rootFrom]
    split
    · apply ih
      by_cases hle : guess ≤ n
      · have hq : 0 < n / guess := Nat.div_pos hle hguess
        omega
      · have hq : n / guess = 0 := Nat.div_eq_of_lt (by omega)
        omega
    · exact hguess

theorem floorRoot_pos {n : Nat} (h : 0 < n) : 0 < floorRoot n := by
  unfold floorRoot
  split
  · exact h
  · apply rootFrom_pos h
    rw [Nat.one_shiftLeft]
    exact Nat.two_pow_pos _

theorem roundRoot_pos {n : Nat} (h : 0 < n) : 0 < roundRoot n := by
  have hroot := floorRoot_pos h
  have hu := lastPlace_pos (floorRoot n)
  have hq : 0 < floorRoot n / lastPlace (floorRoot n) := Nat.div_pos (lastPlace_le hroot) hu
  simp only [roundRoot]
  split
  · exact Nat.mul_pos (by omega) hu
  · exact Nat.mul_pos hq hu

end Rounding

theorem Length.le_antisymm {v w : Length} (hvw : v ≤ w) (hwv : w ≤ v) : v = w := by
  cases v
  cases w
  exact congrArg mk (Nat.le_antisymm hvw hwv)

theorem Length.ofSquare_pos {n : Nat} (h : 0 < n) : Length.zero < Length.ofSquare n := by
  have hscaled : 0 < n <<< 104 := by
    rw [Nat.shiftLeft_eq]
    exact Nat.mul_pos h (Nat.two_pow_pos 104)
  have hroot := Rounding.roundRoot_pos hscaled
  simp only [Length.lt_iff, Length.zero, Length.ofSquare]
  exact hroot

namespace Point

theorem gapSq_pos {a b : Int32} (h : a ≠ b) : 0 < gapSq a b := by
  apply Rounding.roundNat_pos
  have hne : b.toInt - a.toInt ≠ 0 := by
    intro e
    exact h (Int32.toInt_inj.1 (by omega))
  have hgap : 0 < (b.toInt - a.toInt).natAbs := Int.natAbs_pos.2 hne
  exact Nat.mul_pos hgap hgap

theorem distance_self (p : Point) : p.distance p = Length.zero := by
  have hgap (a : Int32) : gapSq a a = 0 := by
    rw [gapSq, Int.sub_self]
    rfl
  rw [distance, distanceSq, hgap, hgap]
  rfl

theorem distance_pos {p q : Point} (h : p ≠ q) : Length.zero < p.distance q := by
  have hgap : 0 < gapSq p.x q.x + gapSq p.y q.y := by
    by_cases hx : p.x = q.x
    · have hy : p.y ≠ q.y := by
        intro hy
        cases p
        cases q
        exact h (by simp_all)
      have hpos := gapSq_pos hy
      omega
    · have hpos := gapSq_pos hx
      omega
  have hsquare : 0 < p.distanceSq q := Rounding.roundNat_pos hgap
  exact Length.ofSquare_pos hsquare

end Point
end Unrouted
