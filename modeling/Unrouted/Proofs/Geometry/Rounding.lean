import Mathlib.Algebra.Order.Field.Rat
import Mathlib.Tactic.FieldSimp
import Mathlib.Tactic.Linarith
import Mathlib.Tactic.Positivity
import Unrouted.Proofs.Geometry.Length
import Unrouted.Proofs.Geometry.Whole

/-!
How far rounding moves a number: by no more than one part in `2 ^ 53`, and a whole number of at
most 53 places not at all.
-/

namespace Unrouted
namespace Rounding

/-! ## Quotients -/

/-- The nearest whole number is at most half of one away. -/
theorem nearest_near (n : Nat) {d : Nat} (hd : 0 < d) :
    2 * (nearest n d * d) ≤ 2 * n + d ∧ 2 * n ≤ 2 * (nearest n d * d) + d := by
  have hdiv : n / d * d + n % d = n := Nat.div_add_mod' n d
  have hmod : n % d < d := Nat.mod_lt n hd
  simp only [nearest]
  split
  · omega
  · split
    · rw [Nat.add_mul, Nat.one_mul]
      omega
    -- A tie: either neighbour is at half the distance.
    · rcases Nat.mod_two_eq_zero_or_one (n / d) with hparity | hparity
      · rw [hparity, Nat.add_zero]
        omega
      · rw [hparity, Nat.add_mul, Nat.one_mul]
        omega

theorem nearest_mul (k : Nat) {d : Nat} (hd : 0 < d) : nearest (k * d) d = k := by
  simp [nearest, Nat.mul_div_cancel k hd, hd]

theorem lastPlace_mul_le {n : Nat} (h : 2 ^ 52 ≤ n) : lastPlace n * 2 ^ 52 ≤ n := by
  have hne : n ≠ 0 := by omega
  have hlog : 52 ≤ n.log2 := (Nat.le_log2 hne).2 h
  rw [lastPlace, Nat.one_shiftLeft, ← Nat.pow_add, Nat.sub_add_cancel hlog]
  exact Nat.log2_self_le hne

/-- A quotient with places to spare is moved by at most one part in `2 ^ 53`. -/
theorem roundQuotient_near {n d : Nat} (hd : 0 < d) (h : 2 ^ 52 * d ≤ n) :
    2 ^ 53 * (roundQuotient n d * d) ≤ 2 ^ 53 * n + n ∧
      2 ^ 53 * n ≤ 2 ^ 53 * (roundQuotient n d * d) + n := by
  let u := lastPlace (n / d)
  have hplace : d * u * 2 ^ 52 ≤ n := by
    have hu : u * 2 ^ 52 ≤ n / d := lastPlace_mul_le ((Nat.le_div_iff_mul_le hd).2 h)
    calc d * u * 2 ^ 52 = u * 2 ^ 52 * d := by ring
      _ ≤ n / d * d := Nat.mul_le_mul_right d hu
      _ ≤ n := Nat.div_mul_le_self n d
  obtain ⟨hhigh, hlow⟩ := nearest_near n (Nat.mul_pos hd (lastPlace_pos (n / d)))
  have hvalue : roundQuotient n d * d = nearest n (d * u) * (d * u) := by
    rw [roundQuotient]
    ring
  rw [hvalue]
  change 2 * (nearest n (d * u) * (d * u)) ≤ 2 * n + d * u at hhigh
  change 2 * n ≤ 2 * (nearest n (d * u) * (d * u)) + d * u at hlow
  omega

/-! ## Rational numbers -/

theorem roundRat_eq (x : Rat) :
    roundRat x =
      x.num.sign * roundQuotient (x.num.natAbs * 2 ^ (x.den.log2 + 53)) x.den /
        2 ^ (x.den.log2 + 53) := by
  rw [roundRat, Rat.mkRat_eq_div, Nat.shiftLeft_eq, Nat.one_shiftLeft]
  push_cast
  rfl

theorem roundRat_zero : roundRat 0 = 0 := by
  rw [roundRat_eq, Rat.num_zero, Int.sign_zero, Int.cast_zero, zero_mul, zero_div]

/-- Rounding moves a number by at most one part in `2 ^ 53`. -/
theorem abs_roundRat_sub_le (x : Rat) : |roundRat x - x| ≤ |x| / 2 ^ 53 := by
  by_cases hzero : x = 0
  · rw [hzero, roundRat_zero]
    norm_num
  let s := x.den.log2 + 53
  let n := x.num.natAbs * 2 ^ s
  have hsize : 2 ^ 52 * x.den ≤ n := by
    have hden : x.den < 2 ^ (x.den.log2 + 1) := Nat.lt_log2_self
    have hnum : 0 < x.num.natAbs := Int.natAbs_pos.2 (Rat.num_ne_zero.2 hzero)
    calc 2 ^ 52 * x.den ≤ 2 ^ 52 * 2 ^ (x.den.log2 + 1) := Nat.mul_le_mul_left _ hden.le
      _ = 2 ^ s := by rw [← Nat.pow_add, Nat.add_comm 52, Nat.add_assoc]
      _ ≤ n := Nat.le_mul_of_pos_left _ hnum
  obtain ⟨hhigh, hlow⟩ := roundQuotient_near x.den_pos hsize
  have hden : (0 : Rat) < x.den := Nat.cast_pos.2 x.den_pos
  have hscale : (0 : Rat) < 2 ^ s := by positivity
  have hvalue : x = x.num.sign * (n / (x.den * 2 ^ s)) := by
    have hnum : (x.num : Rat) = x.num.sign * x.num.natAbs := by
      rw [← Int.cast_natCast, ← Int.cast_mul, Int.sign_mul_natAbs]
    rw [Nat.cast_mul, Nat.cast_pow, Nat.cast_ofNat, mul_div_mul_right _ _ hscale.ne',
      ← mul_div_assoc, ← hnum, Rat.num_div_den]
  have hsign : |(x.num.sign : Rat)| = 1 := by
    rw [← Int.cast_abs, Int.abs_sign_of_ne_zero (Rat.num_ne_zero.2 hzero), Int.cast_one]
  have hquotient : |(roundQuotient n x.den * x.den - n : Rat)| ≤ n / 2 ^ 53 := by
    have hhigh : (2 ^ 53 * (roundQuotient n x.den * x.den) : Rat) ≤ 2 ^ 53 * n + n := by
      exact_mod_cast hhigh
    have hlow : (2 ^ 53 * n : Rat) ≤ 2 ^ 53 * (roundQuotient n x.den * x.den) + n := by
      exact_mod_cast hlow
    rw [abs_le]
    constructor <;> linarith
  have hdifference : roundRat x - x =
      x.num.sign * ((roundQuotient n x.den * x.den - n) / (x.den * 2 ^ s)) := by
    have hround : roundRat x = x.num.sign * roundQuotient n x.den / 2 ^ s := roundRat_eq x
    refine (congrArg₂ (· - ·) hround hvalue).trans ?_
    field_simp
  have habs : |x| = n / (x.den * 2 ^ s) := by
    refine (congrArg abs hvalue).trans ?_
    rw [abs_mul, hsign, one_mul, abs_of_nonneg (by positivity)]
  rw [hdifference, habs, abs_mul, hsign, one_mul, abs_div, abs_of_pos (mul_pos hden hscale),
    div_right_comm]
  exact div_le_div_of_nonneg_right hquotient (mul_pos hden hscale).le

/-- A whole number below `2 ^ 53` stays as it is. -/
theorem roundRat_intCast {z : Int} (h : z.natAbs < 2 ^ 53) : roundRat z = z := by
  by_cases hzero : z = 0
  · rw [hzero, Int.cast_zero, roundRat_zero]
  let k := z.natAbs
  have hk : 0 < k := Int.natAbs_pos.2 hzero
  have hlog : k.log2 ≤ 52 := Binary64.log2_le_of_lt hk h
  -- The last place is far behind the point, so the scaled number is a multiple of it.
  have hplace : lastPlace (k * 2 ^ 53) = 2 ^ (k.log2 + 1) := by
    rw [lastPlace, Binary64.log2_mul_two_pow hk, Nat.one_shiftLeft]
    congr 1
  have hmultiple : k * 2 ^ 53 = k * 2 ^ (52 - k.log2) * 2 ^ (k.log2 + 1) := by
    rw [mul_assoc, ← Nat.pow_add]
    congr 2
    omega
  have hquotient : roundQuotient (k * 2 ^ 53) 1 = k * 2 ^ 53 := by
    rw [roundQuotient, Nat.div_one, Nat.one_mul, hplace, hmultiple,
      nearest_mul _ (Nat.two_pow_pos _)]
  have hround : roundRat z = z.sign * roundQuotient (k * 2 ^ 53) 1 / 2 ^ 53 := roundRat_eq z
  rw [hround, hquotient, Nat.cast_mul, Nat.cast_pow, Nat.cast_ofNat, ← mul_assoc,
    mul_div_cancel_right₀ _ (by norm_num), ← Int.cast_natCast, ← Int.cast_mul,
    Int.sign_mul_natAbs]

/-- A quotient that is rounded after its numerator was. -/
theorem abs_roundRat_div_sub_le (a c : Rat) :
    |roundRat (roundRat a / c) - a / c| ≤ 3 * |a / c| / 2 ^ 53 := by
  let q := roundRat a / c
  have hfirst : |q - a / c| ≤ |a / c| / 2 ^ 53 := by
    calc |q - a / c| = |roundRat a - a| / |c| := by rw [← sub_div, abs_div]
      _ ≤ |a| / 2 ^ 53 / |c| := div_le_div_of_nonneg_right (abs_roundRat_sub_le a) (abs_nonneg c)
      _ = |a / c| / 2 ^ 53 := by rw [abs_div, div_right_comm]
  have hsecond : |roundRat q - q| ≤ |q| / 2 ^ 53 := abs_roundRat_sub_le q
  have hsize : |q| ≤ |q - a / c| + |a / c| := by
    simpa using abs_add_le (q - a / c) (a / c)
  have htotal := abs_sub_le (roundRat q) q (a / c)
  have hnonneg := abs_nonneg (a / c)
  linarith

/-- What is close to a number is on the same side of every number that is farther away. -/
theorem lt_iff_of_abs_sub_lt {a b c : Rat} (h : |a - b| < |c - b|) : c < a ↔ c < b := by
  constructor
  · intro hlt
    by_contra hge
    have hab := le_abs_self (a - b)
    rw [abs_of_nonneg (sub_nonneg.2 (not_lt.1 hge))] at h
    linarith
  · intro hlt
    have hab := neg_abs_le (a - b)
    rw [abs_of_neg (sub_neg.2 hlt)] at h
    linarith

end Rounding
end Unrouted
