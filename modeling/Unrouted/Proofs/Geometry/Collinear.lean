import Unrouted.Geometry.Mesh
import Unrouted.Proofs.Geometry.Whole

/-!
Points on a line span no area.  Coordinates and their differences are whole numbers that
binary64 holds exactly.  A rounded product of two of them is known from the exact product, so
equal products leave no difference.
-/

namespace Unrouted
namespace Binary64

open Float.Model UnpackedFloat

/-! ## Products -/

theorem apply_mul_apply (s t : Sign) (k l : Nat) :
    s.apply k * t.apply l = (s * t).apply (k * l : Nat) := by
  push_cast
  cases s <;> cases t
  · exact Int.neg_mul_neg _ _
  · exact Int.neg_mul _ _
  · exact Int.mul_neg _ _
  · rfl

theorem apply_injective {s t : Sign} {k l : Nat} (hk : 0 < k) (h : s.apply k = t.apply l) :
    s = t ∧ k = l := by
  cases s <;> cases t <;> simp only [Sign.apply] at h
  · exact ⟨rfl, by omega⟩
  · omega
  · omega
  · exact ⟨rfl, by omega⟩

theorem apply_ne_zero (s : Sign) {k : Nat} (hk : 0 < k) : s.apply k ≠ 0 := by
  cases s <;> simp only [Sign.apply] <;> omega

/-- The number is what a whole one of at most 106 places is rounded to. -/
inductive Rounded : Int → UnpackedFloat → Prop
  | zero (s : Sign) : Rounded 0 (.zero s)
  | finite (s : Sign) {k : Nat} (hk : 0 < k) (hbits : k < 2 ^ 106) :
    Rounded (s.apply k) (roundWithAccuracy .binary64 s (k * 2 ^ 104) (-(104 : Nat)) .exact)

/-- The rounded product of two whole numbers other than zero is known from the exact one. -/
theorem mul_whole (s t : Sign) {k l : Nat} (hk : 0 < k) (hl : 0 < l) (hkbits : k.log2 ≤ 52)
    (hlbits : l.log2 ≤ 52) :
    UnpackedFloat.mul .binary64 (whole s hk) (whole t hl) =
      roundWithAccuracy .binary64 (s * t) (k * l * 2 ^ 104) (-(104 : Nat)) .exact := by
  let i := (52 - k.log2) + (52 - l.log2)
  have hpos : 0 < k * l := Nat.mul_pos hk hl
  have hmantissa : k * 2 ^ (52 - k.log2) * (l * 2 ^ (52 - l.log2)) = k * l * 2 ^ i := by
    rw [Nat.pow_add, Nat.mul_mul_mul_comm]
  have hexponent : -((52 - k.log2 : Nat) : Int) + -(52 - l.log2 : Nat) = -i := by omega
  have hlog : k.log2 + l.log2 ≤ (k * l).log2 := by
    rw [Nat.le_log2 (Nat.ne_of_gt hpos), Nat.pow_add]
    exact Nat.mul_le_mul (Nat.log2_self_le (Nat.ne_of_gt hk)) (Nat.log2_self_le (Nat.ne_of_gt hl))
  show roundWithAccuracy .binary64 (s * t)
    (k * 2 ^ (52 - k.log2) * (l * 2 ^ (52 - l.log2)))
    (-((52 - k.log2 : Nat) : Int) + -(52 - l.log2 : Nat)) .exact = _
  rw [hmantissa, hexponent]
  exact (roundWithAccuracy_scale (s * t) hpos (by omega) (by omega)).symm

theorem IsWhole.mul {u v : UnpackedFloat} {z w : Int} (hu : IsWhole u z) (hv : IsWhole v w) :
    Rounded (z * w) (UnpackedFloat.mul .binary64 u v) := by
  cases hu with
  | zero s =>
    rw [Int.zero_mul]
    cases hv with
    | zero t => exact .zero _
    | finite t _ _ => exact .zero _
  | @finite s k hk hkbits =>
    cases hv with
    | zero t =>
      rw [Int.mul_zero]
      exact .zero _
    | @finite t l hl hlbits =>
      have hklt : k < 2 ^ 53 := (Nat.log2_lt (Nat.ne_of_gt hk)).1 (Nat.lt_succ_of_le hkbits)
      have hllt : l < 2 ^ 53 := (Nat.log2_lt (Nat.ne_of_gt hl)).1 (Nat.lt_succ_of_le hlbits)
      have hproduct : k * l < 2 ^ 53 * 2 ^ 53 := Nat.mul_lt_mul'' hklt hllt
      rw [mul_whole s t hk hl hkbits hlbits, apply_mul_apply]
      exact .finite (s * t) (Nat.mul_pos hk hl) hproduct

/-! ## Differences -/

/-- Neither infinite nor not a number. -/
def Bounded (u : UnpackedFloat) : Prop :=
  (∃ s, u = .zero s) ∨ ∃ s m e h, u = .finite s m e h

theorem sub_self_of_bounded {u : UnpackedFloat} (h : Bounded u) :
    ∃ s, UnpackedFloat.sub .binary64 u u = .zero s := by
  rcases h with ⟨s, rfl⟩ | ⟨s, m, e, hm, rfl⟩
  · rw [sub_zero_zero]
    split <;> exact ⟨_, rfl⟩
  · let z := s.apply (decreaseExponent m e (min e e)).1
    have hnothing : UnpackedFloat.normalize .binary64 (z - z) (min e e) .positive =
        .zero .positive := by
      rw [Int.sub_self]
      rfl
    exact ⟨.positive, hnothing⟩

theorem bounded_unpack {b : BitVec Format.binary64.numBits} (h : unpackExponent b ≠ -1#11) :
    Bounded (UnpackedFloat.unpack .binary64 b) := by
  by_cases hempty : unpackExponent b = 0#11
  · rw [show UnpackedFloat.unpack .binary64 b = _ from (if_neg h).trans (if_pos hempty)]
    by_cases hmantissa : unpackMantissa b = 0#_
    · rw [dif_pos hmantissa]
      exact .inl ⟨_, rfl⟩
    · rw [dif_neg hmantissa]
      exact .inr ⟨_, _, _, _, rfl⟩
  · obtain ⟨_, hunpacked⟩ := unpack_normal h hempty
    exact .inr ⟨_, _, _, _, hunpacked⟩

theorem bounded_unpack_pack (s : Sign) {m : Nat} {e : Int} (hm : 0 < m) (he : e ≤ 900) :
    Bounded
      (UnpackedFloat.unpack .binary64 (UnpackedFloat.pack .binary64 (.finite s m e hm))) := by
  have hones : (-1#11).toNat = 2047 := by decide
  apply bounded_unpack
  rw [pack_finite s hm he]
  split
  · rw [unpackExponent_packComponents]
    exact ofNat_exponent_ne (b := -1#11) (by omega) (by omega)
  · rw [unpackExponent_packComponents]
    decide

theorem mantissa_shift_le (em : ExtendedMantissa) (i : Nat) :
    (em >>> i).mantissa ≤ em.mantissa := by
  show (i.repeat ExtendedMantissa.shiftRightOne em).mantissa ≤ em.mantissa
  induction i with
  | zero => exact Nat.le_refl _
  | succ i ih => exact Nat.le_trans (Nat.div_le_self _ 2) ih

theorem roundedMantissa_le (em : ExtendedMantissa) : em.roundedMantissa ≤ em.mantissa + 1 := by
  rw [ExtendedMantissa.roundedMantissa]
  cases em.accuracy with
  | exact => exact Nat.le_succ _
  | inexact o => cases o <;> simp only [Accuracy.roundToNearestEven] <;> omega

theorem exponent_shiftToTargetExponent (m : Nat) (e : Int) :
    (shiftToTargetExponent .binary64 m e .exact).2 ≤ max e (max (m.log2 + e - 52) (-1074)) := by
  rw [shiftToTargetExponent, targetExponent_eq, shiftToExponent]
  omega

theorem bounded_round (s : Sign) {m : Nat} {e : Int} (hm : m < 2 ^ 240) (he : e ≤ 0) :
    Bounded (UnpackedFloat.unpack .binary64
      (UnpackedFloat.pack .binary64 (roundWithAccuracy .binary64 s m e .exact))) := by
  -- The exponent grows by the places of the mantissa, before rounding and after it.
  have hlog {m : Nat} (hm : m ≤ 2 ^ 240) : m.log2 ≤ 240 := by
    by_cases hzero : m = 0
    · rw [hzero]
      decide
    · have hlt : m < 2 ^ 241 := Nat.lt_of_le_of_lt hm (by decide)
      exact Nat.le_of_lt_succ ((Nat.log2_lt hzero).2 hlt)
  let first := shiftToTargetExponent .binary64 m e .exact
  let second := shiftToTargetExponent .binary64 first.1.roundedMantissa first.2 .exact
  have hmantissa : first.1.mantissa ≤ m := mantissa_shift_le _ _
  have hrounded : first.1.roundedMantissa ≤ 2 ^ 240 :=
    Nat.le_trans (roundedMantissa_le _) (Nat.succ_le_of_lt (Nat.lt_of_le_of_lt hmantissa hm))
  have hfirst : first.2 ≤ max e (max (m.log2 + e - 52) (-1074)) :=
    exponent_shiftToTargetExponent m e
  have hsecond : second.2 ≤
      max first.2 (max (first.1.roundedMantissa.log2 + first.2 - 52) (-1074)) :=
    exponent_shiftToTargetExponent _ _
  have hmlog : m.log2 ≤ 240 := hlog (Nat.le_of_lt hm)
  have hroundedlog : first.1.roundedMantissa.log2 ≤ 240 := hlog hrounded
  rw [roundWithAccuracy]
  show Bounded (UnpackedFloat.unpack .binary64 (UnpackedFloat.pack .binary64
    (if h : second.1.mantissa = 0 then .zero s
      else .finite s second.1.mantissa second.2 (Nat.pos_of_ne_zero h))))
  by_cases hnothing : second.1.mantissa = 0
  · rw [dif_pos hnothing, unpack_pack_zero]
    exact .inl ⟨s, rfl⟩
  · rw [dif_neg hnothing]
    exact bounded_unpack_pack s _ (by omega)

/-- What equal numbers are rounded to does not differ. -/
theorem Rounded.sub_eq_zero {u v : UnpackedFloat} {z w : Int} (hu : Rounded z u)
    (hv : Rounded w v) (h : z = w) :
    ∃ s, UnpackedFloat.sub .binary64
      (UnpackedFloat.unpack .binary64 (UnpackedFloat.pack .binary64 u))
      (UnpackedFloat.unpack .binary64 (UnpackedFloat.pack .binary64 v)) = .zero s := by
  cases hu with
  | zero s =>
    cases hv with
    | zero t =>
      rw [unpack_pack_zero, unpack_pack_zero]
      rw [sub_zero_zero]
      split <;> exact ⟨_, rfl⟩
    | finite t hl _ => exact absurd h.symm (apply_ne_zero t hl)
  | @finite s k hk hbits =>
    cases hv with
    | zero t => exact absurd h (apply_ne_zero s hk)
    | finite t hl _ =>
      obtain ⟨rfl, rfl⟩ := apply_injective hk h
      have hplaces : k * 2 ^ 104 < 2 ^ 240 :=
        Nat.lt_of_lt_of_le (Nat.mul_lt_mul_of_pos_right hbits (by decide)) (by decide)
      exact sub_self_of_bounded (bounded_round s hplaces (by omega))

/-! ## Coordinates -/

/-- The float is a whole number of at most 53 places. -/
def Whole (f : Float) (z : Int) : Prop := IsWhole f.toModel.unpack z

theorem unpack_pack_of_isWhole {u : UnpackedFloat} {z : Int} (h : IsWhole u z) :
    IsWhole (Float.Model.pack u).unpack z := by
  show IsWhole (UnpackedFloat.unpack .binary64 (UnpackedFloat.pack .binary64 u)) z
  rw [h.unpack_pack]
  exact h

theorem Whole.sub {f g : Float} {z w : Int} (hf : Whole f z) (hg : Whole g w)
    (h : (z - w).natAbs < 2 ^ 53) : Whole (f - g) (z - w) :=
  unpack_pack_of_isWhole (IsWhole.sub hf hg h)

theorem Whole.neg {f : Float} {z : Int} (h : Whole f z) : Whole (-f) (-z) :=
  unpack_pack_of_isWhole (IsWhole.neg h)

theorem whole_toFloat {n : Nat} (h : n < 2 ^ 53) : Whole (UInt64.ofNat n).toFloat n := by
  have hnat : (UInt64.ofNat n).toNat = n :=
    UInt64.toNat_ofNat_of_lt' (Nat.lt_trans h (by decide))
  have hnormal := isWhole_normalize (z := (n : Int)) h 0
  rw [Int.pow_zero, Int.mul_one] at hnormal
  refine unpack_pack_of_isWhole ?_
  rw [UnpackedFloat.ofUInt64, UnpackedFloat.ofNat, UnpackedFloat.ofInt, hnat]
  exact hnormal

theorem whole_coordinate (c : Int32) : Whole (Vertex.coordinate c) c.toInt := by
  have hlow := c.le_toInt
  have hhigh := c.toInt_lt
  have hsize : Whole (UInt64.ofNat c.toInt.natAbs).toFloat c.toInt.natAbs :=
    whole_toFloat (by omega)
  rw [Vertex.coordinate]
  split
  · rename_i hneg
    have hsign : c.toInt < 0 := Int32.lt_iff_toInt_lt.1 hneg
    have hflip := hsize.neg
    rwa [Int.ofNat_natAbs_of_nonpos (Int.le_of_lt hsign), Int.neg_neg] at hflip
  · rename_i hneg
    have hsign : 0 ≤ c.toInt := Int.not_lt.1 fun h => hneg (Int32.lt_iff_toInt_lt.2 h)
    rwa [Int.natAbs_of_nonneg hsign] at hsize

theorem whole_difference (c d : Int32) :
    Whole (Vertex.coordinate d - Vertex.coordinate c) (d.toInt - c.toInt) := by
  have hclow := c.le_toInt
  have hchigh := c.toInt_lt
  have hdlow := d.le_toInt
  have hdhigh := d.toInt_lt
  exact (whole_coordinate d).sub (whole_coordinate c) (by omega)

theorem ne_zero_eq_false {f : Float} {s : Sign} (h : f.toModel.unpack = .zero s) :
    (f != 0.0) = false := by
  have hliteral : (0.0 : Float) = .ofModel (Float.Model.pack (.zero .positive)) := by
    decide +kernel
  have hzero : (0.0 : Float).toModel.unpack = .zero .positive := by
    rw [hliteral]
    exact unpack_pack_zero .positive
  have hbeq : (f == 0.0) = true := by
    show f.toModel.unpack.beq (0.0 : Float).toModel.unpack = true
    rw [h, hzero]
    rfl
  rw [bne, hbeq]
  rfl

/-- Nothing is left of the difference of equal products. -/
theorem product_difference {f g h k : Float} {a b c d : Int} (hf : Whole f a) (hg : Whole g b)
    (hh : Whole h c) (hk : Whole k d) (heq : a * b = c * d) : (f * g - h * k != 0.0) = false := by
  obtain ⟨s, hs⟩ := (IsWhole.mul hf hg).sub_eq_zero (IsWhole.mul hh hk) heq
  refine ne_zero_eq_false (s := s) ?_
  have hunpacked : (f * g - h * k).toModel.unpack =
      UnpackedFloat.unpack .binary64 (UnpackedFloat.pack .binary64
        (UnpackedFloat.sub .binary64 (f * g).toModel.unpack (h * k).toModel.unpack)) := rfl
  rw [hunpacked]
  exact (congrArg (fun u => UnpackedFloat.unpack .binary64 (UnpackedFloat.pack .binary64 u))
    hs).trans (unpack_pack_zero s)

end Binary64

/-! ## Points on a line -/

/-- The points are on one line. -/
def Collinear (points : List Point) : Prop :=
  ∀ o ∈ points, ∀ d ∈ points, ∀ p ∈ points,
    (d.x.toInt - o.x.toInt) * (p.y.toInt - o.y.toInt) =
      (d.y.toInt - o.y.toInt) * (p.x.toInt - o.x.toInt)

instance (points : List Point) : Decidable (Collinear points) :=
  inferInstanceAs (Decidable (∀ o ∈ points, ∀ d ∈ points, ∀ p ∈ points,
    (d.x.toInt - o.x.toInt) * (p.y.toInt - o.y.toInt) =
      (d.y.toInt - o.y.toInt) * (p.x.toInt - o.x.toInt)))

theorem Mesh.spansArea_eq_false {points : List Point} (h : Collinear points) :
    Mesh.spansArea points = false := by
  unfold Mesh.spansArea
  split
  · rfl
  rename_i first rest
  split
  · rfl
  rename_i second hsecond
  have hmem : second ∈ first :: rest :=
    List.mem_cons_of_mem _ (List.mem_of_find?_eq_some hsecond)
  have hall : ((first :: rest).any fun p =>
      (Vertex.coordinate second.x - Vertex.coordinate first.x) *
        (Vertex.coordinate p.y - Vertex.coordinate first.y) -
      (Vertex.coordinate second.y - Vertex.coordinate first.y) *
        (Vertex.coordinate p.x - Vertex.coordinate first.x) != 0.0) = false := by
    rw [List.any_eq_false]
    intro p hp hne
    have hproducts := h first List.mem_cons_self second hmem p hp
    rw [Binary64.product_difference (Binary64.whole_difference _ _)
      (Binary64.whole_difference _ _) (Binary64.whole_difference _ _)
      (Binary64.whole_difference _ _) hproducts] at hne
    exact Bool.noConfusion hne
  exact Bool.and_eq_false_iff.2 (.inr hall)

end Unrouted
