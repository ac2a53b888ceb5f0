import Mathlib.Tactic.Ring

/-!
Whole numbers of at most 53 places in binary64.  Rounding and packing leave them as they are, so
their differences are exact.
-/

namespace Unrouted
namespace Binary64

open Float.Model UnpackedFloat

/-! ## Rounding -/

theorem shift_exact (m i : Nat) :
    ExtendedMantissa.ofMantissaAndAccuracy (m * 2 ^ i) .exact >>> i =
      ExtendedMantissa.ofMantissaAndAccuracy m .exact := by
  show i.repeat ExtendedMantissa.shiftRightOne _ = _
  induction i generalizing m with
  | zero =>
    rw [Nat.pow_zero, Nat.mul_one]
    rfl
  | succ i ih =>
    have hdouble : m * 2 ^ (i + 1) = 2 * m * 2 ^ i := by ring
    rw [Nat.repeat, hdouble, ih]
    simp [ExtendedMantissa.shiftRightOne, ExtendedMantissa.ofMantissaAndAccuracy]

theorem shift_add (em : ExtendedMantissa) (i j : Nat) : em >>> (i + j) = (em >>> j) >>> i := by
  show (i + j).repeat ExtendedMantissa.shiftRightOne em =
    i.repeat ExtendedMantissa.shiftRightOne (j.repeat ExtendedMantissa.shiftRightOne em)
  induction i with
  | zero =>
    rw [Nat.zero_add]
    rfl
  | succ i ih => rw [Nat.succ_add, Nat.repeat, Nat.repeat, ih]

theorem targetExponent_eq (m : Nat) (e : Int) :
    Format.binary64.targetExponent (totalExponent m e) = max (m.log2 + e - 52) (-1074) := by
  have hmin : Format.binary64.minExponent = -1074 := by decide
  have hbits : (Format.binary64.mantissaBits : Int) = 53 := by decide
  rw [Format.targetExponent, hmin, hbits, totalExponent]
  congr 1
  omega

theorem log2_mul_two_pow {k : Nat} (hk : 0 < k) (j : Nat) : (k * 2 ^ j).log2 = k.log2 + j := by
  have hpos : 0 < k * 2 ^ j := Nat.mul_pos hk (Nat.two_pow_pos j)
  obtain ⟨hlow, hhigh⟩ := (Nat.log2_eq_iff (Nat.ne_of_gt hk)).1 rfl
  rw [Nat.log2_eq_iff (Nat.ne_of_gt hpos), Nat.pow_add, Nat.add_right_comm, Nat.pow_add]
  exact ⟨Nat.mul_le_mul_right _ hlow, Nat.mul_lt_mul_of_pos_right hhigh (Nat.two_pow_pos j)⟩

theorem targetExponent_scaled {k : Nat} (hk : 0 < k) (j : Nat) :
    Format.binary64.targetExponent (totalExponent (k * 2 ^ j) (-j)) = k.log2 - 52 := by
  rw [targetExponent_eq, log2_mul_two_pow hk]
  omega

/-- A number with places to spare is brought to 53 of them. -/
theorem shiftToTargetExponent_scaled {k j : Nat} (hk : 0 < k) (hj : 52 ≤ k.log2 + j) :
    shiftToTargetExponent .binary64 (k * 2 ^ j) (-j) .exact =
      (ExtendedMantissa.ofMantissaAndAccuracy (k * 2 ^ j) .exact >>> (k.log2 + j - 52),
        (k.log2 - 52 : Int)) := by
  have hshift : ((k.log2 : Int) - 52 - -j).toNat = k.log2 + j - 52 := by omega
  have htarget : -(j : Int) + (k.log2 + j - 52 : Nat) = k.log2 - 52 := by omega
  rw [shiftToTargetExponent, targetExponent_scaled hk, shiftToExponent, hshift, htarget]

/-- Places that were added before rounding have no part in the result. -/
theorem roundWithAccuracy_scale (s : Sign) {k i j : Nat} (hk : 0 < k) (hij : i ≤ j)
    (hi : 52 ≤ k.log2 + i) :
    roundWithAccuracy .binary64 s (k * 2 ^ j) (-j) .exact =
      roundWithAccuracy .binary64 s (k * 2 ^ i) (-i) .exact := by
  have hsplit : k * 2 ^ j = k * 2 ^ i * 2 ^ (j - i) := by
    rw [Nat.mul_assoc, ← Nat.pow_add, Nat.add_sub_cancel' hij]
  have hplaces : k.log2 + j - 52 = (k.log2 + i - 52) + (j - i) := by omega
  have hsame : shiftToTargetExponent .binary64 (k * 2 ^ j) (-j) .exact =
      shiftToTargetExponent .binary64 (k * 2 ^ i) (-i) .exact := by
    rw [shiftToTargetExponent_scaled hk hi, shiftToTargetExponent_scaled hk (by omega), hplaces,
      shift_add, hsplit, shift_exact]
  rw [roundWithAccuracy, roundWithAccuracy, hsame]

theorem decreaseExponent_scaled (m : Nat) {i j : Nat} (hij : i ≤ j) :
    decreaseExponent (m * 2 ^ i) (-i) (-j) = (m * 2 ^ j, (-j : Int)) := by
  have hshift : (-(i : Int) - -j).toNat = j - i := by omega
  have hexponent : -(i : Int) - (j - i : Nat) = -j := by omega
  rw [decreaseExponent, hshift, hexponent, Nat.shiftLeft_eq, Nat.mul_assoc, ← Nat.pow_add,
    Nat.add_sub_cancel' hij]

/-- A whole number of at most 53 places, moved up until its first place is the first one of the
mantissa. -/
def whole (s : Sign) {k : Nat} (hk : 0 < k) : UnpackedFloat :=
  .finite s (k * 2 ^ (52 - k.log2)) (-(52 - k.log2 : Nat))
    (Nat.mul_pos hk (Nat.two_pow_pos _))

theorem shiftToTargetExponent_whole {k : Nat} (hk : 0 < k) (hbits : k.log2 ≤ 52) :
    shiftToTargetExponent .binary64 (k * 2 ^ (52 - k.log2)) (-(52 - k.log2 : Nat)) .exact =
      (ExtendedMantissa.ofMantissaAndAccuracy (k * 2 ^ (52 - k.log2)) .exact,
        -((52 - k.log2 : Nat) : Int)) := by
  have hshift : k.log2 + (52 - k.log2) - 52 = 0 := by omega
  have hexponent : (k.log2 : Int) - 52 = -(52 - k.log2 : Nat) := by omega
  rw [shiftToTargetExponent_scaled hk (by omega), hshift, hexponent]
  rfl

/-- An exact mantissa is rounded to itself, so it is shifted again as it was the first time. -/
theorem roundWithAccuracy_fixed (s : Sign) {m : Nat} {e : Int} (hm : 0 < m)
    (hfixed : shiftToTargetExponent .binary64 m e .exact =
      (ExtendedMantissa.ofMantissaAndAccuracy m .exact, e)) :
    roundWithAccuracy .binary64 s m e .exact = .finite s m e hm := by
  let again := shiftToTargetExponent .binary64 m e .exact
  have hagain : again = _ := hfixed
  rw [roundWithAccuracy, hfixed]
  show (if h : again.1.mantissa = 0 then .zero s
    else .finite s again.1.mantissa again.2 (Nat.pos_of_ne_zero h)) =
      UnpackedFloat.finite s m e hm
  rw [hagain]
  exact dif_neg (Nat.ne_of_gt hm)

theorem roundWithAccuracy_whole (s : Sign) {k j : Nat} (hk : 0 < k) (hbits : k.log2 ≤ 52)
    (hj : 52 - k.log2 ≤ j) :
    roundWithAccuracy .binary64 s (k * 2 ^ j) (-j) .exact = whole s hk := by
  rw [roundWithAccuracy_scale s hk hj (by omega)]
  exact roundWithAccuracy_fixed s _ (shiftToTargetExponent_whole hk hbits)

theorem round_whole (s : Sign) {k : Nat} (hk : 0 < k) (hbits : k.log2 ≤ 52) (j : Nat) :
    UnpackedFloat.round .binary64 s (k * 2 ^ j) (-j) = whole s hk := by
  have hexponent : (k.log2 : Int) - 52 = -(52 - k.log2 : Nat) := by omega
  rw [UnpackedFloat.round, targetExponent_scaled hk, hexponent]
  rcases Nat.le_total j (52 - k.log2) with hj | hj
  · rw [decreaseExponent_scaled k hj]
    exact roundWithAccuracy_whole s hk hbits (Nat.le_refl _)
  · have hshift : (-(j : Int) - -(52 - k.log2 : Nat)).toNat = 0 := by omega
    rw [decreaseExponent, hshift, Nat.shiftLeft_zero, Int.natCast_zero, Int.sub_zero]
    exact roundWithAccuracy_whole s hk hbits hj

/-! ## Packing -/

theorem unpack_pack_zero (s : Sign) :
    UnpackedFloat.unpack .binary64 (UnpackedFloat.pack .binary64 (.zero s)) = .zero s := by
  cases s <;> rfl

/-- The sign is the first bit, before the exponent and the mantissa. -/
theorem sign_packComponents (s : Sign) (e : BitVec 11) (m : BitVec 52) :
    Sign.ofBitVec (unpackSign (packComponents .binary64 s e m)) = s := by
  have hfirst : (s.toBitVec ++ e ++ m).extractLsb' 63 1 = s.toBitVec := by
    rw [BitVec.extractLsb'_append_eq_of_le (by decide),
      BitVec.extractLsb'_append_eq_of_le (by decide)]
    exact BitVec.extractLsb'_eq_self
  show Sign.ofBitVec ((s.toBitVec ++ e ++ m).extractLsb' 63 1) = s
  rw [hfirst]
  cases s <;> rfl

/-- What is packed of a finite number that is not large. -/
theorem pack_finite (s : Sign) {m : Nat} {e : Int} (hm : 0 < m) (he : e ≤ 900) :
    UnpackedFloat.pack .binary64 (.finite s m e hm) =
      if m.log2 = 52 then
        packComponents .binary64 s (BitVec.ofNat 11 (e + 1075).toNat) (BitVec.ofNat 52 m)
      else packComponents .binary64 s 0#_ (BitVec.ofNat 52 m) := by
  have hbiased : (e + 1023 + 52).toNat = (e + 1075).toNat := by omega
  have hrange : ¬2 ^ 11 ≤ (e + 1075).toNat + 1 := by omega
  have hplaces : m.log2 + 1 = 53 ↔ m.log2 = 52 := by omega
  show (if 2 ^ 11 ≤ (e + 1023 + 52).toNat + 1 then packedInfinity .binary64 s
    else if m.log2 + 1 = 53 then
      packComponents .binary64 s (BitVec.ofNat 11 (e + 1023 + 52).toNat) (BitVec.ofNat 52 m)
    else packComponents .binary64 s 0#_ (BitVec.ofNat 52 m)) = _
  simp only [hbiased, hrange, if_false, hplaces]

theorem ofNat_exponent_ne {e : Nat} (he : e < 2 ^ 11) {b : BitVec 11} (h : e ≠ b.toNat) :
    BitVec.ofNat 11 e ≠ b := by
  intro heq
  apply h
  rw [← heq, BitVec.toNat_ofNat, Nat.mod_eq_of_lt he]

/-- An exponent that is neither full nor empty comes with a leading bit that is not packed. -/
theorem unpack_normal {b : BitVec Format.binary64.numBits} (hfull : unpackExponent b ≠ -1#11)
    (hempty : unpackExponent b ≠ 0#11) :
    ∃ hm, UnpackedFloat.unpack .binary64 b =
      .finite (Sign.ofBitVec (unpackSign b)) (1#1 ++ unpackMantissa b).toNat
        ((unpackExponent b).toNat - 1075) hm :=
  ⟨_, (if_neg hfull).trans (if_neg hempty)⟩

theorem unpack_pack_normal (s : Sign) {m : Nat} {e : Int} (hm : 0 < m) (hlog : m.log2 = 52)
    (hlow : -1074 ≤ e) (he : e ≤ 900) :
    UnpackedFloat.unpack .binary64 (UnpackedFloat.pack .binary64 (.finite s m e hm)) =
      .finite s m e hm := by
  rw [pack_finite s hm he, if_pos hlog]
  have hexponent : (BitVec.ofNat 11 (e + 1075).toNat).toNat = (e + 1075).toNat := by
    rw [BitVec.toNat_ofNat, Nat.mod_eq_of_lt (by omega)]
  have hfull : BitVec.ofNat 11 (e + 1075).toNat ≠ -1#11 := by
    have hones : (-1#11).toNat = 2047 := by decide
    exact ofNat_exponent_ne (by omega) (by omega)
  have hempty : BitVec.ofNat 11 (e + 1075).toNat ≠ 0#11 := by
    have hzero : (0#11).toNat = 0 := by decide
    exact ofNat_exponent_ne (by omega) (by omega)
  have hmantissa : (1#1 ++ BitVec.ofNat 52 m).toNat = m := by
    obtain ⟨hlow, hhigh⟩ := (Nat.log2_eq_iff (Nat.ne_of_gt hm)).1 hlog
    rw [BitVec.toNat_append, ← Nat.shiftLeft_add_eq_or_of_lt (BitVec.isLt _), BitVec.toNat_ofNat,
      BitVec.toNat_ofNat, Nat.shiftLeft_eq]
    omega
  let b := packComponents .binary64 s (BitVec.ofNat 11 (e + 1075).toNat) (BitVec.ofNat 52 m)
  have hb : unpackExponent b = BitVec.ofNat 11 (e + 1075).toNat := unpackExponent_packComponents
  have hbm : unpackMantissa b = BitVec.ofNat 52 m := unpackMantissa_packComponents
  obtain ⟨_, hunpacked⟩ := unpack_normal (b := b) (hb ▸ hfull) (hb ▸ hempty)
  refine hunpacked.trans ?_
  rw [UnpackedFloat.finite.injEq, hb, hbm, hmantissa, hexponent]
  exact ⟨sign_packComponents s _ _, rfl, by omega⟩

/-! ## Whole numbers -/

/-- The number is a whole one of at most 53 places. -/
inductive IsWhole : UnpackedFloat → Int → Prop
  | zero (s : Sign) : IsWhole (.zero s) 0
  | finite (s : Sign) {k : Nat} (hk : 0 < k) (hbits : k.log2 ≤ 52) :
    IsWhole (whole s hk) (s.apply k)

theorem IsWhole.unpack_pack {u : UnpackedFloat} {z : Int} (h : IsWhole u z) :
    UnpackedFloat.unpack .binary64 (UnpackedFloat.pack .binary64 u) = u := by
  cases h with
  | zero s => exact unpack_pack_zero s
  | @finite s k hk hbits =>
    have hlog : (k * 2 ^ (52 - k.log2)).log2 = 52 := by
      rw [log2_mul_two_pow hk]
      omega
    exact unpack_pack_normal s _ hlog (by omega) (by omega)

theorem log2_le_of_lt {k : Nat} (hk : 0 < k) (hlt : k < 2 ^ 53) : k.log2 ≤ 52 :=
  Nat.le_of_lt_succ ((Nat.log2_lt (Nat.ne_of_gt hk)).2 hlt)

theorem isWhole_normalize {z : Int} (hz : z.natAbs < 2 ^ 53) (j : Nat) :
    IsWhole (UnpackedFloat.normalize .binary64 (z * 2 ^ j) (-j) .positive) z := by
  have hscale : (0 : Int) < 2 ^ j := Int.pow_pos (by decide)
  rcases lt_trichotomy z 0 with hneg | hzero | hpos
  · obtain ⟨k, rfl⟩ : ∃ k : Nat, z = -k := ⟨z.natAbs, by omega⟩
    have hk : 0 < k := by omega
    have hbits : k.log2 ≤ 52 := log2_le_of_lt hk (by omega)
    have hlt : compare (-(k : Int) * 2 ^ j) 0 = .lt :=
      Int.compare_eq_lt.2 (Int.mul_neg_of_neg_of_pos hneg hscale)
    have hnat : (-(-(k : Int) * 2 ^ j)).toNat = k * 2 ^ j := by
      rw [Int.neg_mul, Int.neg_neg]
      exact Int.toNat_natCast _
    rw [UnpackedFloat.normalize, hlt]
    dsimp only
    rw [hnat, round_whole .negative hk hbits j]
    exact .finite .negative hk hbits
  · subst hzero
    have heq : compare ((0 : Int) * 2 ^ j) 0 = .eq := by
      rw [Int.zero_mul]
      rfl
    rw [UnpackedFloat.normalize, heq]
    exact .zero .positive
  · obtain ⟨k, rfl⟩ : ∃ k : Nat, z = k := ⟨z.natAbs, by omega⟩
    have hk : 0 < k := by omega
    have hbits : k.log2 ≤ 52 := log2_le_of_lt hk (by omega)
    have hgt : compare ((k : Int) * 2 ^ j) 0 = .gt :=
      Int.compare_eq_gt.2 (Int.mul_pos hpos hscale)
    have hnat : ((k : Int) * 2 ^ j).toNat = k * 2 ^ j := Int.toNat_natCast _
    rw [UnpackedFloat.normalize, hgt]
    dsimp only
    rw [hnat, round_whole .positive hk hbits j]
    exact .finite .positive hk hbits

theorem apply_neg (s : Sign) (z : Int) : (-s).apply z = -s.apply z := by
  cases s with
  | negative => exact (Int.neg_neg z).symm
  | positive => rfl

theorem apply_mul (s : Sign) (z w : Int) : s.apply (z * w) = s.apply z * w := by
  cases s with
  | negative => exact (Int.neg_mul z w).symm
  | positive => rfl

theorem IsWhole.neg {u : UnpackedFloat} {z : Int} (h : IsWhole u z) : IsWhole u.neg (-z) := by
  cases h with
  | zero s => exact .zero (-s)
  | @finite s k hk hbits =>
    rw [← apply_neg]
    exact .finite (-s) hk hbits

theorem sub_zero_zero (s t : Sign) :
    UnpackedFloat.sub .binary64 (.zero s) (.zero t) =
      if s == -t then .zero s else .zero .positive := rfl

/-- Both are brought to the smaller exponent, so no place is lost. -/
theorem sub_whole (s t : Sign) {k l : Nat} (hk : 0 < k) (hl : 0 < l) :
    ∃ j : Nat, UnpackedFloat.sub .binary64 (whole s hk) (whole t hl) =
      UnpackedFloat.normalize .binary64 ((s.apply k - t.apply l) * 2 ^ j) (-j) .positive := by
  let j := max (52 - k.log2) (52 - l.log2)
  have hmin : min (-((52 - k.log2 : Nat) : Int)) (-(52 - l.log2 : Nat)) = -j := by omega
  have hdifference : s.apply (k * 2 ^ j : Nat) - t.apply (l * 2 ^ j : Nat) =
      (s.apply k - t.apply l) * 2 ^ j := by
    push_cast
    rw [apply_mul, apply_mul, Int.sub_mul]
  have hkj : 52 - k.log2 ≤ j := Nat.le_max_left _ _
  have hlj : 52 - l.log2 ≤ j := Nat.le_max_right _ _
  refine ⟨j, ?_⟩
  let e : Int := min (-(52 - k.log2 : Nat)) (-(52 - l.log2 : Nat))
  show UnpackedFloat.normalize .binary64
    (s.apply (decreaseExponent (k * 2 ^ (52 - k.log2)) (-(52 - k.log2 : Nat)) e).1 -
      t.apply (decreaseExponent (l * 2 ^ (52 - l.log2)) (-(52 - l.log2 : Nat)) e).1)
    e .positive = _
  rw [show e = -j from hmin, decreaseExponent_scaled k hkj, decreaseExponent_scaled l hlj,
    hdifference]

theorem IsWhole.sub {u v : UnpackedFloat} {z w : Int} (hu : IsWhole u z) (hv : IsWhole v w)
    (h : (z - w).natAbs < 2 ^ 53) : IsWhole (UnpackedFloat.sub .binary64 u v) (z - w) := by
  cases hu with
  | zero s =>
    cases hv with
    | zero t =>
      rw [sub_zero_zero]
      split <;> exact .zero _
    | @finite t k hk hbits =>
      rw [Int.zero_sub, ← apply_neg]
      exact .finite (-t) hk hbits
  | @finite s k hk hbits =>
    cases hv with
    | zero t =>
      rw [Int.sub_zero]
      exact .finite s hk hbits
    | @finite t l hl hlbits =>
      obtain ⟨j, hsub⟩ := sub_whole s t hk hl
      rw [hsub]
      exact isWhole_normalize h j

end Binary64
end Unrouted
