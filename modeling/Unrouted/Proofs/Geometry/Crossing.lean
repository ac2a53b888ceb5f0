import Unrouted.Net.Polygon
import Unrouted.Proofs.Geometry.Rounding

/-!
Where an edge is met by the ray from a point.  The meeting is found with three roundings, so its
place is not exact and may come to lie on the other side of the point.  That takes an edge that
passes the point closely and is long or far out.
-/

namespace Unrouted

namespace Edge

variable {e : Edge} {y : Int32} {p : Point}

/-! ## The exact meeting -/

def run (e : Edge) : Int := e.source.x.toInt - e.target.x.toInt

def rise (e : Edge) : Int := e.source.y.toInt - e.target.y.toInt

def climb (e : Edge) (y : Int32) : Int := y.toInt - e.target.y.toInt

/-- How far from the target the line through the edge meets the height `y`. -/
def reach (e : Edge) (y : Int32) : Rat := (e.run * e.climb y : Int) / e.rise

/-- Where the line through the edge meets the height `y`. -/
def meeting (e : Edge) (y : Int32) : Rat := e.reach y + e.target.x.toInt

/-- The ray from `p` meets the edge, as its exact meeting tells. -/
def passes (e : Edge) (p : Point) : Bool :=
  e.straddles p.y && decide ((p.x.toInt : Rat) < e.meeting p.y)

/-- The rounded meeting is not on the side of the point on which the exact one is. -/
def misjudges (e : Edge) (p : Point) : Bool := e.meetsRay p != e.passes p

theorem climb_cases (h : e.straddles y = true) :
    (e.rise ≤ e.climb y ∧ e.climb y < 0) ∨ (0 ≤ e.climb y ∧ e.climb y < e.rise) := by
  simp only [straddles, bne_iff_ne, ne_eq, decide_eq_decide, Int32.lt_iff_toInt_lt] at h
  simp only [rise, climb]
  omega

theorem rise_ne_zero (h : e.straddles y = true) : e.rise ≠ 0 := by
  rcases climb_cases h with hcases | hcases <;> omega

/-- The height is met part of the way from the target to the source. -/
theorem share_mem (h : e.straddles y = true) :
    0 ≤ (e.climb y / e.rise : Rat) ∧ (e.climb y / e.rise : Rat) ≤ 1 := by
  rcases climb_cases h with ⟨hle, hneg⟩ | ⟨hnonneg, hlt⟩
  · have hrise : (e.rise : Rat) < 0 := Int.cast_lt_zero.2 (by omega)
    have hclimb : (e.climb y : Rat) ≤ 0 := Int.cast_nonpos.2 (by omega)
    exact ⟨div_nonneg_of_nonpos hclimb hrise.le,
      (div_le_one_of_neg hrise).2 (Int.cast_le.2 hle)⟩
  · have hrise : (0 : Rat) < e.rise := Int.cast_pos.2 (by omega)
    exact ⟨div_nonneg (Int.cast_nonneg hnonneg) hrise.le,
      (div_le_one hrise).2 (Int.cast_le.2 hlt.le)⟩

theorem meeting_eq (e : Edge) (y : Int32) :
    e.meeting y = (e.climb y / e.rise) * e.source.x.toInt +
      (1 - e.climb y / e.rise) * e.target.x.toInt := by
  rw [meeting, reach, run]
  push_cast
  ring

theorem meeting_le {high : Rat} (h : e.straddles y = true) (hsource : e.source.x.toInt ≤ high)
    (htarget : e.target.x.toInt ≤ high) : e.meeting y ≤ high := by
  obtain ⟨hnonneg, hle⟩ := share_mem h
  calc e.meeting y ≤ (e.climb y / e.rise) * high + (1 - e.climb y / e.rise) * high := by
        rw [meeting_eq]
        exact add_le_add (mul_le_mul_of_nonneg_left hsource hnonneg)
          (mul_le_mul_of_nonneg_left htarget (sub_nonneg.2 hle))
    _ = high := by ring

theorem le_meeting {low : Rat} (h : e.straddles y = true) (hsource : low ≤ e.source.x.toInt)
    (htarget : low ≤ e.target.x.toInt) : low ≤ e.meeting y := by
  obtain ⟨hnonneg, hle⟩ := share_mem h
  calc low = (e.climb y / e.rise) * low + (1 - e.climb y / e.rise) * low := by ring
    _ ≤ e.meeting y := by
        rw [meeting_eq]
        exact add_le_add (mul_le_mul_of_nonneg_left hsource hnonneg)
          (mul_le_mul_of_nonneg_left htarget (sub_nonneg.2 hle))

theorem cast_toInt_mem (c : Int32) : (-2 ^ 31 : Rat) ≤ c.toInt ∧ (c.toInt : Rat) ≤ 2 ^ 31 := by
  have hlow := c.le_toInt
  have hhigh := c.toInt_lt
  exact ⟨by exact_mod_cast hlow, by exact_mod_cast hhigh.le⟩

theorem abs_meeting_le (h : e.straddles y = true) : |e.meeting y| ≤ 2 ^ 31 := by
  obtain ⟨hsource, hsource'⟩ := cast_toInt_mem e.source.x
  obtain ⟨htarget, htarget'⟩ := cast_toInt_mem e.target.x
  exact abs_le.2 ⟨le_meeting h hsource htarget, meeting_le h hsource' htarget'⟩

theorem abs_climb_le (h : e.straddles y = true) : |e.climb y| ≤ |e.rise| := by
  rcases climb_cases h with hcases | hcases
  · rw [abs_of_neg hcases.2, abs_of_neg (by omega)]
    omega
  · rw [abs_of_nonneg hcases.1, abs_of_pos (by omega)]
    omega

theorem abs_reach_le (h : e.straddles y = true) : |e.reach y| ≤ |(e.run : Rat)| := by
  have hrise : (0 : Rat) < |(e.rise : Rat)| := abs_pos.2 (Int.cast_ne_zero.2 (rise_ne_zero h))
  have hclimb : |(e.climb y : Rat)| ≤ |(e.rise : Rat)| := by exact_mod_cast abs_climb_le h
  rw [reach, Int.cast_mul, abs_div, abs_mul, div_le_iff₀ hrise]
  exact mul_le_mul_of_nonneg_left hclimb (abs_nonneg _)

theorem add_target_sub_meeting (e : Edge) (y : Int32) (r : Rat) :
    r + e.target.x.toInt - e.meeting y = r - e.reach y :=
  add_sub_add_right_eq_sub _ _ _

theorem abs_add_target_le (e : Edge) (y : Int32) (r : Rat) :
    |r + e.target.x.toInt| ≤ |r - e.reach y| + |e.meeting y| := by
  rw [← add_target_sub_meeting]
  simpa using abs_add_le (r + e.target.x.toInt - e.meeting y) (e.meeting y)

/-! ## The rounded meeting -/

theorem crossing_eq (e : Edge) (y : Int32) :
    e.crossing y = Rounding.roundRat
      (Rounding.roundRat (Rounding.roundRat (e.run * e.climb y : Int) / e.rise) +
        e.target.x.toInt) := by
  rw [crossing, run, climb, rise]
  push_cast
  rfl

/-- The rounded meeting is close to the exact one. -/
theorem abs_crossing_sub_lt (h : e.straddles y = true) :
    |e.crossing y - e.meeting y| < 1 / 2 ^ 19 := by
  let rounded := Rounding.roundRat (Rounding.roundRat (e.run * e.climb y : Int) / e.rise)
  let sum := rounded + e.target.x.toInt
  have hrun : |(e.run : Rat)| ≤ 2 ^ 32 := by
    obtain ⟨hsource, hsource'⟩ := cast_toInt_mem e.source.x
    obtain ⟨htarget, htarget'⟩ := cast_toInt_mem e.target.x
    rw [run, Int.cast_sub, abs_le]
    constructor <;> linarith
  have hreach := abs_reach_le h
  have hmeeting := abs_meeting_le h
  have hrounded : |rounded - e.reach y| ≤ 3 * |e.reach y| / 2 ^ 53 :=
    Rounding.abs_roundRat_div_sub_le _ _
  have hsum : |sum| ≤ |rounded - e.reach y| + |e.meeting y| := abs_add_target_le e y rounded
  have hlast : |e.crossing y - sum| ≤ |sum| / 2 ^ 53 := by
    rw [crossing_eq]
    exact Rounding.abs_roundRat_sub_le sum
  have htotal := abs_sub_le (e.crossing y) sum (e.meeting y)
  rw [add_target_sub_meeting] at htotal
  linarith

theorem abs_product_le (h : e.straddles y = true) : |e.run * e.climb y| ≤ |e.rise| * |e.run| := by
  rw [abs_mul, mul_comm]
  exact mul_le_mul_of_nonneg_right (abs_climb_le h) (abs_nonneg _)

/-- A meeting that is not at `x` is at least one part of the rise away from it. -/
theorem one_le_rise_mul_gap {x : Int} (h : e.straddles y = true) (hne : (x : Rat) ≠ e.meeting y) :
    1 ≤ |(e.rise : Rat)| * |x - e.meeting y| := by
  have hrise : (e.rise : Rat) ≠ 0 := Int.cast_ne_zero.2 (rise_ne_zero h)
  have hwhole : (e.rise : Rat) * (x - e.meeting y) =
      (e.rise * (x - e.target.x.toInt) - e.run * e.climb y : Int) := by
    rw [meeting, reach]
    push_cast
    field_simp
    ring
  have hpositive : (e.rise * (x - e.target.x.toInt) - e.run * e.climb y : Int) ≠ 0 := by
    intro hzero
    rw [hzero, Int.cast_zero] at hwhole
    exact hne (sub_eq_zero.1 ((mul_eq_zero.1 hwhole).resolve_left hrise))
  rw [← abs_mul, hwhole, ← Int.cast_abs]
  exact_mod_cast Int.one_le_abs hpositive

/-- The edge is neither so long nor so far from the origin that its meeting with the ray would
need more than 53 places. -/
def Fine (e : Edge) (p : Point) : Prop := |e.rise| * (|e.run| + |p.x.toInt|) < 2 ^ 53 - 1

theorem Fine.crossing_eq (hfine : e.Fine p) (h : e.straddles p.y = true) :
    e.crossing p.y =
      Rounding.roundRat (Rounding.roundRat (e.reach p.y) + e.target.x.toInt) := by
  have hproduct : (e.run * e.climb p.y).natAbs < 2 ^ 53 := by
    have hle := abs_product_le h
    have hpoint : 0 ≤ |e.rise| * |p.x.toInt| := mul_nonneg (abs_nonneg _) (abs_nonneg _)
    rw [Fine, mul_add] at hfine
    rw [Int.abs_eq_natAbs (e.run * e.climb p.y)] at hle
    omega
  rw [Edge.crossing_eq, Rounding.roundRat_intCast hproduct, reach]

/-- A meeting at the point is not moved: it is a whole number, and so is its distance from the
target. -/
theorem Fine.crossing_of_meeting (hfine : e.Fine p) (h : e.straddles p.y = true)
    (hmeeting : e.meeting p.y = p.x.toInt) : e.crossing p.y = p.x.toInt := by
  have hbound (c : Int32) : -2 ^ 31 ≤ c.toInt ∧ c.toInt < 2 ^ 31 := ⟨c.le_toInt, c.toInt_lt⟩
  have hpoint := hbound p.x
  have htarget := hbound e.target.x
  have hreach : e.reach p.y = (p.x.toInt - e.target.x.toInt : Int) := by
    rw [Int.cast_sub, ← hmeeting, meeting, add_sub_cancel_right]
  rw [hfine.crossing_eq h, hreach, Rounding.roundRat_intCast (by omega), Int.cast_sub,
    sub_add_cancel, Rounding.roundRat_intCast (by omega)]

/-- A meeting elsewhere is moved by less than its distance from the point. -/
theorem Fine.abs_crossing_sub_lt (hfine : e.Fine p) (h : e.straddles p.y = true)
    (hmeeting : (p.x.toInt : Rat) ≠ e.meeting p.y) :
    |e.crossing p.y - e.meeting p.y| < |p.x.toInt - e.meeting p.y| := by
  let rounded := Rounding.roundRat (e.reach p.y)
  let sum := rounded + e.target.x.toInt
  let gap := |(p.x.toInt : Rat) - e.meeting p.y|
  have hrise : (0 : Rat) < |(e.rise : Rat)| := abs_pos.2 (Int.cast_ne_zero.2 (rise_ne_zero h))
  have hslack : |e.reach p.y| + |e.reach p.y| / 2 ^ 53 + |(p.x.toInt : Rat)| <
      (2 ^ 53 - 1) * gap := by
    have hgap : 1 ≤ |(e.rise : Rat)| * gap := one_le_rise_mul_gap h hmeeting
    have hsize : |(e.rise : Rat)| * (|(e.run : Rat)| + |(p.x.toInt : Rat)|) ≤ 2 ^ 53 - 2 := by
      have hwhole : |e.rise| * (|e.run| + |p.x.toInt|) ≤ 2 ^ 53 - 2 := Int.le_of_lt_add_one hfine
      exact_mod_cast hwhole
    have hreach := mul_le_mul_of_nonneg_left (abs_reach_le h) hrise.le
    have hpoint := mul_nonneg hrise.le (abs_nonneg (p.x.toInt : Rat))
    refine lt_of_mul_lt_mul_left ?_ hrise.le
    linarith
  have hrounded : |rounded - e.reach p.y| ≤ |e.reach p.y| / 2 ^ 53 :=
    Rounding.abs_roundRat_sub_le _
  have hlast : |e.crossing p.y - sum| ≤ |sum| / 2 ^ 53 := by
    rw [hfine.crossing_eq h]
    exact Rounding.abs_roundRat_sub_le sum
  have hsum : |sum| ≤ |rounded - e.reach p.y| + |e.meeting p.y| := abs_add_target_le e p.y rounded
  have hfar := abs_sub_abs_le_abs_sub (e.meeting p.y) p.x.toInt
  have htotal := abs_sub_le (e.crossing p.y) sum (e.meeting p.y)
  rw [abs_sub_comm] at hfar
  rw [add_target_sub_meeting] at htotal
  linarith

/-! ## The side of the point -/

/-- A meeting that is moved by less than its distance from the point stays on its side. -/
theorem not_misjudges_of_close
    (hclose : e.straddles p.y = true →
      |e.crossing p.y - e.meeting p.y| < |p.x.toInt - e.meeting p.y|) :
    e.misjudges p = false := by
  rw [misjudges, bne_eq_false_iff_eq, meetsRay, passes]
  cases hstraddles : e.straddles p.y with
  | false => rfl
  | true =>
    have hside := Rounding.lt_iff_of_abs_sub_lt (hclose hstraddles)
    exact congrArg _ (decide_eq_decide.2 hside)

theorem not_misjudges_of_far (hfar : 1 / 2 ^ 19 ≤ |p.x.toInt - e.meeting p.y|) :
    e.misjudges p = false :=
  not_misjudges_of_close fun h => (abs_crossing_sub_lt h).trans_le hfar

theorem meetsRay_of_far (h : e.straddles p.y = true)
    (hfar : 1 / 2 ^ 19 ≤ |p.x.toInt - e.meeting p.y|) :
    e.meetsRay p = decide ((p.x.toInt : Rat) < e.meeting p.y) := by
  have hsame := not_misjudges_of_far hfar
  rwa [misjudges, bne_eq_false_iff_eq, passes, h, Bool.true_and] at hsame

/-- An edge across the height of the point and to its right is met. -/
theorem meetsRay_of_right (h : e.straddles p.y = true) (hsource : p.x < e.source.x)
    (htarget : p.x < e.target.x) : e.meetsRay p = true := by
  rw [Int32.lt_iff_toInt_lt] at hsource htarget
  have hmeeting : ((p.x.toInt + 1 : Int) : Rat) ≤ e.meeting p.y :=
    le_meeting h (Int.cast_le.2 hsource) (Int.cast_le.2 htarget)
  rw [Int.cast_add, Int.cast_one] at hmeeting
  have hgap := neg_abs_le (p.x.toInt - e.meeting p.y)
  rw [meetsRay_of_far h (by linarith), decide_eq_true_eq]
  linarith

theorem meetsRay_of_left (h : e.straddles p.y = true) (hsource : e.source.x < p.x)
    (htarget : e.target.x < p.x) : e.meetsRay p = false := by
  rw [Int32.lt_iff_toInt_lt] at hsource htarget
  have hmeeting : e.meeting p.y ≤ ((p.x.toInt - 1 : Int) : Rat) :=
    meeting_le h (Int.cast_le.2 (Int.le_sub_one_of_lt hsource))
      (Int.cast_le.2 (Int.le_sub_one_of_lt htarget))
  rw [Int.cast_sub, Int.cast_one] at hmeeting
  have hgap := le_abs_self (p.x.toInt - e.meeting p.y)
  rw [meetsRay_of_far h (by linarith), decide_eq_false_iff_not]
  linarith

theorem Fine.not_misjudges (hfine : e.Fine p) : e.misjudges p = false := by
  by_cases hmeeting : e.meeting p.y = p.x.toInt
  · rw [misjudges, bne_eq_false_iff_eq, meetsRay, passes]
    cases hstraddles : e.straddles p.y with
    | false => rfl
    | true => rw [hfine.crossing_of_meeting hstraddles hmeeting, hmeeting]
  · exact not_misjudges_of_close fun h => hfine.abs_crossing_sub_lt h (Ne.symm hmeeting)

/-- What it takes for an edge to be met on the wrong side of a point. -/
theorem close_of_misjudges (h : e.misjudges p = true) :
    |p.x.toInt - e.meeting p.y| < 1 / 2 ^ 19 ∧ ¬e.Fine p := by
  constructor
  · by_contra hfar
    rw [not_misjudges_of_far (not_lt.1 hfar)] at h
    exact Bool.false_ne_true h
  · intro hfine
    rw [hfine.not_misjudges] at h
    exact Bool.false_ne_true h

end Edge
end Unrouted
