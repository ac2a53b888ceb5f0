import Unrouted.Proofs.Geometry.Crossing
import Unrouted.Proofs.Geometry.Ring

/-!
The points that an outline holds.  Rounding may give a point to the wrong side of an edge close
to it, but not on a small board, and never a point outside the box.
-/

namespace Unrouted

theorem countP_add_countP_mod_two {α : Type} (f g : α → Bool) (l : List α) :
    (l.countP f + l.countP g) % 2 = l.countP (fun a => f a != g a) % 2 := by
  induction l with
  | nil => rfl
  | cons a rest ih =>
    simp only [List.countP_cons]
    cases f a <;> cases g a <;> simp <;> omega

namespace Outline

variable {outline : Outline} {box : Box} {p : Point}

/-! ## Close edges -/

/-- The even-odd rule for exact meetings. -/
def evenOdd (outline : Outline) (p : Point) : Bool :=
  outline.edges.countP (fun e => e.passes p) % 2 == 1

theorem encloses_eq_evenOdd_iff :
    outline.encloses p = outline.evenOdd p ↔
      Even (outline.edges.countP fun e => e.misjudges p) := by
  have hparity := countP_add_countP_mod_two (fun e => e.meetsRay p) (fun e => e.passes p)
    outline.edges
  simp only [Edge.misjudges, Nat.even_iff, ← hparity, encloses, evenOdd]
  rw [Bool.eq_iff_iff, beq_iff_eq, beq_iff_eq]
  omega

theorem fine_of_small {e : Edge} (he : e ∈ outline.edges)
    (hsmall : ∀ q ∈ p :: outline, |q.x.toInt| ≤ 2 ^ 25 ∧ |q.y.toInt| ≤ 2 ^ 25) : e.Fine p := by
  obtain ⟨hsource, htarget⟩ := ends_mem_of_mem_edges he
  obtain ⟨hsourceX, hsourceY⟩ := hsmall e.source (List.mem_cons_of_mem p hsource)
  obtain ⟨htargetX, htargetY⟩ := hsmall e.target (List.mem_cons_of_mem p htarget)
  have hpoint := (hsmall p List.mem_cons_self).1
  have hrun : |e.run| ≤ 2 ^ 26 := (abs_sub _ _).trans (by omega)
  have hrise : |e.rise| ≤ 2 ^ 26 := (abs_sub _ _).trans (by omega)
  calc |e.rise| * (|e.run| + |p.x.toInt|)
      ≤ 2 ^ 26 * (2 ^ 26 + 2 ^ 25) := mul_le_mul hrise (by omega) (by positivity) (by norm_num)
    _ < 2 ^ 53 - 1 := by norm_num

/-! ## Points outside the box -/

/-- A line goes from one side of a height to the other as often as its ends tell, up to an even
number. -/
theorem countP_straddles_path (a : Point) (l : List Point) (y : Int32) :
    (path a l).countP (fun e => e.straddles y) % 2 =
      (decide (y < (l.getLast?.getD a).y) != decide (y < a.y)).toNat := by
  induction l generalizing a with
  | nil => exact congrArg Bool.toNat (bne_self_eq_false _).symm
  | cons b rest ih =>
    rw [path, List.countP_cons, Nat.add_mod, ih, List.getLast?_cons, Option.getD_some,
      Edge.straddles]
    generalize decide (y < (rest.getLast?.getD b).y) = last
    cases last <;> cases decide (y < a.y) <;> cases decide (y < b.y) <;> rfl

/-- A ring crosses every height an even number of times. -/
theorem even_countP_straddles (outline : Outline) (y : Int32) :
    Even (outline.edges.countP fun e => e.straddles y) := by
  rw [Nat.even_iff, edges_eq_path outline default, countP_straddles_path]
  cases outline.getLast? <;> exact congrArg Bool.toNat (bne_self_eq_false _)

/-- From a point outside the box every edge across its height is met, or none is. -/
theorem meetsRay_of_outside (hbox : Box.ofPoints? outline = some box)
    (hp : box.contains p = false) {e : Edge} (he : e ∈ outline.edges) :
    e.meetsRay p = (e.straddles p.y && decide (p.x < box.low.x)) := by
  cases hstraddles : e.straddles p.y with
  | false => rw [Edge.meetsRay, hstraddles, Bool.false_and, Bool.false_and]
  | true =>
    obtain ⟨hsource, htarget⟩ := ends_mem_of_mem_edges he
    have hsource := Box.contains_iff.1 (Box.contains_of_mem hbox hsource)
    have htarget := Box.contains_iff.1 (Box.contains_of_mem hbox htarget)
    rw [Bool.true_and]
    -- The ends are in the box on both sides of the height, so only `p.x` can be outside.
    have hside : p.x < box.low.x ∨ box.high.x < p.x := by
      have houtside := mt Box.contains_iff.2 (Bool.not_eq_true _ ▸ hp)
      have hcases := Edge.climb_cases hstraddles
      simp only [Edge.climb, Edge.rise] at hcases
      simp only [Int32.le_iff_toInt_le, Int32.lt_iff_toInt_lt] at hsource htarget houtside ⊢
      omega
    rcases hside with hleft | hright
    · rw [decide_eq_true hleft]
      exact Edge.meetsRay_of_right hstraddles (Int32.lt_of_lt_of_le hleft hsource.1.1)
        (Int32.lt_of_lt_of_le hleft htarget.1.1)
    · have hnot : ¬p.x < box.low.x := by
        simp only [Int32.le_iff_toInt_le, Int32.lt_iff_toInt_lt] at hsource hright ⊢
        omega
      rw [decide_eq_false hnot]
      exact Edge.meetsRay_of_left hstraddles (Int32.lt_of_le_of_lt hsource.1.2 hright)
        (Int32.lt_of_le_of_lt htarget.1.2 hright)

/-- The test for the box rejects no point that the even-odd rule takes. -/
theorem encloses_of_outside (hbox : Box.ofPoints? outline = some box)
    (hp : box.contains p = false) : outline.encloses p = false := by
  have hsame : outline.edges.countP (fun e => e.meetsRay p) =
      outline.edges.countP fun e => e.straddles p.y && decide (p.x < box.low.x) :=
    List.countP_congr fun e he => by rw [meetsRay_of_outside hbox hp he]
  have heven := even_countP_straddles outline p.y
  rw [encloses, hsame]
  by_cases hleft : p.x < box.low.x
  · simp [hleft, Nat.even_iff.1 heven]
  · simp [hleft]

end Outline

/-! ## Polygons -/

namespace Polygon

/-- The points in the box that the even-odd rule takes when every meeting is exact. -/
def containsExactly (g : Polygon) (p : Point) : Bool := g.box.contains p && g.outline.evenOdd p

/-- For a point in its box a polygon agrees with the exact rule exactly if it misjudges an even
number of edges.  An edge is misjudged only when it passes the point closely and is long or far
out, so on a small board none is. -/
theorem contains_eq_containsExactly_iff (g : Polygon) (p : Point) :
    (g.contains p = g.containsExactly p ↔
      (g.box.contains p = true → Even (g.outline.edges.countP fun e => e.misjudges p))) ∧
    (∀ e : Edge, e.misjudges p = true →
      |p.x.toInt - e.meeting p.y| < 1 / 2 ^ 19 ∧ ¬e.Fine p) ∧
    ((∀ q ∈ p :: g.outline, |q.x.toInt| ≤ 2 ^ 25 ∧ |q.y.toInt| ≤ 2 ^ 25) →
      g.contains p = g.containsExactly p) := by
  have hiff : g.contains p = g.containsExactly p ↔
      (g.box.contains p = true → Even (g.outline.edges.countP fun e => e.misjudges p)) := by
    rw [contains, containsExactly, ← Outline.encloses_eq_evenOdd_iff]
    cases g.box.contains p <;> simp
  refine ⟨hiff, fun e => Edge.close_of_misjudges, fun hsmall => hiff.2 fun _ => ?_⟩
  have hnone : g.outline.edges.countP (fun e => e.misjudges p) = 0 :=
    List.countP_eq_zero.2 fun e he => by
      rw [(Outline.fine_of_small he hsmall).not_misjudges]
      exact Bool.false_ne_true
  rw [hnone]
  exact Even.zero

/-- A triangle on a small board, and a long side that is misjudged. -/
theorem contains_eq_containsExactly_smallTriangle :
    let g : Polygon :=
      { outline := [⟨0, 0⟩, ⟨20, 0⟩, ⟨21, 20⟩], zone := 0, box := ⟨⟨0, 0⟩, ⟨21, 20⟩⟩,
        node := ⟨0, 0⟩ }
    let side : Edge := ⟨⟨200000000, 0⟩, ⟨200000001, 200000000⟩⟩
    g.contains ⟨20, 1⟩ = g.containsExactly ⟨20, 1⟩ ∧ g.contains ⟨20, 1⟩ = true ∧
      side.misjudges ⟨200000000, 1⟩ = true ∧ ¬side.Fine ⟨200000000, 1⟩ := by
  intro g side
  have hside : side.misjudges ⟨200000000, 1⟩ = true := by decide +kernel
  exact ⟨(contains_eq_containsExactly_iff g ⟨20, 1⟩).2.2 (by decide), by decide +kernel, hside,
    ((contains_eq_containsExactly_iff g ⟨200000000, 1⟩).2.1 side hside).2⟩

/-- The right side of the triangle passes the point at a distance of `1 / 200000000`. -/
theorem contains_ne_containsExactly_largeTriangle :
    let g : Polygon :=
      { outline := [⟨0, 0⟩, ⟨200000000, 0⟩, ⟨200000001, 200000000⟩], zone := 0,
        box := ⟨⟨0, 0⟩, ⟨200000001, 200000000⟩⟩, node := ⟨0, 0⟩ }
    Box.ofPoints? g.outline = some g.box ∧ g.containsExactly ⟨200000000, 1⟩ = true ∧
      g.contains ⟨200000000, 1⟩ = false := by
  decide +kernel

end Polygon
end Unrouted
