/-!
Board coordinates and the boxes around them.  A coordinate is a whole number of
board units in 32 bits, so two points are equal exactly when their coordinates
are.
-/

namespace Unrouted

structure Point where
  x : Int32
  y : Int32
deriving DecidableEq, Repr, Inhabited

/-- An axis-aligned box.  Its sides belong to it. -/
structure Box where
  low : Point
  high : Point
deriving DecidableEq, Repr, Inhabited

namespace Box

def ofPoint (p : Point) : Box := { low := p, high := p }

/-- The least box that holds `b` and `p`. -/
def cover (b : Box) (p : Point) : Box :=
  { low := { x := min b.low.x p.x, y := min b.low.y p.y },
    high := { x := max b.high.x p.x, y := max b.high.y p.y } }

/-- The least box around some points; no points have none. -/
def ofPoints? : List Point → Option Box
  | [] => none
  | p :: rest => some (rest.foldl cover (ofPoint p))

def contains (b : Box) (p : Point) : Bool :=
  decide (b.low.x ≤ p.x) && decide (p.x ≤ b.high.x) &&
    decide (b.low.y ≤ p.y) && decide (p.y ≤ b.high.y)

theorem contains_iff {b : Box} {p : Point} :
    b.contains p = true ↔
      (b.low.x ≤ p.x ∧ p.x ≤ b.high.x) ∧ b.low.y ≤ p.y ∧ p.y ≤ b.high.y := by
  simp [contains, and_assoc]

theorem ofPoints?_eq_none_iff {ps : List Point} : ofPoints? ps = none ↔ ps = [] := by
  cases ps <;> simp [ofPoints?]

end Box

end Unrouted
