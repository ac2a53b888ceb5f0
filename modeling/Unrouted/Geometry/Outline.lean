import Unrouted.Geometry.Point
import Unrouted.Geometry.Rounding

/-!
Closed outlines and the even-odd rule.  A ray runs from the point to growing `x`;
the point is inside when the ray meets an odd number of edges.  The meeting point
of an edge and the ray's line is found in binary64 arithmetic, one rounding each
for the product, the quotient and the sum.
-/

namespace Unrouted

/-- An edge of an outline, from the earlier to the later vertex. -/
structure Edge where
  source : Point
  target : Point
deriving DecidableEq, Repr

namespace Edge

/-- One end lies above the height `y` and the other does not. -/
def straddles (e : Edge) (y : Int32) : Bool :=
  decide (y < e.target.y) != decide (y < e.source.y)

/-- How far along the line through `e`, from the target, the height `y` is met;
only asked of an edge that is not level. -/
def crossing (e : Edge) (y : Int32) : Rat :=
  let run : Rat := e.source.x.toInt - e.target.x.toInt
  let rise : Rat := e.source.y.toInt - e.target.y.toInt
  let climb : Rat := y.toInt - e.target.y.toInt
  let product := Rounding.roundRat (run * climb)
  let quotient := Rounding.roundRat (product / rise)
  Rounding.roundRat (quotient + e.target.x.toInt)

/-- The ray from `p` meets the edge.  A meeting at `p` itself does not count. -/
def meetsRay (e : Edge) (p : Point) : Bool :=
  e.straddles p.y && decide ((p.x.toInt : Rat) < e.crossing p.y)

end Edge

/-- The vertices of a closed outline in order.  Neither repeats nor
self-intersections are ruled out. -/
abbrev Outline := List Point

namespace Outline

/-- The first edge closes the outline, from the last vertex to the first. -/
def edges (outline : Outline) : List Edge :=
  match outline.getLast? with
  | none => []
  | some last => List.zipWith Edge.mk (last :: outline) outline

/-- The even-odd rule, without a look at the outline's box. -/
def encloses (outline : Outline) (p : Point) : Bool :=
  outline.edges.countP (fun e => e.meetsRay p) % 2 == 1

end Outline

end Unrouted
