import Unrouted.Geometry.Point

/-!
A triangulation of some points, grown one point at a time.  A new point removes
every triangle whose circle holds it and is joined to the rim of the hole.  The
first triangle is large and its corners do not belong to the points.

The arithmetic is binary64, so the circles are only nearly right.  The edges of the
mesh are proposals: nothing that uses them relies on the mesh being Delaunay.
-/

namespace Unrouted

structure Vertex where
  x : Float
  y : Float

namespace Vertex

/-- A coordinate as a binary64 number, which holds every one exactly. -/
def coordinate (c : Int32) : Float :=
  let size := (UInt64.ofNat c.toInt.natAbs).toFloat
  if c < 0 then -size else size

def ofPoint (p : Point) : Vertex := { x := coordinate p.x, y := coordinate p.y }

end Vertex

/-- Three corners, by their number among the vertices, and the circle through
them. -/
structure Triangle where
  a : Nat
  b : Nat
  c : Nat
  center : Vertex
  radiusSq : Float

namespace Triangle

/-- The triangle on three vertices.  Corners that almost lie on a line have no
circle worth the name; theirs holds every point, so the next one removes them. -/
def through (vertex : Nat → Vertex) (i j k : Nat) : Triangle :=
  let a := vertex i
  let b := vertex j
  let c := vertex k
  let d := 2.0 * (a.x * (b.y - c.y) + b.x * (c.y - a.y) + c.x * (a.y - b.y))
  if d.abs < 1e-18 then
    { a := i, b := j, c := k, radiusSq := 1.0 / 0.0,
      center := { x := (a.x + c.x) / 2.0, y := (a.y + c.y) / 2.0 } }
  else
    let a2 := a.x * a.x + a.y * a.y
    let b2 := b.x * b.x + b.y * b.y
    let c2 := c.x * c.x + c.y * c.y
    let x := (a2 * (b.y - c.y) + b2 * (c.y - a.y) + c2 * (a.y - b.y)) / d
    let y := (a2 * (c.x - b.x) + b2 * (a.x - c.x) + c2 * (b.x - a.x)) / d
    let dx := a.x - x
    let dy := a.y - y
    { a := i, b := j, c := k, radiusSq := dx * dx + dy * dy, center := { x, y } }

/-- Whether the circle holds `p`; its rim does not. -/
def circleHolds (t : Triangle) (p : Vertex) : Bool :=
  let dx := p.x - t.center.x
  let dy := p.y - t.center.y
  decide (dx * dx + dy * dy < t.radiusSq)

def sides (t : Triangle) : List (Nat × Nat) := [(t.a, t.b), (t.b, t.c), (t.c, t.a)]

end Triangle

namespace Mesh

/-- A side without its direction, the smaller number first. -/
def undirected (s : Nat × Nat) : Nat × Nat := (min s.1 s.2, max s.1 s.2)

/-- The sides of the removed triangles that only one of them has. -/
def rim (removed : List Triangle) : List (Nat × Nat) :=
  let sides := removed.flatMap Triangle.sides
  sides.filter fun s => sides.countP (fun t => undirected t == undirected s) == 1

def insert (vertex : Nat → Vertex) (mesh : List Triangle) (i : Nat) : List Triangle :=
  let removed := mesh.filter fun t => t.circleHolds (vertex i)
  let kept := mesh.filter fun t => !t.circleHolds (vertex i)
  kept ++ (rim removed).map fun s => Triangle.through vertex s.1 s.2 i

/-- The mesh of the first `n` vertices.  The three after them are the corners of
the first triangle. -/
def grow (vertex : Nat → Vertex) (n : Nat) : List Triangle :=
  (List.range n).foldl (insert vertex) [Triangle.through vertex n (n + 1) (n + 2)]

/-- The least positive normal number, which keeps the scale from being zero. -/
def leastScale : Float := Float.ofBits 0x0010000000000000

/-- The points moved and scaled into a box of size one around the origin, then the
corners of a triangle far around that box. -/
def vertices (points : List Point) (box : Box) : Array Vertex :=
  let low := Vertex.ofPoint box.low
  let high := Vertex.ofPoint box.high
  let middleX := (low.x + high.x) / 2.0
  let middleY := (low.y + high.y) / 2.0
  let scale := max (max (high.x - low.x) (high.y - low.y)) leastScale
  let place (p : Point) : Vertex :=
    let v := Vertex.ofPoint p
    { x := (v.x - middleX) / scale, y := (v.y - middleY) / scale }
  let corners : List Vertex := [⟨-20.0, -10.0⟩, ⟨20.0, -10.0⟩, ⟨0.0, 20.0⟩]
  (points.map place ++ corners).toArray

/-- There are at least three points, and the first of them, the first that differs
from it and a third one do not lie on a line, as far as the arithmetic can tell. -/
def spansArea (points : List Point) : Bool :=
  match points with
  | [] => false
  | first :: rest =>
    match rest.find? (· != first) with
    | none => false
    | some second =>
      let o := Vertex.ofPoint first
      let d := Vertex.ofPoint second
      decide (2 ≤ rest.length) && points.any fun p =>
        let v := Vertex.ofPoint p
        (d.x - o.x) * (v.y - o.y) - (d.y - o.y) * (v.x - o.x) != 0.0

/-- The sides of the mesh that join two of the first `n` vertices, each one once, in
the order of the triangles. -/
def innerSides (mesh : List Triangle) (n : Nat) : List (Nat × Nat) :=
  let sides := (mesh.flatMap Triangle.sides).filter fun s =>
    decide (s.1 < n) && decide (s.2 < n)
  (sides.map undirected).eraseDups

/-- The edges of a mesh over the points, as pairs of positions in the list; none
when the points do not span an area. -/
def edges? (points : List Point) : Option (List (Nat × Nat)) :=
  match Box.ofPoints? points with
  | none => none
  | some box =>
    if spansArea points then
      let placed := vertices points box
      let vertex (i : Nat) : Vertex := placed.getD i ⟨0.0, 0.0⟩
      some (innerSides (grow vertex points.length) points.length)
    else none

end Mesh

end Unrouted
