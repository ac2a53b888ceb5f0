import Unrouted.Board.Basic
import Unrouted.Geometry.Outline
import Unrouted.Registry

/-!
The parts of a zone in the registry of a net.  A part stands for itself by the node at
its first vertex; the nodes inside it are tied to that one.
-/

namespace Unrouted

structure Polygon where
  outline : Outline
  zone : ZoneId
  box : Box
  node : NodeId
deriving DecidableEq

namespace Polygon

/-- Holds the node of an outline.  An outline of fewer than two points is no part of a
zone. -/
def register? (r : Registry) (zone : ZoneId) (box : Box) :
    Outline → Option (Polygon × Registry)
  | first :: second :: rest =>
    let (node, r) := r.hold first
    some ({ outline := first :: second :: rest, zone, box, node }, r)
  | _ => none

/-- Registers all outlines of a zone, each with its own box. -/
def registerAll (r : Registry) (zone : ZoneId) : List Outline → List Polygon × Registry
  | [] => ([], r)
  | outline :: rest =>
    match (Box.ofPoints? outline).bind fun box => register? r zone box outline with
    | none => registerAll r zone rest
    | some (polygon, r) =>
      let (polygons, r) := registerAll r zone rest
      (polygon :: polygons, r)

/-- The even-odd rule for points in the box; the others are outside. -/
def contains (g : Polygon) (p : Point) : Bool := g.box.contains p && g.outline.encloses p

/-- Whether a node is inside; a dead one is not. -/
def containsNode (g : Polygon) (r : Registry) (n : NodeId) : Bool :=
  (r.node? n).any fun v => g.contains v.position

/-- The nodes to be tied to the polygon's own node. -/
def contacts (g : Polygon) (r : Registry) : List NodeId :=
  r.nodes.handles.filter fun n => decide (n ≠ g.node) && g.containsNode r n

/-- The nodes inside some polygons, each with the node of the polygon. -/
def contactPairs (r : Registry) (polygons : List Polygon) : List (NodeId × NodeId) :=
  polygons.flatMap fun g => (g.contacts r).map (·, g.node)

end Polygon

end Unrouted
