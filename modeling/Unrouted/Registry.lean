import Unrouted.Arena
import Unrouted.Geometry.Point
import Unrouted.Table

/-!
The nodes and connections of one net.  Items that use the same point share a node,
which lives as long as one of them holds it.  A connection joins two nodes of the
same registry.
-/

namespace Unrouted

structure Node where
  position : Point
  /-- Drawn by a single line to its nearest neighbour while an item is dragged. -/
  flagged : Bool
  /-- How many times the items of the net hold the node, by assumption fewer than
  `2 ^ 32` times. -/
  holds : Nat
deriving DecidableEq, Repr

abbrev NodeId := Handle Node

/-- A connection.  Weight zero stands for copper that is there. -/
structure Connection where
  source : NodeId
  target : NodeId
  weight : Float
deriving DecidableEq, Repr

abbrev ConnectionId := Handle Connection

namespace Connection

def isCopper (c : Connection) : Bool := c.weight == 0.0

def touches (c : Connection) (n : NodeId) : Bool :=
  decide (c.source = n) || decide (c.target = n)

end Connection

/-- A connection that was refused because an end is not a live node. -/
structure ForeignEnd where
  source : NodeId
  target : NodeId
deriving DecidableEq, Repr

def ForeignEnd.message (e : ForeignEnd) : String :=
  "connection " ++ e.source.text ++ "-" ++ e.target.text ++
    " references a node outside this net"

structure Registry where
  nodes : Arena Node
  /-- The node at each point in use. -/
  places : Table Point NodeId
  connections : Arena Connection
deriving DecidableEq

namespace Registry

def empty : Registry :=
  { nodes := .empty, places := .empty, connections := .empty }

instance : Inhabited Registry := ⟨empty⟩

def node? (r : Registry) (n : NodeId) : Option Node := r.nodes.get? n

def position? (r : Registry) (n : NodeId) : Option Point := (r.node? n).map Node.position

def find? (r : Registry) (p : Point) : Option NodeId := r.places.get? p

def connection? (r : Registry) (c : ConnectionId) : Option Connection := r.connections.get? c

/-- Puts a new node at `p`, held once. -/
def create (r : Registry) (p : Point) : NodeId × Registry :=
  let (n, nodes) := r.nodes.insert { position := p, flagged := false, holds := 1 }
  (n, { r with nodes := nodes, places := r.places.insert p n })

def modifyNode (r : Registry) (n : NodeId) (f : Node → Node) : Registry :=
  { r with nodes := r.nodes.modify n f }

/-- Holds the node at `p` once more, and creates it if there is none. -/
def hold (r : Registry) (p : Point) : NodeId × Registry :=
  match r.find? p with
  | none => r.create p
  | some n =>
    if r.nodes.live n then (n, r.modifyNode n fun v => { v with holds := v.holds + 1 })
    else r.create p

/-- Erases a node whoever holds it. -/
def discard (r : Registry) (n : NodeId) : Registry :=
  match r.node? n with
  | none => r
  | some v =>
    { r with
      nodes := r.nodes.erase n,
      places := if r.find? v.position = some n then r.places.erase v.position else r.places }

/-- Gives up one hold on a node, and erases it with the last one.  Tells whether it
was erased. -/
def release (r : Registry) (n : NodeId) : Bool × Registry :=
  match r.node? n with
  | none => (false, r)
  | some v =>
    if v.holds ≤ 1 then (true, r.discard n)
    else (false, r.modifyNode n fun v => { v with holds := v.holds - 1 })

def setFlag (r : Registry) (n : NodeId) (flag : Bool) : Registry :=
  r.modifyNode n fun v => { v with flagged := flag }

def connect (r : Registry) (source target : NodeId) (weight : Float) :
    Except ForeignEnd (ConnectionId × Registry) :=
  if r.nodes.live source && r.nodes.live target then
    let (c, connections) := r.connections.insert { source, target, weight }
    .ok (c, { r with connections := connections })
  else .error { source, target }

def disconnect (r : Registry) (c : ConnectionId) : Registry :=
  { r with connections := r.connections.erase c }

end Registry

end Unrouted
