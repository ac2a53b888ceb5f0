import Unrouted.Store.Basic

/-!
Airwires: the lines to be drawn.  A visible net shows its missing links, except those
of a marked node, and after them the lines of its marked nodes.
-/

namespace Unrouted

structure Airwire where
  net : NetCode
  start : Point
  finish : Point
  weight : Length
  /-- Drawn for a marked node. -/
  simple : Bool
deriving DecidableEq, Repr

namespace Airwire

def ofLink (net : NetCode) (simple : Bool) (l : MissingLink) : Airwire :=
  { net, start := l.sourcePosition, finish := l.targetPosition, weight := l.weight, simple }

end Airwire

namespace Net

/-- The node is live and not marked. -/
def isSteady (net : Net) (n : NodeId) : Bool := (net.registry.node? n).any fun v => !v.flagged

/-- The missing links that are drawn; results may be older than the nodes. -/
def steadyLinks (net : Net) : List MissingLink :=
  net.missing.filter fun l =>
    decide (Length.zero < l.weight) && net.isSteady l.source && net.isSteady l.target

def airwires (net : Net) (code : NetCode) : List Airwire :=
  if net.visible then
    net.steadyLinks.map (Airwire.ofLink code false) ++
      net.simpleLinks.map (Airwire.ofLink code true)
  else []

end Net

namespace Store

/-- The nets with their numbers, net zero left out. -/
def numberedNets (s : Store) : List (NetCode × Net) :=
  (s.nets.toList.zipIdx.drop 1).map fun e => (UInt64.ofNat e.2, e.1)

/-- The airwires of all nets but net zero, in the order of the nets. -/
def airwires (s : Store) : List Airwire :=
  s.numberedNets.flatMap fun e => e.2.airwires e.1

end Store

end Unrouted
