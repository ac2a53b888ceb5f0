import Unrouted.Net.Nearest
import Unrouted.Spanning.Forest

/-!
Bringing a net up to date: the zones are tied anew, then the cheapest links that join
all nodes are found.
-/

namespace Unrouted
namespace Net

/-- The live nodes in the order of their slots; the spanning forest numbers them by
their places here. -/
def liveNodes (net : Net) : List NodeId := net.registry.nodes.handles

def livePoints (net : Net) : Vector Point net.registry.nodes.entries.length :=
  ⟨(net.registry.nodes.entries.map fun e => e.2.position).toArray, by simp⟩

def rank? (net : Net) (n : NodeId) : Option (Fin net.registry.nodes.entries.length) :=
  net.registry.nodes.entries.findFinIdx? fun e => decide (e.1 = n)

/-- The pairs of numbered nodes that copper joins. -/
def copperPairs (net : Net) :
    List (Fin net.registry.nodes.entries.length × Fin net.registry.nodes.entries.length) :=
  net.registry.connections.entries.filterMap fun e =>
    if e.2.isCopper then do
      let a ← net.rank? e.2.source
      let b ← net.rank? e.2.target
      return (a, b)
    else none

/-- The links between the nodes that candidates number. -/
def linksOf (net : Net)
    (candidates : List (Candidate net.registry.nodes.entries.length)) : List MissingLink :=
  let node (i : Fin net.registry.nodes.entries.length) : NodeId :=
    (net.registry.nodes.entries.get i).1
  candidates.filterMap fun c => net.link? (node c.a) (node c.b)

/-- The cheapest links over the copper. -/
def solve (net : Net) : List MissingLink :=
  net.linksOf (Forest.spanning net.strategy net.livePoints net.copperPairs)

/-- Brings a dirty net up to date; a clean one is left as it is. -/
def update (net : Net) : Net :=
  if net.dirty then
    let net := net.tieZones
    { net with missing := net.solve, dirty := false, updates := net.updates + 1 }
  else net

end Net
end Unrouted
