import Unrouted.Net.Basic

/-!
Nearest nodes, and the simple mode that draws one line from each marked node to its
nearest unmarked one.
-/

namespace Unrouted
namespace Net

/-- The live nodes other than `n` that pass a filter, in the order of their slots. -/
def others (net : Net) (n : NodeId) (accepts : Node → Bool) : List (NodeId × Node) :=
  net.registry.nodes.entries.filter fun e => decide (e.1 ≠ n) && accepts e.2

/-- The nearest of the others, the one in the lowest slot of several. -/
def nearest? (net : Net) (n : NodeId) (accepts : Node → Bool) : Option NodeId :=
  match net.registry.position? n with
  | none => none
  | some origin =>
    ((net.others n accepts).minOn? fun e => origin.distanceSq e.2.position).map Prod.fst

/-- All the others, the nearest first, those at equal distance by their slots. -/
def byDistance (net : Net) (n : NodeId) (accepts : Node → Bool) : List NodeId :=
  match net.registry.position? n with
  | none => []
  | some origin =>
    let keyed := (net.others n accepts).map fun e => (origin.distanceSq e.2.position, e.1)
    (keyed.mergeSort fun a b => decide (a.1 ≤ b.1)).map Prod.snd

/-- The first `count` of the others by distance, or all of them. -/
def nearestNodes (net : Net) (n : NodeId) (accepts : Node → Bool) :
    Option Nat → List NodeId
  | none => net.byDistance n accepts
  | some count => (net.byDistance n accepts).take count

/-- A link between two live nodes, with their places and distance. -/
def link? (net : Net) (source target : NodeId) : Option MissingLink := do
  let sourcePosition ← net.registry.position? source
  let targetPosition ← net.registry.position? target
  return { source, target, sourcePosition, targetPosition,
           weight := sourcePosition.distance targetPosition }

/-- Marks a live node.  One that is marked already stays in its place. -/
def mark (net : Net) (n : NodeId) : Net :=
  match net.registry.node? n with
  | none => net
  | some v =>
    if v.flagged then net
    else { net with registry := net.registry.setFlag n true, marked := net.marked ++ [n] }

def clearMarks (net : Net) : Net :=
  { net with
    registry := net.marked.foldl (fun r n => r.setFlag n false) net.registry,
    marked := [] }

/-- The line of a marked node.  There is none when no node is unmarked. -/
def simpleLink? (net : Net) (n : NodeId) : Option MissingLink :=
  (net.nearest? n fun v => !v.flagged).bind (net.link? n)

def simpleLinks (net : Net) : List MissingLink := net.marked.filterMap net.simpleLink?

end Net
end Unrouted
