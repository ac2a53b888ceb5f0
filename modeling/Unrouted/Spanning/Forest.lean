import Unrouted.Spanning.Candidate

/-!
The cheapest way to join all components.  Candidates are taken in the order of
their weights, equal ones in the order of their proposal, and accepted when they
join two components.
-/

namespace Unrouted
namespace Forest

variable {n : Nat}

/-- Accepts candidates in order until one component is left. -/
def accept (p : Partition n) : List (Candidate n) → Partition n × List (Candidate n)
  | [] => (p, [])
  | c :: rest =>
    if p.count ≤ 1 then (p, [])
    else if p.joined c.a c.b then accept p rest
    else
      let (q, accepted) := accept (p.merge c.a c.b) rest
      (q, c :: accepted)

/-- A stable sort by weight. -/
def byWeight (candidates : List (Candidate n)) : List (Candidate n) :=
  candidates.mergeSort fun c d => decide (c.weight ≤ d.weight)

/-- The greedy forest over the components of `p`. -/
def greedy (p : Partition n) (candidates : List (Candidate n)) :
    Partition n × List (Candidate n) :=
  accept p (byWeight candidates)

/-- Joins all components, by proposed candidates as far as these go.  What they leave
apart, nearest pairs join. -/
def complete (points : Vector Point n) (p : Partition n) (proposed : List (Candidate n)) :
    List (Candidate n) :=
  if p.count ≤ 1 then [] else
    let (q, accepted) := greedy p proposed
    if q.count ≤ 1 then accepted
    else accepted ++ (greedy q (Candidate.nearestPairs points q)).2

/-- Candidates that join all points into one component, over pairs that are joined
already. -/
def spanning (strategy : Strategy) (points : Vector Point n) (joined : List (Fin n × Fin n)) :
    List (Candidate n) :=
  let p := (Partition.discrete n).mergeAll joined
  complete points p (Candidate.propose strategy points p)

end Forest
end Unrouted
