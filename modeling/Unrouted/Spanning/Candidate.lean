import Unrouted.Geometry.Length
import Unrouted.Geometry.Mesh
import Unrouted.Spanning.Partition

/-!
Candidates for missing connections.  A candidate joins two numbered points of
different components and weighs as much as the points are apart.
-/

namespace Unrouted

inductive Strategy where
  /-- The edges of a mesh over the points. -/
  | mesh
  | everyPair
deriving DecidableEq, Repr, Inhabited

/-- A weighted pair of points, by their numbers. -/
structure Candidate (n : Nat) where
  a : Fin n
  b : Fin n
  weight : Length
deriving DecidableEq, Repr

namespace Candidate

variable {n : Nat}

def between (points : Vector Point n) (a b : Fin n) : Candidate n :=
  { a, b, weight := (points.get a).distance (points.get b) }

/-- Every pair that crosses components, in the order of its numbers. -/
def everyPair (points : Vector Point n) (p : Partition n) : List (Candidate n) :=
  (List.finRange n).flatMap fun a =>
    ((List.finRange n).filter fun b => decide (a < b) && !p.joined a b).map (between points a)

/-- Both ends of a proposed pair, if they are numbers of points. -/
def ends? (s : Nat × Nat) : Option (Fin n × Fin n) :=
  if h : s.1 < n ∧ s.2 < n then some (⟨s.1, h.1⟩, ⟨s.2, h.2⟩) else none

/-- Every way to choose two entries of a list, in order. -/
def choosePairs {α : Type} : List α → List (α × α)
  | [] => []
  | x :: rest => rest.map (x, ·) ++ choosePairs rest

/-- The shortest candidate from one group of points to another, the first one of
several. -/
def shortest? (points : Vector Point n) (as bs : List (Fin n)) : Option (Candidate n) :=
  (as.flatMap fun a => bs.map (between points a)).minOn? (·.weight.units)

/-- One shortest candidate for every two components. -/
def nearestPairs (points : Vector Point n) (p : Partition n) : List (Candidate n) :=
  (choosePairs p.components).filterMap fun s => shortest? points s.1 s.2

/-- The sides of a mesh that cross components, as far as they join two of the points.
Points that span no area have no mesh; the nearest pairs take its place. -/
def ofSides (points : Vector Point n) (p : Partition n) :
    Option (List (Nat × Nat)) → List (Candidate n)
  | none => nearestPairs points p
  | some sides =>
    ((sides.filterMap ends?).filter fun s => !p.joined s.1 s.2).map
      fun s => between points s.1 s.2

def propose (strategy : Strategy) (points : Vector Point n) (p : Partition n) :
    List (Candidate n) :=
  match strategy with
  | .everyPair => everyPair points p
  | .mesh => ofSides points p (Mesh.edges? points.toList)

end Candidate

end Unrouted
