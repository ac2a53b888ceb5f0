import Unrouted.Spanning.Forest

/-!
The search for links without points.  Of the points it reads how far they are apart and the
sides of their mesh, so any lengths and any sides can stand in their place.  A length is a number
of units, of which only the order counts here; points with other coordinates have their plan too.
-/

namespace Unrouted

/-- What the search for links reads of some numbered points. -/
structure Plan (n : Nat) where
  distance : Fin n → Fin n → Length
  /-- The sides of the mesh, unless the points span no area. -/
  sides : Option (List (Nat × Nat))

namespace Plan

variable {n : Nat}

def ofPoints (points : Vector Point n) : Plan n where
  distance a b := (points.get a).distance (points.get b)
  sides := Mesh.edges? points.toList

/-- Each length is the same both ways. -/
def Symmetric (plan : Plan n) : Prop := ∀ a b, plan.distance a b = plan.distance b a

def between (plan : Plan n) (a b : Fin n) : Candidate n :=
  { a, b, weight := plan.distance a b }

def everyPair (plan : Plan n) (p : Partition n) : List (Candidate n) :=
  (List.finRange n).flatMap fun a =>
    ((List.finRange n).filter fun b => decide (a < b) && !p.joined a b).map (plan.between a)

def shortest? (plan : Plan n) (as bs : List (Fin n)) : Option (Candidate n) :=
  (as.flatMap fun a => bs.map (plan.between a)).minOn? (·.weight.units)

def nearestPairs (plan : Plan n) (p : Partition n) : List (Candidate n) :=
  (Candidate.choosePairs p.components).filterMap fun s => plan.shortest? s.1 s.2

def ofSides (plan : Plan n) (p : Partition n) : Option (List (Nat × Nat)) → List (Candidate n)
  | none => plan.nearestPairs p
  | some sides =>
    ((sides.filterMap Candidate.ends?).filter fun s => !p.joined s.1 s.2).map
      fun s => plan.between s.1 s.2

def propose (plan : Plan n) (strategy : Strategy) (p : Partition n) : List (Candidate n) :=
  match strategy with
  | .everyPair => plan.everyPair p
  | .mesh => plan.ofSides p plan.sides

def complete (plan : Plan n) (p : Partition n) (proposed : List (Candidate n)) :
    List (Candidate n) :=
  if p.count ≤ 1 then [] else
    let (q, accepted) := Forest.greedy p proposed
    if q.count ≤ 1 then accepted else accepted ++ (Forest.greedy q (plan.nearestPairs q)).2

def spanning (plan : Plan n) (strategy : Strategy) (joined : List (Fin n × Fin n)) :
    List (Candidate n) :=
  let p := (Partition.discrete n).mergeAll joined
  plan.complete p (plan.propose strategy p)

/-! ## The plan of some points -/

theorem symmetric_ofPoints (points : Vector Point n) : (ofPoints points).Symmetric :=
  fun a b => Point.distance_comm (points.get a) (points.get b)

theorem nearestPairs_ofPoints (points : Vector Point n) (p : Partition n) :
    (ofPoints points).nearestPairs p = Candidate.nearestPairs points p := rfl

theorem everyPair_ofPoints (points : Vector Point n) (p : Partition n) :
    (ofPoints points).everyPair p = Candidate.everyPair points p := rfl

theorem propose_ofPoints (points : Vector Point n) (strategy : Strategy) (p : Partition n) :
    (ofPoints points).propose strategy p = Candidate.propose strategy points p := by
  cases strategy with
  | everyPair => rfl
  | mesh =>
    show (ofPoints points).ofSides p (Mesh.edges? points.toList) =
      Candidate.ofSides points p (Mesh.edges? points.toList)
    cases Mesh.edges? points.toList <;> rfl

theorem complete_ofPoints (points : Vector Point n) (p : Partition n)
    (proposed : List (Candidate n)) :
    (ofPoints points).complete p proposed = Forest.complete points p proposed := rfl

theorem spanning_ofPoints (points : Vector Point n) (strategy : Strategy)
    (joined : List (Fin n × Fin n)) :
    (ofPoints points).spanning strategy joined = Forest.spanning strategy points joined := by
  rw [spanning, propose_ofPoints, complete_ofPoints, Forest.spanning]

/-! ## Shortest candidates -/

theorem exists_of_shortest? {plan : Plan n} {as bs : List (Fin n)} {c : Candidate n}
    (h : plan.shortest? as bs = some c) : ∃ a ∈ as, ∃ b ∈ bs, c = plan.between a b := by
  have hmem := List.minOn?_mem h
  obtain ⟨a, ha, hc⟩ := List.mem_flatMap.1 hmem
  obtain ⟨b, hb, rfl⟩ := List.mem_map.1 hc
  exact ⟨a, ha, b, hb, rfl⟩

theorem exists_shortest? (plan : Plan n) {as bs : List (Fin n)} {a b : Fin n} (ha : a ∈ as)
    (hb : b ∈ bs) : ∃ c, plan.shortest? as bs = some c := by
  have hmem : plan.between a b ∈ as.flatMap fun a => bs.map (plan.between a) :=
    List.mem_flatMap.2 ⟨a, ha, List.mem_map_of_mem hb⟩
  exact Option.isSome_iff_exists.1 (List.isSome_minOn?_of_mem hmem)

end Plan
end Unrouted
