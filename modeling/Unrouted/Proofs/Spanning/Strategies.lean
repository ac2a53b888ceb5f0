import Unrouted.Proofs.Spanning.Minimal

/-!
The mesh against every pair of points.  A mesh that keeps the neighbors together is as good
as every pair.  Binary64 arithmetic does not always grow such a mesh.
-/

namespace Unrouted
namespace Forest

open Candidate Unrouted.Partition

variable {n : Nat} {cs ds : List (Candidate n)}

/-- The two strategies find links of the same weights exactly when the mesh joins every two
points by copper and links no longer than these are apart.  When the sides of the mesh leave
nothing apart, this is asked of the sides alone.  It is enough that each two neighbors are
joined by copper or by a side. -/
theorem weights_mesh_eq_iff (points : Vector Point n) (copper : List (Fin n × Fin n)) :
    let p := (discrete n).mergeAll copper
    let sides := propose .mesh points p
    let links := spanning .mesh points copper
    (weights links = weights (spanning .everyPair points copper) ↔
      ∀ a b, Linked copper links ((points.get a).distance (points.get b)) a b) ∧
    ((∀ a b, (p.mergeAll (sides.map pair)).joined a b = true) →
      (weights links = weights (spanning .everyPair points copper) ↔
        ∀ a b, Linked copper sides ((points.get a).distance (points.get b)) a b)) ∧
    ((∀ a b, Neighbors points a b →
        p.joined a b = true ∨ between points a b ∈ sides ∨ between points b a ∈ sides) →
      weights links = weights (spanning .everyPair points copper)) := by
  have hp : ((discrete n).mergeAll copper).Counted := (counted_discrete n).mergeAll copper
  have hsides : ∀ c ∈ propose .mesh points ((discrete n).mergeAll copper), c.Straight points :=
    fun _ hc => straight_of_mem_propose hc
  have hcomplete := complete_spec hp hsides
  simp only [linked_iff]
  exact ⟨weights_eq_everyPair_iff hp hcomplete.acyclic hcomplete.straight,
    weights_complete_iff hp hsides, weights_complete_of_neighbors hp hsides⟩

/-! ## A mesh that loses a point

Three points close together and one far away.  In a box of size one around all of them, every
triangle on the three counts as one without area, and no side to the third point is left at
the end.  The second scan joins that point to the nearest one; the link between it and the
second point stays lost. -/

def farPoints : Vector Point 4 :=
  #v[⟨-2147483648, 2147483647⟩, ⟨-3, -2⟩, ⟨0, 0⟩, ⟨1, 0⟩]

/-- Candidates of different weights have one ascending order. -/
theorem byWeight_eq (hperm : ds.Perm cs) (hsorted : ds.Pairwise fun c d => c.weight < d.weight) :
    byWeight cs = ds := by
  have hle : ds.Pairwise fun c d => c.weight ≤ d.weight := hsorted.imp Nat.le_of_lt
  have hweights : (ds.map fun c => c.weight.units).Nodup :=
    List.pairwise_map.2 (hsorted.imp Nat.ne_of_lt)
  refine List.Perm.eq_of_pairwise (fun c d hc hd hcd hdc => ?_) (sorted_byWeight cs) hle
    ((List.mergeSort_perm cs _).trans hperm.symm)
  have hc : c ∈ ds := hperm.symm.subset (mem_byWeight.1 hc)
  exact List.inj_on_of_nodup_map hweights hc hd (Nat.le_antisymm hcd hdc)

theorem spanning_mesh_farPoints :
    spanning .mesh farPoints [] =
      [between farPoints 1 3, between farPoints 0 1, between farPoints 3 2] := by
  let sides := [between farPoints 0 1, between farPoints 1 3, between farPoints 0 3]
  let sorted := [between farPoints 1 3, between farPoints 0 1, between farPoints 0 3]
  let q := (accept (discrete 4) sorted).1
  have hsides : propose .mesh farPoints (discrete 4) = sides := by decide +kernel
  have hsorted : byWeight sides = sorted :=
    byWeight_eq (by decide +kernel) (by decide +kernel)
  have hfirst : accept (discrete 4) sorted =
      (q, [between farPoints 1 3, between farPoints 0 1]) := by decide +kernel
  have hnearest : nearestPairs farPoints q = [between farPoints 3 2] := by decide +kernel
  have hsecond : (accept q [between farPoints 3 2]).2 = [between farPoints 3 2] := by
    decide +kernel
  have hcount : ¬q.count ≤ 1 := by decide +kernel
  have hgreedy : greedy (discrete 4) sides =
      (q, [between farPoints 1 3, between farPoints 0 1]) := by
    rw [greedy, hsorted, hfirst]
  have hcomplete : complete farPoints (discrete 4) sides =
      [between farPoints 1 3, between farPoints 0 1] ++
        (accept q (byWeight [between farPoints 3 2])).2 := by
    rw [complete, if_neg (by decide), hgreedy]
    simp only [if_neg hcount, greedy, hnearest]
  have hspanning : spanning .mesh farPoints [] = complete farPoints (discrete 4) sides := by
    rw [← hsides]
    rfl
  rw [hspanning, hcomplete, byWeight, List.mergeSort_singleton, hsecond]
  rfl

/-- The second point and the third are joined by longer links than these are apart. -/
theorem weights_mesh_farPoints_ne :
    weights (spanning .mesh farPoints []) ≠ weights (spanning .everyPair farPoints []) := by
  have hp : (discrete 4).Counted := counted_discrete 4
  have hcomplete : Completes farPoints (discrete 4) (spanning .mesh farPoints []) :=
    completes_spanning .mesh farPoints []
  intro h
  have hjoined := (weights_eq_everyPair_iff hp hcomplete.acyclic hcomplete.straight).1 h 1 2
  rw [spanning_mesh_farPoints] at hjoined
  revert hjoined
  decide +kernel

end Forest
end Unrouted
