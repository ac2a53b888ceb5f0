import Unrouted.Proofs.Net.Alike
import Unrouted.Proofs.Spanning.Lightest

/-!
Over every pair the missing links are the cheapest way to complete a net.  Whatever pairs of
live nodes make a tree of the components that the copper leaves, the missing links are as
many and, in ascending order, one by one no longer; so no pairs that connect the net are
shorter in all.
-/

namespace Unrouted
namespace Net

namespace Layout

/-- The live nodes, with the copper and some pairs joined. -/
def joinedBy (l : Layout) (pairs : List (l.LiveNode × l.LiveNode)) : SimpleGraph l.LiveNode :=
  SimpleGraph.fromRel fun a b => l.Joins [] a b ∨ (a, b) ∈ pairs

/-- The distance between two live nodes. -/
def span (l : Layout) (s : l.LiveNode × l.LiveNode) : Length :=
  ((l.place s.1.1).get s.1.2).distance ((l.place s.2.1).get s.2.2)

/-- The distances of some pairs in ascending order. -/
def spans (l : Layout) (pairs : List (l.LiveNode × l.LiveNode)) : List Nat :=
  (pairs.map fun s => (l.span s).units).mergeSort fun v w => decide (v ≤ w)

/-- The pairs join all components of the copper and close no cycle: each is between two
components of what the copper and the pairs before it join. -/
structure Tree (l : Layout) (pairs : List (l.LiveNode × l.LiveNode)) : Prop where
  connected : (l.joinedBy pairs).Preconnected
  acyclic : ∀ before s after, pairs = before ++ s :: after →
    ¬(l.joinedBy before).Reachable s.1 s.2

end Layout

variable {net : Net} {items : Table ItemId Item}

/-! ## Pairs of nodes as candidates -/

/-- The candidate between the numbers of two live nodes. -/
noncomputable def candidateOf (net : Net) (s : net.layout.LiveNode × net.layout.LiveNode) :
    Candidate net.registry.nodes.entries.length :=
  .between net.livePoints (net.numbering.symm s.1) (net.numbering.symm s.2)

theorem weight_candidateOf (net : Net) (s : net.layout.LiveNode × net.layout.LiveNode) :
    (net.candidateOf s).weight = net.layout.span s := by
  have hplace (n : net.layout.LiveNode) :
      net.layout.place n.1 = some (net.livePoints.get (net.numbering.symm n)) := by
    have hnumbered := position?_numbered net (net.numbering.symm n)
    have hnode : net.numbered (net.numbering.symm n) = n.1 :=
      congrArg Subtype.val (net.numbering.apply_symm_apply n)
    rwa [hnode] at hnumbered
  rw [candidateOf, Candidate.weight_between, Layout.span, Option.get_of_eq_some _ (hplace s.1),
    Option.get_of_eq_some _ (hplace s.2)]

theorem straight_candidateOf (net : Net)
    (pairs : List (net.layout.LiveNode × net.layout.LiveNode)) :
    ∀ c ∈ pairs.map net.candidateOf, c.Straight net.livePoints := by
  intro c hc
  obtain ⟨s, -, rfl⟩ := List.mem_map.1 hc
  exact Candidate.straight_between _ _ _

/-- Merging candidates joins what the pairs that they number do. -/
theorem joined_iff_joinedBy (net : Net)
    (pairs : List (net.layout.LiveNode × net.layout.LiveNode))
    (i j : Fin net.registry.nodes.entries.length) :
    (net.copperPartition.mergeAll ((pairs.map net.candidateOf).map Candidate.pair)).joined i j =
        true ↔
      (net.layout.joinedBy pairs).Reachable (net.numbering i) (net.numbering j) := by
  rw [copperPartition, ← Partition.mergeAll_append]
  refine Partition.joined_mergeAll_iff_reachable net.numbering _ (fun a b => ?_) i j
  rw [List.mem_append, mem_copperPairs]
  refine or_congr ?_ ?_
  · simp only [Layout.Joins, List.not_mem_nil, false_and, exists_false, or_false]
    rfl
  · simp only [List.map_map, List.mem_map, Function.comp_apply, candidateOf, Candidate.between,
      Candidate.pair, Prod.mk.injEq, Equiv.symm_apply_eq]
    constructor
    · intro h
      obtain ⟨⟨x, y⟩, hs, rfl, rfl⟩ := h
      exact hs
    · intro h
      exact ⟨_, h, rfl, rfl⟩

/-- A tree of live nodes is, by their numbers, a tree of classes, and the other way round. -/
theorem tree_iff_completes (net : Net)
    (pairs : List (net.layout.LiveNode × net.layout.LiveNode)) :
    net.layout.Tree pairs ↔
      Forest.Completes net.livePoints net.copperPartition (pairs.map net.candidateOf) := by
  have hends (before : List (net.layout.LiveNode × net.layout.LiveNode))
      (s : net.layout.LiveNode × net.layout.LiveNode) :
      (net.copperPartition.mergeAll ((before.map net.candidateOf).map Candidate.pair)).joined
          (net.candidateOf s).a (net.candidateOf s).b = true ↔
        (net.layout.joinedBy before).Reachable s.1 s.2 := by
    rw [joined_iff_joinedBy]
    simp only [candidateOf, Candidate.between, Equiv.apply_symm_apply]
  constructor
  · intro h
    refine Forest.Acyclic.completes (Forest.acyclic_iff.2 fun before c after hsplit => ?_)
      (counted_copperPartition net) (fun a b => ?_) (straight_candidateOf net pairs)
    · obtain ⟨before', rest, rfl, rfl, hrest⟩ := List.map_eq_append_iff.1 hsplit
      obtain ⟨s, after', rfl, rfl, rfl⟩ := List.map_eq_cons_iff.1 hrest
      rw [Bool.eq_false_iff, ne_eq, hends]
      exact h.acyclic before' s after' rfl
    · rw [joined_iff_joinedBy]
      exact h.connected _ _
  · intro h
    constructor
    · intro a b
      have hjoined := h.joins (net.numbering.symm a) (net.numbering.symm b)
      rwa [joined_iff_joinedBy, Equiv.apply_symm_apply, Equiv.apply_symm_apply] at hjoined
    · intro before s after hsplit
      have hcandidates : pairs.map net.candidateOf =
          before.map net.candidateOf ++ net.candidateOf s :: after.map net.candidateOf := by
        rw [hsplit, List.map_append, List.map_cons]
      rw [← hends, Forest.acyclic_iff.1 h.acyclic _ _ _ hcandidates]
      exact Bool.false_ne_true

theorem total_candidateOf (net : Net)
    (pairs : List (net.layout.LiveNode × net.layout.LiveNode)) :
    Forest.total (pairs.map net.candidateOf) =
      (pairs.map fun s => (net.layout.span s).units).sum := by
  simp only [Forest.total, List.map_map, Function.comp_def, weight_candidateOf]

theorem weights_candidateOf (net : Net)
    (pairs : List (net.layout.LiveNode × net.layout.LiveNode)) :
    Forest.weights (pairs.map net.candidateOf) = net.layout.spans pairs := by
  simp only [Forest.weights, Layout.spans, List.map_map, Function.comp_def, weight_candidateOf]

/-! ## The missing links -/

theorem sum_weights (net : Net) : net.weights.sum = (net.missing.map fun m => m.weight.units).sum :=
  (List.mergeSort_perm _ _).sum_eq

/-- Over every pair the missing links of an updated net make a tree of the components that
its copper leaves.  Any other tree of live nodes has as many links, which in ascending order
are one by one no shorter, and any pairs that connect the net are no shorter in all. -/
theorem lightest_update (history : List Operation) :
    let net := (run (empty .everyPair) history).update
    net.layout.Spanned net.missing ∧
      (∀ pairs, net.layout.Tree pairs → net.missing.length = pairs.length ∧
        List.Forall₂ (· ≤ ·) net.weights (net.layout.spans pairs)) ∧
      ∀ pairs, (net.layout.joinedBy pairs).Preconnected →
        (net.missing.map fun m => m.weight.units).sum ≤
          (pairs.map fun s => (net.layout.span s).units).sum := by
  intro net
  have hrun : net = run (empty .everyPair) (history ++ [.update]) := by
    rw [run_concat]
    rfl
  have hsound := sound_run .everyPair (history ++ [.update])
  have hsettled := settled_run .everyPair (history ++ [.update])
    (by rw [← hrun]; exact dirty_update _)
  have hstrategy := strategy_run .everyPair (history ++ [.update])
  rw [← hrun] at hsound hsettled hstrategy
  have hcounted := counted_copperPartition net
  have hweights : net.weights = Forest.weights (Forest.complete net.livePoints
      net.copperPartition (Candidate.everyPair net.livePoints net.copperPartition)) := by
    rw [hsettled.weights_eq, hstrategy]
    rfl
  refine ⟨?_, fun pairs htree => ?_, fun pairs hconnected => ?_⟩
  · rw [hsettled.solved]
    exact spanned_solve hsound.mirrors.carries
  · have hcompletes := (tree_iff_completes net pairs).1 htree
    refine ⟨?_, ?_⟩
    · rw [hsettled.length_missing, ← hcompletes.length, List.length_map]
    · rw [hweights, ← weights_candidateOf]
      exact hcompletes.weights_le hcounted
  · rw [← sum_weights, hweights, Forest.sum_weights, ← total_candidateOf]
    refine Forest.total_everyPair_le hcounted (straight_candidateOf net pairs) fun a b => ?_
    rw [joined_iff_joinedBy]
    exact hconnected _ _

/-- Two pads and a track, so three components. -/
def aroundTrack : List Operation :=
  [.add (.pad { id := 1, net := 1, position := ⟨0, 0⟩ }),
    .add (.track { id := 1, net := 1, start := ⟨10, 0⟩, finish := ⟨10, 7⟩ }),
    .add (.pad { id := 2, net := 1, position := ⟨4, 3⟩ })]

/-- Both pads joined to the far end of the track. -/
theorem lightest_aroundTrack :
    let net := (run (empty .everyPair) aroundTrack).update
    ∃ pairs, net.layout.Tree pairs ∧ net.missing.length = pairs.length ∧
      List.Forall₂ (· ≤ ·) net.weights (net.layout.spans pairs) ∧
      (net.missing.map fun m => m.weight.units).sum ≤
        (pairs.map fun s => (net.layout.span s).units).sum := by
  intro net
  let left : Fin net.registry.nodes.entries.length := ⟨0, by decide +kernel⟩
  let far : Fin net.registry.nodes.entries.length := ⟨2, by decide +kernel⟩
  let right : Fin net.registry.nodes.entries.length := ⟨3, by decide +kernel⟩
  let pairs := [(net.numbering left, net.numbering far), (net.numbering right, net.numbering far)]
  have hcandidates : pairs.map net.candidateOf =
      [.between net.livePoints left far, .between net.livePoints right far] := by
    simp only [pairs, List.map_cons, List.map_nil, candidateOf, Equiv.symm_apply_apply]
  have htree : net.layout.Tree pairs := by
    rw [tree_iff_completes, hcandidates]
    refine Forest.Acyclic.completes ⟨?_, ?_, trivial⟩ (counted_copperPartition net) ?_ ?_
    · decide +kernel
    · decide +kernel
    · decide +kernel
    · simp [Candidate.straight_between]
  obtain ⟨-, htrees, hconnecting⟩ := lightest_update aroundTrack
  obtain ⟨hlength, hweights⟩ := htrees _ htree
  exact ⟨_, htree, hlength, hweights, hconnecting _ htree.connected⟩

end Net
end Unrouted
