import Unrouted.Net.Update
import Unrouted.Proofs.Registry
import Unrouted.Proofs.Sorting

/-!
Nodes by their distance.  All the other nodes that a filter passes stand in the one order that
begins with the nearest and, at equal distance, goes by the slots.  A bounded query gives the
start of this list, and the query for one node gives its head.
-/

namespace Unrouted
namespace Net

variable {net : Net} {n m k : NodeId} {accepts : Node → Bool} {ms : List NodeId}

theorem mem_others {e : NodeId × Node} :
    e ∈ net.others n accepts ↔
      net.registry.node? e.1 = some e.2 ∧ e.1 ≠ n ∧ accepts e.2 = true := by
  rw [others, List.mem_filter, Arena.mem_entries, Bool.and_eq_true, decide_eq_true_eq]
  rfl

theorem pairwise_others (net : Net) (n : NodeId) (accepts : Node → Bool) :
    (net.others n accepts).Pairwise fun e e' => e.1.index < e'.1.index :=
  net.registry.nodes.pairwise_entries.filter _

/-! ## The order by distance -/

/-- The live nodes other than `n` that a filter passes.  A dead node has no others. -/
def othersOf (net : Net) (n : NodeId) (accepts : Node → Bool) : List NodeId :=
  if net.registry.nodes.live n then
    net.liveNodes.filter fun m => decide (m ≠ n) && (net.registry.node? m).any accepts
  else []

/-- `m` is nearer to `n` than `k`, or as near and in a lower slot. -/
def Nearer (net : Net) (n m k : NodeId) : Prop :=
  ∃ p q r, net.registry.position? n = some p ∧ net.registry.position? m = some q ∧
    net.registry.position? k = some r ∧
    (p.distanceSq q < p.distanceSq r ∨ p.distanceSq q = p.distanceSq r ∧ m.index < k.index)

/-- The nodes are all that a filter passes, each nearer than the next. -/
structure Ranked (net : Net) (n : NodeId) (accepts : Node → Bool) (ms : List NodeId) : Prop where
  perm : ms.Perm (net.othersOf n accepts)
  nearer : ms.Pairwise (net.Nearer n)

theorem Nearer.asymm (h : net.Nearer n m k) : ¬net.Nearer n k m := by
  obtain ⟨p, q, r, hp, hq, hr, hlt⟩ := h
  rintro ⟨p', r', q', hp', hr', hq', hlt'⟩
  obtain rfl := Option.some.inj (hp.symm.trans hp')
  obtain rfl := Option.some.inj (hq.symm.trans hq')
  obtain rfl := Option.some.inj (hr.symm.trans hr')
  omega

/-- There is one order by distance. -/
theorem Ranked.eq {ks : List NodeId} (h : net.Ranked n accepts ms) (h' : net.Ranked n accepts ks) :
    ms = ks := by
  refine List.Perm.eq_of_pairwise (fun m k _ _ hmk hkm => ?_) h.nearer h'.nearer
    (h.perm.trans h'.perm.symm)
  exact absurd hkm hmk.asymm

theorem map_fst_others (h : net.registry.nodes.live n = true) :
    (net.others n accepts).map Prod.fst = net.othersOf n accepts := by
  rw [othersOf, if_pos h, liveNodes, Arena.handles, List.filter_map, others]
  congr 1
  refine List.filter_congr fun e he => ?_
  have hnode : net.registry.node? e.1 = some e.2 := Arena.mem_entries.1 he
  rw [Function.comp_apply, hnode, Option.any_some]

/-! ## The queries -/

/-- The other nodes are sorted by their distances, and these are dropped after. -/
theorem byDistance_eq {origin : Point} (h : net.registry.position? n = some origin) :
    net.byDistance n accepts =
      ((net.others n accepts).mergeSort fun e e' =>
        decide (origin.distanceSq e.2.position ≤ origin.distanceSq e'.2.position)).map
          Prod.fst := by
  have hsorted := List.map_mergeSort (l := net.others n accepts)
    (f := fun e => (origin.distanceSq e.2.position, e.1))
    (r := fun e e' => decide (origin.distanceSq e.2.position ≤ origin.distanceSq e'.2.position))
    (s := fun a b => decide (a.1 ≤ b.1)) fun _ _ _ _ => rfl
  simp only [byDistance, h]
  rw [← hsorted, List.map_map]
  rfl

theorem byDistance_of_dead (h : net.registry.position? n = none) :
    net.byDistance n accepts = [] := by
  simp only [byDistance, h]

theorem ranked_byDistance (net : Net) (n : NodeId) (accepts : Node → Bool) :
    net.Ranked n accepts (net.byDistance n accepts) := by
  cases hp : net.registry.position? n with
  | none =>
    have hdead : ¬net.registry.nodes.live n = true := by
      rw [Registry.live_iff_position?, hp]
      simp
    rw [byDistance_of_dead hp]
    exact ⟨by rw [othersOf, if_neg hdead], List.Pairwise.nil⟩
  | some p =>
    have hlive := Registry.live_iff_position?.2 ⟨p, hp⟩
    rw [byDistance_eq hp]
    refine ⟨?_, ?_⟩
    · rw [← map_fst_others hlive]
      exact (List.mergeSort_perm _ _).map Prod.fst
    · have hsorted := pairwise_sorted
        (fun e : NodeId × Node => p.distanceSq e.2.position) (pairwise_others net n accepts)
      rw [List.pairwise_map]
      refine hsorted.imp_of_mem fun {e e'} he he' hlt => ?_
      have hnode := (mem_others.1 (List.mem_mergeSort.1 he)).1
      have hnode' := (mem_others.1 (List.mem_mergeSort.1 he')).1
      exact ⟨p, e.2.position, e'.2.position, hp,
        Registry.position?_eq_some.2 ⟨e.2, hnode, rfl⟩,
        Registry.position?_eq_some.2 ⟨e'.2, hnode', rfl⟩, hlt⟩

/-- One pass for the nearest node finds the head of the sorted list. -/
theorem nearest?_eq_head? (net : Net) (n : NodeId) (accepts : Node → Bool) :
    net.nearest? n accepts = (net.byDistance n accepts).head? := by
  cases hp : net.registry.position? n with
  | none =>
    rw [byDistance_of_dead hp]
    simp only [nearest?, hp]
    rfl
  | some p =>
    rw [byDistance_eq hp, List.head?_map, ← minOn?_eq_head?]
    simp only [nearest?, hp]

/-- The queries agree: without a bound all others come in the order by distance, with a bound
the first of them, and the nearest node is the head, which is missing when there are none. -/
theorem nearestNodes_agree (net : Net) (n : NodeId) (accepts : Node → Bool) :
    (∀ ms, net.Ranked n accepts ms ↔ ms = net.nearestNodes n accepts none) ∧
      (∀ count,
        net.nearestNodes n accepts (some count) <+: net.nearestNodes n accepts none ∧
        (net.nearestNodes n accepts (some count)).length =
          min count (net.nearestNodes n accepts none).length) ∧
      net.nearest? n accepts = (net.nearestNodes n accepts none).head? ∧
      (net.nearest? n accepts = none ↔ net.nearestNodes n accepts none = []) := by
  have hranked := ranked_byDistance net n accepts
  refine ⟨fun ms => ⟨fun h => h.eq hranked, fun h => h ▸ hranked⟩,
    fun count => ⟨List.take_prefix count _, List.length_take⟩, nearest?_eq_head? net n accepts, ?_⟩
  rw [nearest?_eq_head?]
  exact List.head?_eq_none_iff

end Net
end Unrouted
