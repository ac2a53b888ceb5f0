import Unrouted.Proofs.Geometry.Length
import Unrouted.Proofs.Net.Nodes
import Unrouted.Proofs.Spanning.Greedy
import Mathlib.Combinatorics.SimpleGraph.Connectivity.Connected

/-!
The missing links of an updated net make a tree of the components that its copper leaves.
The forest is found over numbers; here it is read over the live nodes, as a graph.
-/

namespace Unrouted

/-! ## Graphs of pairs -/

/-- Merging pairs joins what is reachable in the graph of the pairs.  The graph may be over
other vertices, numbered one to one. -/
theorem Partition.joined_mergeAll_iff_reachable {n : Nat} {α : Type} (e : Fin n ≃ α)
    (rel : α → α → Prop) {pairs : List (Fin n × Fin n)}
    (hpairs : ∀ i j, (i, j) ∈ pairs ↔ rel (e i) (e j)) (i j : Fin n) :
    ((discrete n).mergeAll pairs).joined i j = true ↔
      (SimpleGraph.fromRel rel).Reachable (e i) (e j) := by
  let G := SimpleGraph.fromRel rel
  constructor
  · intro h
    let s : Setoid (Fin n) := Setoid.comap e G.reachableSetoid
    refine mergeAll_le (e := s) (fun x y hxy => ?_) (fun t ht => ?_) i j h
    · rw [joined_discrete.1 hxy]
    · show G.Reachable (e t.1) (e t.2)
      by_cases hsame : e t.1 = e t.2
      · rw [hsame]
      · have hadj : G.Adj (e t.1) (e t.2) :=
          (SimpleGraph.fromRel_adj _ _ _).2 ⟨hsame, .inl ((hpairs t.1 t.2).1 ht)⟩
        exact hadj.reachable
  · intro h
    rw [SimpleGraph.reachable_iff_reflTransGen] at h
    have hjoined (u : α) (hu : Relation.ReflTransGen G.Adj (e i) u) :
        ((discrete n).mergeAll pairs).joined i (e.symm u) = true := by
      induction hu with
      | refl =>
        rw [e.symm_apply_apply]
        exact joined_self _ i
      | @tail u v _ hadj ih =>
        refine joined_trans ih ?_
        rcases ((SimpleGraph.fromRel_adj _ _ _).1 hadj).2 with huv | hvu
        · apply joined_mergeAll_of_mem
          rw [hpairs, e.apply_symm_apply, e.apply_symm_apply]
          exact huv
        · apply joined_symm
          apply joined_mergeAll_of_mem
          rw [hpairs, e.apply_symm_apply, e.apply_symm_apply]
          exact hvu
    have hij := hjoined (e j) h
    rwa [e.symm_apply_apply] at hij

namespace Net

/-- What links see of a net: where the live nodes are, and the connections. -/
structure Layout where
  place : NodeId → Option Point
  connections : Arena Connection

def layout (net : Net) : Layout :=
  { place := net.registry.position?, connections := net.registry.connections }

namespace Layout

/-- The nodes that are somewhere. -/
abbrev LiveNode (l : Layout) : Type := {n : NodeId // (l.place n).isSome = true}

/-- The pairs that copper or one of some links joins. -/
def Joins (l : Layout) (links : List MissingLink) (a b : l.LiveNode) : Prop :=
  (∃ c v, l.connections.get? c = some v ∧ v.isCopper = true ∧ v.source = a.1 ∧ v.target = b.1) ∨
    ∃ m ∈ links, m.source = a.1 ∧ m.target = b.1

/-- The live nodes with the copper and some links between them. -/
def wires (l : Layout) (links : List MissingLink) : SimpleGraph l.LiveNode :=
  SimpleGraph.fromRel (l.Joins links)

/-- The number of components that the copper leaves. -/
noncomputable def components (l : Layout) : Nat := Nat.card (l.wires []).ConnectedComponent

/-- The links make a tree of the components: one less than there are, each between two
components of what copper and the links before it join, and all of them join everything.
Each link is the straight line between its two nodes and has a length. -/
structure Spanned (l : Layout) (links : List MissingLink) : Prop where
  length : links.length = max l.components 1 - 1
  acyclic : ∀ before m after, links = before ++ m :: after →
    ∃ a b : l.LiveNode, a.1 = m.source ∧ b.1 = m.target ∧ ¬(l.wires before).Reachable a b
  connected : (l.wires links).Preconnected
  straight : ∀ m ∈ links, l.place m.source = some m.sourcePosition ∧
    l.place m.target = some m.targetPosition ∧
    m.weight = m.sourcePosition.distance m.targetPosition ∧ Length.zero < m.weight

end Layout

variable {net net' : Net} {items : Table ItemId Item} {held : List Point}

theorem Remarked.layout (h : net.Remarked net') : net'.layout = net.layout := by
  obtain ⟨registry, marked, visible, hregistry, rfl⟩ := h
  simp only [Net.layout, hregistry.connections, Layout.mk.injEq, and_true]
  funext n
  exact hregistry.position?_eq n

theorem Remarked.missing (h : net.Remarked net') : net'.missing = net.missing := by
  obtain ⟨_, _, _, _, rfl⟩ := h
  rfl

/-! ## Numbers and nodes -/

/-- The node with a number. -/
def numbered (net : Net) (i : Fin net.registry.nodes.entries.length) : NodeId :=
  (net.registry.nodes.entries.get i).1

theorem position?_numbered (net : Net) (i : Fin net.registry.nodes.entries.length) :
    net.registry.position? (net.numbered i) = some (net.livePoints.get i) := by
  have hmem := Arena.mem_entries.1 (List.get_mem net.registry.nodes.entries i)
  have hpoint : net.livePoints.get i = (net.registry.nodes.entries.get i).2.position := by
    simp only [livePoints, Vector.get, List.get_eq_getElem, List.getElem_toArray, List.getElem_map]
    rfl
  rw [hpoint]
  exact Registry.position?_eq_some.2 ⟨_, hmem, rfl⟩

theorem numbered_injective (net : Net) : Function.Injective net.numbered := by
  intro i j hij
  have hhandles : (net.registry.nodes.entries.map Prod.fst).Nodup :=
    Arena.nodup_handles net.registry.nodes
  have hsame : net.registry.nodes.entries.get i = net.registry.nodes.entries.get j :=
    List.inj_on_of_nodup_map hhandles (List.get_mem _ i) (List.get_mem _ j) hij
  exact List.nodup_iff_injective_get.1 (Arena.nodup_entries net.registry.nodes) hsame

theorem exists_numbered {n : NodeId} (h : (net.registry.position? n).isSome = true) :
    ∃ i, net.numbered i = n := by
  obtain ⟨p, hp⟩ := Option.isSome_iff_exists.1 h
  obtain ⟨v, hv, -⟩ := Registry.position?_eq_some.1 hp
  obtain ⟨i, hi⟩ := List.mem_iff_get.1 (Arena.mem_entries.2 hv)
  exact ⟨i, by rw [numbered, hi]⟩

/-- The numbers of the live nodes, one to one. -/
noncomputable def numbering (net : Net) :
    Fin net.registry.nodes.entries.length ≃ net.layout.LiveNode :=
  Equiv.ofBijective
    (fun i => ⟨net.numbered i, Option.isSome_of_eq_some (position?_numbered net i)⟩)
    ⟨fun _ _ hij => numbered_injective net (congrArg Subtype.val hij), fun n => by
      obtain ⟨i, hi⟩ := exists_numbered n.2
      exact ⟨i, Subtype.ext hi⟩⟩

theorem rank?_eq_some {n : NodeId} {i : Fin net.registry.nodes.entries.length} :
    net.rank? n = some i ↔ net.numbered i = n := by
  rw [rank?, List.findFinIdx?_eq_some_iff, decide_eq_true_eq]
  constructor
  · intro h
    exact h.1
  · intro h
    refine ⟨h, fun j hji hj => ?_⟩
    have hsame : net.numbered j = net.numbered i := (of_decide_eq_true hj).trans h.symm
    have := numbered_injective net hsame
    omega

theorem mem_copperPairs {i j : Fin net.registry.nodes.entries.length} :
    (i, j) ∈ net.copperPairs ↔
      ∃ c v, net.registry.connections.get? c = some v ∧ v.isCopper = true ∧
        v.source = net.numbered i ∧ v.target = net.numbered j := by
  simp only [copperPairs, List.mem_filterMap]
  constructor
  · intro h
    obtain ⟨⟨c, v⟩, hmem, hpair⟩ := h
    split at hpair
    · rename_i hcopper
      simp only [Option.bind_eq_bind, Option.bind_eq_some_iff, Option.pure_def, Option.some.injEq,
        Prod.mk.injEq] at hpair
      obtain ⟨a, ha, b, hb, rfl, rfl⟩ := hpair
      exact ⟨c, v, Arena.mem_entries.1 hmem, hcopper, (rank?_eq_some.1 ha).symm,
        (rank?_eq_some.1 hb).symm⟩
    · exact absurd hpair (by simp)
  · intro h
    obtain ⟨c, v, hv, hcopper, hi, hj⟩ := h
    refine ⟨(c, v), Arena.mem_entries.2 hv, ?_⟩
    simp [hcopper, rank?_eq_some.2 hi.symm, rank?_eq_some.2 hj.symm]

/-! ## Links of candidates -/

/-- The link between two numbered nodes. -/
def linkOf (net : Net) (c : Candidate net.registry.nodes.entries.length) : MissingLink :=
  { source := net.numbered c.a, target := net.numbered c.b,
    sourcePosition := net.livePoints.get c.a, targetPosition := net.livePoints.get c.b,
    weight := (net.livePoints.get c.a).distance (net.livePoints.get c.b) }

theorem linksOf_eq (net : Net) (cs : List (Candidate net.registry.nodes.entries.length)) :
    net.linksOf cs = cs.map net.linkOf := by
  have hlink (c : Candidate net.registry.nodes.entries.length) :
      net.link? (net.registry.nodes.entries.get c.a).1 (net.registry.nodes.entries.get c.b).1 =
        some (net.linkOf c) := by
    have ha := position?_numbered net c.a
    have hb := position?_numbered net c.b
    rw [numbered] at ha hb
    simp only [link?, ha, hb]
    rfl
  simp only [linksOf, hlink]
  exact congrFun List.filterMap_eq_map' cs

/-- The copper as a partition of the numbers. -/
def copperPartition (net : Net) : Partition net.registry.nodes.entries.length :=
  (Partition.discrete _).mergeAll net.copperPairs

theorem counted_copperPartition (net : Net) : net.copperPartition.Counted :=
  (Partition.counted_discrete _).mergeAll _

theorem joined_iff_reachable (net : Net) (cs : List (Candidate net.registry.nodes.entries.length))
    (i j : Fin net.registry.nodes.entries.length) :
    (net.copperPartition.mergeAll (cs.map Candidate.pair)).joined i j = true ↔
      (net.layout.wires (net.linksOf cs)).Reachable (net.numbering i) (net.numbering j) := by
  rw [copperPartition, ← Partition.mergeAll_append, linksOf_eq]
  refine Partition.joined_mergeAll_iff_reachable net.numbering _ (fun a b => ?_) i j
  rw [List.mem_append, mem_copperPairs]
  refine or_congr Iff.rfl ?_
  simp only [List.mem_map, Candidate.pair, Prod.mk.injEq]
  constructor
  · intro h
    obtain ⟨c, hc, rfl, rfl⟩ := h
    exact ⟨net.linkOf c, ⟨c, hc, rfl⟩, rfl, rfl⟩
  · intro h
    obtain ⟨_, ⟨c, hc, rfl⟩, ha, hb⟩ := h
    exact ⟨c, hc, numbered_injective net ha, numbered_injective net hb⟩

theorem components_eq (net : Net) : net.layout.components = net.copperPartition.count := by
  have hcount := counted_copperPartition net
  rw [Layout.components, hcount]
  refine (Nat.card_congr (Quot.congr net.numbering fun i j => ?_)).symm
  have hreach := joined_iff_reachable net [] i j
  rw [linksOf_eq] at hreach
  exact Partition.joined_iff.symm.trans hreach

/-! ## The forest of a net -/

theorem completes_spanning (net : Net) :
    Forest.Completes net.livePoints net.copperPartition
      (Forest.spanning net.strategy net.livePoints net.copperPairs) :=
  Forest.completes_spanning net.strategy net.livePoints net.copperPairs

/-- A tree of the classes, read over the live nodes. -/
theorem spanned_of_completes (hcarries : net.registry.Carries held)
    {cs : List (Candidate net.registry.nodes.entries.length)}
    (h : Forest.Completes net.livePoints net.copperPartition cs) :
    net.layout.Spanned (net.linksOf cs) where
  length := by
    rw [linksOf_eq, List.length_map, h.length, components_eq]
    omega
  acyclic before m after hsplit := by
    rw [linksOf_eq] at hsplit
    obtain ⟨before', rest, rfl, rfl, hrest⟩ := List.map_eq_append_iff.1 hsplit
    obtain ⟨c, after', rfl, rfl, rfl⟩ := List.map_eq_cons_iff.1 hrest
    refine ⟨net.numbering c.a, net.numbering c.b, rfl, rfl, ?_⟩
    rw [← linksOf_eq, ← joined_iff_reachable, h.acyclic.not_joined]
    simp
  connected a b := by
    have hjoined := h.joins (net.numbering.symm a) (net.numbering.symm b)
    rw [joined_iff_reachable, Equiv.apply_symm_apply, Equiv.apply_symm_apply] at hjoined
    exact hjoined
  straight m hm := by
    rw [linksOf_eq] at hm
    obtain ⟨c, hc, rfl⟩ := List.mem_map.1 hm
    refine ⟨position?_numbered net c.a, position?_numbered net c.b, rfl, ?_⟩
    apply Point.distance_pos
    intro hsame
    have ha := position?_numbered net c.a
    rw [hsame] at ha
    have hnodes := hcarries.eq_of_position? ha (position?_numbered net c.b)
    exact h.acyclic.ne hc (numbered_injective net hnodes)

/-- The links that complete the copper of a net, whatever mesh is proposed. -/
theorem spanned_ofSides (hcarries : net.registry.Carries held) (sides : Option (List (Nat × Nat))) :
    net.layout.Spanned (net.linksOf (Forest.complete net.livePoints net.copperPartition
      (Candidate.ofSides net.livePoints net.copperPartition sides))) :=
  spanned_of_completes hcarries (Forest.complete_spec (counted_copperPartition net)
    fun _ hc => Candidate.straight_of_mem_ofSides hc)

theorem spanned_solve (hcarries : net.registry.Carries held) : net.layout.Spanned net.solve :=
  spanned_of_completes hcarries (completes_spanning net)

/-- Right after an update the missing links make a tree of the components that the copper
leaves, so a net is connected when there is at most one.  The mesh has no part in this: with
any other sides in its place the links make a tree as well. -/
theorem spanned_update (strategy : Strategy) (history : List Operation) :
    let net := (run (empty strategy) history).update
    net.layout.Spanned net.missing ∧
      (net.isConnected = true ↔ net.layout.components ≤ 1) ∧
      ∀ sides : Option (List (Nat × Nat)), net.layout.Spanned (net.linksOf
        (Forest.complete net.livePoints net.copperPartition
          (Candidate.ofSides net.livePoints net.copperPartition sides))) := by
  let before := run (empty strategy) history
  have hsound : before.Sound (tracked history) := sound_run strategy history
  have hclean : before.dirty = false → before.layout.Spanned before.missing := by
    refine clean_run (P := fun net => net.layout.Spanned net.missing)
      (fun net items hnet hdirty => ?_) (fun net net' hmarks hnet => ?_) strategy history
    · rw [update_of_dirty hdirty]
      exact spanned_solve hnet.tieZones.1.mirrors.carries
    · rw [hmarks.layout, hmarks.missing]
      exact hnet
  have hspanned : before.update.layout.Spanned before.update.missing := by
    cases hdirty : before.dirty with
    | false =>
      rw [update_of_clean hdirty]
      exact hclean hdirty
    | true =>
      rw [update_of_dirty hdirty]
      exact spanned_solve hsound.tieZones.1.mirrors.carries
  refine ⟨hspanned, ?_, spanned_ofSides hsound.update.mirrors.carries⟩
  have hlength := hspanned.length
  rw [isConnected, dirty_update, Bool.not_false, Bool.true_and, List.isEmpty_iff_length_eq_zero]
  show before.update.missing.length = 0 ↔ before.update.layout.components ≤ 1
  omega

end Net
end Unrouted
