import Unrouted.Proofs.Net.Frame
import Unrouted.Proofs.Net.Settled

/-!
Settled nets with the same items are alike, whatever histories led to them.  Where their
nodes and connections stand in the arenas is forgotten; the places, the copper between them
and the number of missing links are the same.  Which of several cheapest forests is found
depends on the order of the nodes, but over every pair its weights do not.
-/

namespace Unrouted

/-! ## Joins and the order of places -/

theorem Outline.joins_perm {places places' : List Point} (h : places.Perm places')
    (ring : Outline) : (ring.joins places).Perm (ring.joins places') :=
  List.Perm.flatMap_left _ fun _ _ => (h.filter _).map _

theorem Item.joins_perm {places places' : List Point} (h : places.Perm places') (item : Item) :
    (item.joins places).Perm (item.joins places') := by
  cases item with
  | pad pad => exact List.Perm.refl _
  | via via => exact List.Perm.refl _
  | track track => exact List.Perm.refl _
  | zone zone => exact List.Perm.flatMap_left _ fun ring _ => ring.joins_perm h

namespace Net

variable {net net' : Net} {items items' : Table ItemId Item}

/-! ## The strategy stays -/

theorem strategy_update (net : Net) : net.update.strategy = net.strategy := by
  obtain ⟨_, _, heq⟩ := retied_tieZones net
  unfold update
  split
  · rw [heq]
  · rfl

theorem strategy_apply (net : Net) (op : Operation) : (net.apply op).strategy = net.strategy := by
  have marks {net' : Net} (hmarks : net.Remarked net') : net'.strategy = net.strategy := by
    obtain ⟨_, _, _, _, rfl⟩ := hmarks
    rfl
  cases op with
  | add item => exact congrArg Frame.strategy (frame_add net item)
  | remove id => exact congrArg Frame.strategy (frame_remove net id)
  | update => exact strategy_update net
  | mark n => exact marks (remarked_mark net n)
  | clearMarks => exact marks (remarked_clearMarks net)
  | setVisible visible => exact marks (remarked_setVisible net visible)

theorem strategy_run (strategy : Strategy) (history : List Operation) :
    (run (empty strategy) history).strategy = strategy :=
  List.foldlRecOn (motive := fun net : Net => net.strategy = strategy) history _ rfl
    fun net h op _ => (strategy_apply net op).trans h

/-! ## Same items, same places and copper -/

/-- The nodes as the places where they are and the numbers of their holds. -/
def census (net : Net) : List (Point × Nat) :=
  net.registry.nodes.entries.map fun e => (e.2.position, e.2.holds)

/-- The weights of the missing links in ascending order. -/
def weights (net : Net) : List Nat :=
  (net.missing.map fun m => m.weight.units).mergeSort fun v w => decide (v ≤ w)

/-- The nets have the same nodes with as many holds, the same connections by places and
weights, and as many missing links. -/
structure Alike (net net' : Net) : Prop where
  census : net.census.Perm net'.census
  connections : (net.registry.connections.entries.map fun e => net.placed? e.2).Perm
    (net'.registry.connections.entries.map fun e => net'.placed? e.2)
  missing : net.missing.length = net'.missing.length

theorem Mirrors.census_eq (h : net.Mirrors items []) :
    net.census = net.livePoints.toList.map fun p =>
      (p, (items.values.flatMap Item.places).count p) := by
  rw [census, toList_livePoints, List.map_map]
  apply List.map_congr_left
  intro e he
  rw [Function.comp_apply, h.carries.holds e.1 e.2 (Arena.mem_entries.1 he)]
  rfl

theorem Sound.livePoints_perm (h : net.Sound items) (h' : net'.Sound items')
    (hplaces : (items.values.flatMap Item.places).Perm (items'.values.flatMap Item.places)) :
    net.livePoints.toList.Perm net'.livePoints.toList := by
  have hreflects := h.mirrors.reflects
  have hreflects' := h'.mirrors.reflects
  rw [List.perm_ext_iff_of_nodup hreflects.nodup hreflects'.nodup]
  intro p
  rw [hreflects.mem, hreflects'.mem, hplaces.mem_iff]

/-- Which nodes there are and how often they are held is a matter of the items. -/
theorem Sound.census_perm (h : net.Sound items) (h' : net'.Sound items')
    (hplaces : (items.values.flatMap Item.places).Perm (items'.values.flatMap Item.places)) :
    net.census.Perm net'.census := by
  rw [h.mirrors.census_eq, h'.mirrors.census_eq]
  simp only [hplaces.count_eq]
  exact (h.livePoints_perm h' hplaces).map _

theorem mem_copperPairs_placed {held : List Point} (h : net.registry.Carries held)
    {i j : Fin net.registry.nodes.entries.length} :
    (i, j) ∈ net.copperPairs ↔ ∃ w : Float, (w == 0.0) = true ∧
      (some (net.livePoints.get i), some (net.livePoints.get j), w) ∈
        net.registry.connections.entries.map fun e => net.placed? e.2 := by
  have hat {n : NodeId} {i : Fin net.registry.nodes.entries.length} :
      net.registry.position? n = some (net.livePoints.get i) ↔ n = net.numbered i := by
    constructor
    · intro hn
      exact h.eq_of_position? hn (position?_numbered net i)
    · intro hn
      rw [hn, position?_numbered]
  rw [mem_copperPairs_values]
  simp only [List.mem_map, placed?, Prod.mk.injEq, hat]
  constructor
  · intro hcopper
    obtain ⟨_, ⟨e, he, rfl⟩, hweight, hi, hj⟩ := hcopper
    exact ⟨e.2.weight, hweight, e, he, hi, hj, rfl⟩
  · intro hcopper
    obtain ⟨_, hweight, e, he, hi, hj, rfl⟩ := hcopper
    exact ⟨e.2, ⟨e, he, rfl⟩, hweight, hi, hj⟩

/-! ## Same items, same forests -/

theorem Settled.length_missing (h : net.Settled) :
    net.missing.length = net.copperPartition.count - 1 := by
  rw [h.solved, solve, linksOf_eq, List.length_map, (completes_spanning net).length]

theorem Settled.weights_eq (h : net.Settled) :
    net.weights =
      Forest.weights (Forest.spanning net.strategy net.livePoints net.copperPairs) := by
  have hunits : net.missing.map (fun m => m.weight.units) =
      (Forest.spanning net.strategy net.livePoints net.copperPairs).map
        fun c => c.weight.units := by
    rw [h.solved, solve, linksOf_eq, List.map_map]
    apply List.map_congr_left
    intro c hc
    rw [((completes_spanning net).straight c hc).weight_eq]
    rfl
  rw [weights, hunits]
  rfl

/-- Settled nets with the same items are alike, and over every pair their missing links weigh
the same. -/
theorem Settled.alike (hsettled : net.Settled) (h : net.Sound items) (hsettled' : net'.Settled)
    (h' : net'.Sound items') (hitems : ∀ id, items.get? id = items'.get? id) :
    net.Alike net' ∧
      (net.strategy = .everyPair → net'.strategy = .everyPair → net.weights = net'.weights) := by
  have hvalues : items.values.Perm items'.values := (Table.entries_perm_iff.2 hitems).map Prod.snd
  have hplaces := hvalues.flatMap_right Item.places
  have hpoints := h.livePoints_perm h' hplaces
  have hconnections : (net.registry.connections.entries.map fun e => net.placed? e.2).Perm
      (net'.registry.connections.entries.map fun e => net'.placed? e.2) := by
    refine (h.connections_perm hsettled.tied).trans (List.Perm.trans (List.Perm.map _ ?_)
      (h'.connections_perm hsettled'.tied).symm)
    exact (hvalues.flatMap_right _).trans
      (List.Perm.flatMap_left _ fun item _ => item.joins_perm hpoints)
  -- The nets number the same places, each in the order of its own slots.
  obtain ⟨e, he⟩ := exists_renumbering h.mirrors.reflects.nodup h'.mirrors.reflects.nodup hpoints
  have hjoined (i j : Fin net.registry.nodes.entries.length) :
      net.copperPartition.joined i j = true ↔ net'.copperPartition.joined (e i) (e j) = true := by
    refine Partition.joined_mergeAll_of_equiv e (fun a b => ?_) i j
    rw [mem_copperPairs_placed h.mirrors.carries, mem_copperPairs_placed h'.mirrors.carries]
    simp only [he, hconnections.mem_iff]
  have hcount := (counted_copperPartition net).count_eq_of_equiv (counted_copperPartition net') e
    hjoined
  refine ⟨⟨h.census_perm h' hplaces, hconnections, ?_⟩, fun hstrategy hstrategy' => ?_⟩
  · rw [hsettled.length_missing, hsettled'.length_missing, hcount]
  · rw [hsettled.weights_eq, hsettled'.weights_eq, hstrategy, hstrategy']
    exact Forest.weights_everyPair_of_equiv (counted_copperPartition net)
      (counted_copperPartition net') e he hjoined

end Net
end Unrouted
