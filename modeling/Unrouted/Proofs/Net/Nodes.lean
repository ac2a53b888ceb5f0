import Unrouted.Proofs.Net.Tracked

/-!
The nodes of a net are those of its tracked items, whatever history led there.
-/

namespace Unrouted
namespace Net

variable {net : Net} {items : Table ItemId Item} {loose : List Point}

theorem toList_livePoints (net : Net) :
    net.livePoints.toList = net.registry.nodes.entries.map fun e => e.2.position := by
  simp [livePoints]

theorem mem_livePoints {p : Point} :
    p ∈ net.livePoints.toList ↔ ∃ n, net.registry.position? n = some p := by
  rw [toList_livePoints, List.mem_map]
  constructor
  · intro h
    obtain ⟨⟨n, v⟩, he, hp⟩ := h
    exact ⟨n, Registry.position?_eq_some.2 ⟨v, Arena.mem_entries.1 he, hp⟩⟩
  · intro h
    obtain ⟨n, hn⟩ := h
    obtain ⟨v, hv, hp⟩ := Registry.position?_eq_some.1 hn
    exact ⟨(n, v), Arena.mem_entries.2 hv, hp⟩

theorem nodup_livePoints {held : List Point} (h : net.registry.Carries held) :
    net.livePoints.toList.Nodup := by
  rw [toList_livePoints]
  exact h.nodup_positions

/-- The nodes of a net are those that its items contribute: one node at each contributed
place, held as often as the place is contributed, and each item has its own ones in order. -/
structure Reflects (net : Net) (items : Table ItemId Item) : Prop where
  nodup : net.livePoints.toList.Nodup
  mem : ∀ p, p ∈ net.livePoints.toList ↔ p ∈ items.values.flatMap Item.places
  holds : ∀ n v, net.registry.node? n = some v →
    v.holds = (items.values.flatMap Item.places).count v.position
  tracked : ∀ id, net.tracksItem id = (items.get? id).isSome
  nodesOf : ∀ id item, items.get? id = some item →
    (net.nodesOf id).map net.registry.position? = item.places.map some

theorem Mirrors.reflects (h : net.Mirrors items []) : net.Reflects items where
  nodup := nodup_livePoints h.carries
  mem p := by
    rw [mem_livePoints]
    constructor
    · intro hp
      obtain ⟨n, hn⟩ := hp
      exact h.carries.mem_of_position? hn
    · intro hp
      exact h.carries.exists_position? hp
  holds n v hv := h.carries.holds n v hv
  tracked id := by rw [tracksItem_eq, h.tracked]
  nodesOf id item hitem := by
    obtain ⟨c, hc, hfits⟩ := h.exists_contribution hitem
    rw [nodesOf_eq, hc]
    exact hfits.1

/-! ## Removing everything -/

theorem get?_foldl_track_remove (ids : List ItemId) (items : Table ItemId Item) (id : ItemId) :
    ((ids.map Operation.remove).foldl Operation.track items).get? id =
      if id ∈ ids then none else items.get? id := by
  induction ids generalizing items with
  | nil => simp
  | cons l rest ih =>
    rw [List.map_cons, List.foldl_cons, ih]
    show (if id ∈ rest then none else (items.erase l).get? id) = _
    rw [Table.get?_erase]
    by_cases hl : id = l
    · simp [hl]
    · simp [hl]

/-- A net without tracked items has no nodes and no connections. -/
theorem Sound.isEmpty (h : net.Sound items) (hnone : ∀ id, items.get? id = none) :
    net.nodeCount = 0 ∧ net.connectionCount = 0 := by
  have hvalues : items.values = [] := Table.values_eq_nil hnone
  have hcontribution (id : ItemId) : net.contribution? id = none :=
    h.mirrors.contribution?_eq_none (hnone id)
  constructor
  · have hentries : net.registry.nodes.entries = [] := by
      apply List.eq_nil_iff_forall_not_mem.2
      intro e he
      have hmem := h.mirrors.carries.mem_of_position?
        (Registry.position?_eq_some.2 ⟨e.2, Arena.mem_entries.1 he, rfl⟩)
      rw [hvalues] at hmem
      exact absurd hmem (by simp)
    rw [nodeCount, h.mirrors.carries.nodes.size_eq, hentries]
    rfl
  · have htracks : net.tracks.values = [] := Table.values_eq_nil fun id => by
      simpa [contribution?] using hcontribution (.track id)
    have hties : net.ties.values = [] := Table.values_eq_nil fun id => by
      have hzone : net.zones.get? id = none := by
        simpa [contribution?] using hcontribution (.zone id)
      exact h.matched.get?_eq_none hzone
    have howned : net.owned = [] := by
      rw [owned, htracks, hties]
      rfl
    have hhandles : net.registry.connections.handles.length = 0 := by
      rw [← h.wired.owned.perm.length_eq, howned]
      rfl
    rw [connectionCount, h.wired.owned.wellFormed.size_eq, ← hhandles, Arena.handles,
      List.length_map]

/-- After every history the nodes are those of the tracked items.  Once all of these are
removed, in any order, no node and no connection is left. -/
theorem reflects_tracked (strategy : Strategy) (history : List Operation) :
    (run (empty strategy) history).Reflects (tracked history) ∧
      ∀ ids : List ItemId, (∀ id, (tracked history).get? id ≠ none → id ∈ ids) →
        let emptied := run (run (empty strategy) history) (ids.map Operation.remove)
        emptied.nodeCount = 0 ∧ emptied.connectionCount = 0 := by
  have hsound := sound_run strategy history
  refine ⟨hsound.mirrors.reflects, fun ids hids => ?_⟩
  refine (hsound.run (ids.map Operation.remove)).isEmpty fun id => ?_
  rw [get?_foldl_track_remove]
  split
  · rfl
  · rename_i hid
    by_contra hsome
    exact hid (hids id hsome)

/-- A pad, a track that is a loop and a zone of two rings, all at one point. -/
def atOnePoint : List Operation :=
  [.add (.pad { id := 1, net := 1, position := ⟨0, 0⟩ }),
    .add (.track { id := 1, net := 1, start := ⟨0, 0⟩, finish := ⟨0, 0⟩ }), .update,
    .add (.zone { id := 1, net := 1, outlines := [[⟨0, 0⟩, ⟨4, 0⟩], [⟨7, 7⟩], [⟨0, 0⟩, ⟨4, 4⟩]] })]

theorem reflects_atOnePoint :
    (∀ n v, (run (empty .mesh) atOnePoint).registry.node? n = some v → v.holds = 5) ∧
      let emptied := run (run (empty .mesh) atOnePoint)
        [.remove (.track 1), .remove (.zone 1), .remove (.pad 1)]
      emptied.nodeCount = 0 ∧ emptied.connectionCount = 0 := by
  obtain ⟨hreflects, hemptied⟩ := reflects_tracked .mesh atOnePoint
  have hplaces : (tracked atOnePoint).values.flatMap Item.places =
      [⟨0, 0⟩, ⟨0, 0⟩, ⟨0, 0⟩, ⟨0, 0⟩, ⟨0, 0⟩] := by decide +kernel
  have hkeys : (tracked atOnePoint).keys = [.pad 1, .track 1, .zone 1] := by decide +kernel
  constructor
  · intro n v hv
    have hmem := (hreflects.mem v.position).1
      (mem_livePoints.2 ⟨n, Registry.position?_eq_some.2 ⟨v, hv, rfl⟩⟩)
    have hposition : v.position = ⟨0, 0⟩ := by simpa [hplaces] using hmem
    rw [hreflects.holds n v hv, hplaces, hposition]
    rfl
  · refine hemptied [.track 1, .zone 1, .pad 1] fun id hid => ?_
    have hkey : id ∈ (tracked atOnePoint).keys :=
      Table.mem_keys.2 (Option.ne_none_iff_exists'.1 hid)
    rw [hkeys] at hkey
    simp only [List.mem_cons, List.not_mem_nil, or_false] at hkey ⊢
    tauto

end Net
end Unrouted
