import Unrouted.Proofs.Net.Items

/-!
Who owns the connections of a net.  Each live connection belongs to one track or is one of
the ties of one zone, and a track's connection joins the nodes of the track.  Giving items
up cuts what they own.  Tying the zones anew gives each zone the ties that its polygons call
for, one for each contact.
-/

namespace Unrouted

namespace Registry

/-- What joining pairs gives: new connections, one for each pair in order, beside the ones
that are owned already. -/
structure Joined (r : Registry) (old : List ConnectionId) (pairs : List (NodeId × NodeId))
    (out : List ConnectionId × Registry) : Prop where
  owned : out.2.connections.Owned (out.1 ++ old)
  made : out.1.map out.2.connection? = pairs.map fun s => some (Connection.copper s)
  stays : ∀ c ∈ old, out.2.connection? c = r.connection? c

theorem joinAll_spec {r : Registry} {old : List ConnectionId} {pairs : List (NodeId × NodeId)}
    (h : r.connections.Owned old)
    (hlive : ∀ s ∈ pairs, r.nodes.live s.1 = true ∧ r.nodes.live s.2 = true) :
    r.Joined old pairs (Net.joinAll r pairs) := by
  induction pairs generalizing r old with
  | nil => exact ⟨h, rfl, fun _ _ => rfl⟩
  | cons s rest ih =>
    obtain ⟨source, target⟩ := s
    have hends := hlive (source, target) List.mem_cons_self
    let made := r.connections.insert (Connection.copper (source, target))
    let r₁ : Registry := { r with connections := made.2 }
    have hmade : r₁.connections.Owned (made.1 :: old) := h.insert _
    have hrest : r₁.Joined (made.1 :: old) rest (Net.joinAll r₁ rest) :=
      ih hmade fun t ht => hlive t (List.mem_cons_of_mem _ ht)
    have hstep : Net.joinAll r ((source, target) :: rest) =
        (made.1 :: (Net.joinAll r₁ rest).1, (Net.joinAll r₁ rest).2) := by
      simp only [Net.joinAll, connect_of_live hends.1 hends.2, r₁, made]
    rw [hstep]
    refine ⟨hrest.owned.congr List.perm_middle.symm, ?_, ?_⟩
    · rw [List.map_cons, List.map_cons, hrest.made, hrest.stays made.1 List.mem_cons_self]
      exact congrArg (· :: _) (Arena.get?_insert_self h.wellFormed _)
    · intro c hc
      rw [hrest.stays c (List.mem_cons_of_mem _ hc)]
      exact h.get?_insert_of_mem _ hc

end Registry

namespace Polygon

theorem containsNode_eq (g : Polygon) (r : Registry) (n : NodeId) :
    g.containsNode r n = (r.position? n).any g.contains := by
  rw [containsNode, Registry.position?, Option.any_map]

/-- The contacts are decided by where the live nodes are. -/
theorem contactPairs_congr {r r' : Registry} (hhandles : r'.nodes.handles = r.nodes.handles)
    (hposition : ∀ n, r'.position? n = r.position? n) (gs : List Polygon) :
    contactPairs r' gs = contactPairs r gs := by
  have hcontacts (g : Polygon) : g.contacts r' = g.contacts r := by
    rw [contacts, contacts, hhandles]
    apply List.filter_congr
    intro n _
    rw [containsNode_eq, containsNode_eq, hposition]
  simp only [contactPairs, hcontacts]

theorem live_of_mem_contactPairs {r : Registry} {gs : List Polygon}
    (hgs : ∀ g ∈ gs, r.nodes.live g.node = true) {s : NodeId × NodeId}
    (hs : s ∈ contactPairs r gs) : r.nodes.live s.1 = true ∧ r.nodes.live s.2 = true := by
  obtain ⟨g, hg, hs⟩ := List.mem_flatMap.1 hs
  obtain ⟨n, hn, rfl⟩ := List.mem_map.1 hs
  exact ⟨Arena.mem_handles.1 (List.mem_filter.1 hn).1, hgs g hg⟩

end Polygon

namespace Net

variable {net net' : Net} {items : Table ItemId Item} {loose : List Point} {id : ItemId}

/-- The connections of the tracks, then the ties of the zones. -/
def owned (net : Net) : List ConnectionId :=
  net.tracks.values.map TrackLink.connection ++ net.ties.values.flatten

/-- The live connections are the owned ones, each owned once, and those of the tracks join
their ends. -/
structure Wired (net : Net) : Prop where
  owned : net.registry.connections.Owned net.owned
  tracks : ∀ id link, net.tracks.get? id = some link →
    net.registry.connection? link.connection = some (.copper (link.start, link.finish))

/-- A zone has ties, maybe none of them, exactly as long as it is tracked. -/
def Matched (net : Net) : Prop := ∀ id, (net.ties.get? id).isSome = (net.zones.get? id).isSome

namespace Wired

theorem empty (strategy : Strategy) : (Net.empty strategy).Wired where
  owned := Arena.Owned.empty
  tracks _ _ h := absurd h (by simp [Net.empty])

theorem congr (h : net.Wired) (hconnections : net'.registry.connections = net.registry.connections)
    (htracks : net'.tracks = net.tracks) (hties : net'.ties = net.ties) : net'.Wired where
  owned := by
    rw [hconnections, Net.owned, htracks, hties]
    exact h.owned
  tracks id link hlink := by
    rw [htracks] at hlink
    rw [Registry.connection?, hconnections]
    exact h.tracks id link hlink

theorem mem_owned_of_track (net : Net) {id : TrackId} {link : TrackLink}
    (hlink : net.tracks.get? id = some link) : link.connection ∈ net.owned :=
  List.mem_append_left _ (List.mem_map_of_mem (Table.mem_values.2 ⟨id, hlink⟩))

theorem mem_owned_of_tie (net : Net) {id : ZoneId} {cs : List ConnectionId}
    (hcs : net.ties.get? id = some cs) {c : ConnectionId} (hc : c ∈ cs) : c ∈ net.owned :=
  List.mem_append_right _ (List.mem_flatten.2 ⟨cs, Table.mem_values.2 ⟨id, hcs⟩, hc⟩)

/-- What is given up is cut, and the connections of the tracks that stay are not touched. -/
theorem cut (h : net.Wired) (gone : List ConnectionId)
    (hconnections : net'.registry.connections = gone.foldl Arena.erase net.registry.connections)
    (howned : net.owned.Perm (gone ++ net'.owned))
    (htracks : ∀ id link, net'.tracks.get? id = some link → net.tracks.get? id = some link) :
    net'.Wired := by
  have hsplit : net.registry.connections.Owned (gone ++ net'.owned) := h.owned.congr howned.symm
  constructor
  · rw [hconnections]
    exact hsplit.foldl_erase
  · intro id link hlink
    rw [Registry.connection?, hconnections,
      hsplit.get?_foldl_erase_of_mem (mem_owned_of_track net' hlink)]
    exact h.tracks id link (htracks id link hlink)

end Wired

/-! ## Cutting -/

theorem untieZone_eq (net : Net) (id : ZoneId) :
    net.untieZone id =
      { net with
        registry := ((net.ties.get? id).getD []).foldl Registry.disconnect net.registry,
        ties := net.ties.erase id } := by
  unfold untieZone
  split
  · rename_i hid
    rw [hid, Table.erase_of_get?_eq_none hid]
    rfl
  · rename_i cs hid
    rw [hid]
    rfl

theorem Wired.untieZone (h : net.Wired) (id : ZoneId) : (net.untieZone id).Wired := by
  rw [untieZone_eq]
  refine h.cut ((net.ties.get? id).getD [])
    (Registry.connections_foldl_disconnect _ _) ?_ fun _ _ hlink => hlink
  cases hid : net.ties.get? id with
  | none =>
    rw [Net.owned, Net.owned, Table.erase_of_get?_eq_none hid]
    exact List.Perm.refl _
  | some cs =>
    have hties : net.ties.values.flatten.Perm (cs ++ (net.ties.erase id).values.flatten) :=
      (Table.values_perm_erase hid).flatten
    exact (hties.append_left _).trans (List.perm_append_comm_assoc _ _ _)

theorem Wired.detach (h : net.Wired) (id : ItemId) : (net.detach id).Wired := by
  cases id with
  | pad id => exact h.congr rfl rfl rfl
  | via id => exact h.congr rfl rfl rfl
  | zone id => exact (h.untieZone id).congr rfl rfl rfl
  | track id =>
    cases hid : net.tracks.get? id with
    | none =>
      simp only [Net.detach, hid]
      exact h
    | some link =>
      simp only [Net.detach, hid]
      refine h.cut [link.connection] rfl ?_ fun l other hother => ?_
      · exact ((Table.values_perm_erase hid).map TrackLink.connection).append_right _
      · have hother : (net.tracks.erase id).get? l = some other := hother
        rw [Table.get?_erase] at hother
        split at hother
        · exact absurd hother (by simp)
        · exact hother

theorem Matched.get?_eq_none {id : ZoneId} (h : net.Matched) (hid : net.zones.get? id = none) :
    net.ties.get? id = none :=
  eq_none_of_isSome_eq (h id) hid

theorem Matched.detach (h : net.Matched) (id : ItemId) : (net.detach id).Matched := by
  cases id with
  | pad id => exact h
  | via id => exact h
  | track id =>
    simp only [Net.detach]
    split <;> exact h
  | zone id =>
    intro l
    simp only [Net.detach, untieZone_eq, Table.get?_erase]
    split
    · rfl
    · exact h l

/-- Every tie is live, so it either touches the node or stays. -/
theorem Wired.forget (h : net.Wired) (n : NodeId) : (net.forget n).Wired := by
  let touching (c : ConnectionId) : Bool := (net.registry.connection? c).any (·.touches n)
  let staying (c : ConnectionId) : Bool := (net.registry.connection? c).any (!·.touches n)
  have hstaying : net.ties.values.flatten.filter staying =
      net.ties.values.flatten.filter fun c => !touching c := by
    apply List.filter_congr
    intro c hc
    obtain ⟨v, hv⟩ := h.owned.mem.1 (List.mem_append_right _ hc)
    have hv : net.registry.connection? c = some v := hv
    simp only [staying, touching, hv, Option.any_some]
  refine h.cut (net.ties.values.flatten.filter touching)
    (Registry.connections_foldl_disconnect _ _) ?_ fun _ _ hlink => hlink
  have hties : net.ties.values.flatten.Perm
      (net.ties.values.flatten.filter touching ++
        (net.ties.mapValues fun _ cs => cs.filter staying).values.flatten) := by
    rw [Table.flatten_values_filter, hstaying]
    exact (List.filter_append_perm touching _).symm
  exact (hties.append_left _).trans (List.perm_append_comm_assoc _ _ _)

theorem Wired.release (h : net.Wired) (n : NodeId) : (net.release n).Wired := by
  have hheld : { net with registry := (net.registry.release n).2 }.Wired :=
    h.congr (Registry.connections_release net.registry n) rfl rfl
  rw [release_eq]
  split
  · exact hheld.forget n
  · exact hheld

theorem Matched.release (h : net.Matched) (n : NodeId) : (net.release n).Matched := by
  rw [release_eq]
  split
  · intro id
    simp only [forget, Table.get?_mapValues, Option.isSome_map]
    exact h id
  · exact h

theorem Wired.remove (h : net.Wired) (id : ItemId) : (net.remove id).Wired := by
  cases hc : net.contribution? id with
  | none =>
    rw [remove_of_contribution?_eq_none hc]
    exact h.detach id
  | some c =>
    rw [remove_of_contribution?_eq_some hc]
    have hreleased : (c.nodes.foldl Net.release (net.detach id)).Wired :=
      List.foldlRecOn (motive := Wired) _ _ (h.detach id) fun _ h n _ => h.release n
    exact hreleased.congr rfl rfl rfl

theorem Matched.remove (h : net.Matched) (id : ItemId) : (net.remove id).Matched := by
  cases hc : net.contribution? id with
  | none =>
    rw [remove_of_contribution?_eq_none hc]
    exact h.detach id
  | some c =>
    rw [remove_of_contribution?_eq_some hc]
    have hreleased : (c.nodes.foldl Net.release (net.detach id)).Matched :=
      List.foldlRecOn (motive := Matched) _ _ (h.detach id) fun _ h n _ => h.release n
    exact hreleased

end Net
end Unrouted
