import Unrouted.Proofs.Net.Tracked

/-!
No connection is left loose.  Every connection joins two live nodes, and it is listed once,
by one track or by one zone, as long as it lives.  When a node goes, the ties that touch it
go with it, whichever zone they belong to.
-/

namespace Unrouted

namespace Registry

variable {r : Registry} {n m : NodeId}

/-- Both ends of a connection are live. -/
def Bears (r : Registry) (v : Connection) : Prop :=
  r.nodes.live v.source = true ∧ r.nodes.live v.target = true

/-- A release takes no other node away than the released one. -/
theorem live_release (hm : r.nodes.live m = true) (hstays : m ≠ n ∨ (r.release n).1 = false) :
    (r.release n).2.nodes.live m = true := by
  obtain ⟨p, hp⟩ := live_iff_position?.1 hm
  apply live_iff_position?.2
  unfold release at hstays ⊢
  split
  · exact ⟨p, hp⟩
  · rename_i v hv
    rw [hv] at hstays
    split
    · rename_i hlast
      have hne : m ≠ n := by simpa [hlast] using hstays
      exact ⟨p, by rw [position?_discard, if_neg hne, hp]⟩
    · refine ⟨p, ?_⟩
      rw [← hp]
      exact position?_modifyNode r n m fun _ => rfl

end Registry

namespace Net

variable {net net' : Net} {items : Table ItemId Item} {n : NodeId} {id : ItemId}

/-! ## Ends of ties -/

/-- The ties of all zones join live nodes. -/
def Anchored (net : Net) : Prop :=
  ∀ c ∈ net.ties.values.flatten, ∀ v, net.registry.connection? c = some v → net.registry.Bears v

namespace Anchored

theorem empty (strategy : Strategy) : (Net.empty strategy).Anchored :=
  fun _ hc => absurd hc List.not_mem_nil

/-- Ties may go, as long as no node does. -/
theorem of_stays (h : net.Anchored)
    (hlive : ∀ n, net.registry.nodes.live n = true → net'.registry.nodes.live n = true)
    (hties : net'.ties.values.flatten ⊆ net.ties.values.flatten)
    (hconnection : ∀ c ∈ net'.ties.values.flatten, ∀ v,
      net'.registry.connection? c = some v → net.registry.connection? c = some v) :
    net'.Anchored := by
  intro c hc v hv
  obtain ⟨hs, ht⟩ := h c (hties hc) v (hconnection c hc v hv)
  exact ⟨hlive _ hs, hlive _ ht⟩

/-- Cutting connections leaves the ends of the others. -/
theorem of_cut (h : net.Anchored) (gone : List ConnectionId)
    (hnodes : net'.registry.nodes = net.registry.nodes)
    (hties : net'.ties.values.flatten ⊆ net.ties.values.flatten)
    (hconnections : net'.registry.connections = gone.foldl Arena.erase net.registry.connections) :
    net'.Anchored := by
  refine h.of_stays (fun n hn => by rw [hnodes, hn]) hties fun c _ v hv => ?_
  rw [Registry.connection?, hconnections, Arena.get?_foldl_erase] at hv
  split at hv
  · exact absurd hv (by simp)
  · exact hv

theorem congr (h : net.Anchored)
    (hlive : ∀ n, net.registry.nodes.live n = true → net'.registry.nodes.live n = true)
    (hties : net'.ties = net.ties)
    (hconnections : net'.registry.connections = net.registry.connections) : net'.Anchored := by
  refine h.of_stays hlive (by rw [hties]; exact List.Subset.refl _) fun c _ v hv => ?_
  rw [Registry.connection?, hconnections] at hv
  exact hv

theorem untieZone (h : net.Anchored) (id : ZoneId) : (net.untieZone id).Anchored := by
  refine h.of_cut ((net.ties.get? id).getD []) (nodes_untieZone net id) ?_ ?_
  · rw [untieZone_eq]
    exact Table.flatten_values_erase_subset net.ties id
  · rw [untieZone_eq]
    exact Registry.connections_foldl_disconnect _ _

theorem detach (h : net.Anchored) (id : ItemId) : (net.detach id).Anchored := by
  cases id with
  | pad id => exact h
  | via id => exact h
  | zone id => exact h.untieZone id
  | track id =>
    cases hid : net.tracks.get? id with
    | none =>
      simp only [Net.detach, hid]
      exact h
    | some link =>
      simp only [Net.detach, hid]
      exact h.of_cut [link.connection] rfl (List.Subset.refl _) rfl

/-- An erased node takes the ties that touch it along. -/
theorem release (h : net.Anchored) (n : NodeId) : (net.release n).Anchored := by
  intro c hc v hv
  have hconnections := Registry.connections_release net.registry n
  rw [release_eq] at hc hv ⊢
  split at hc
  · rename_i herased
    rw [if_pos herased] at hv ⊢
    obtain ⟨hmem, hstaying⟩ := List.mem_filter.1 (Table.flatten_values_filter net.ties _ ▸ hc)
    simp only [forget, Registry.connection?, Registry.connections_foldl_disconnect,
      Arena.get?_foldl_erase] at hv hstaying
    split at hv
    · exact absurd hv (by simp)
    · -- A tie that was not cut does not touch the node.
      rw [hv] at hstaying
      rw [hconnections] at hv
      obtain ⟨hs, ht⟩ := h c hmem v hv
      have hne : v.source ≠ n ∧ v.target ≠ n := by
        simpa [Connection.touches] using hstaying
      rw [Registry.Bears, nodes_forget]
      exact ⟨Registry.live_release hs (.inl hne.1), Registry.live_release ht (.inl hne.2)⟩
  · rename_i hheld
    rw [if_neg hheld] at hv ⊢
    rw [Registry.connection?, hconnections] at hv
    obtain ⟨hs, ht⟩ := h c hc v hv
    have hheld : (net.registry.release n).1 = false := by simpa using hheld
    exact ⟨Registry.live_release hs (.inr hheld), Registry.live_release ht (.inr hheld)⟩

theorem remove (h : net.Anchored) (id : ItemId) : (net.remove id).Anchored := by
  cases hc : net.contribution? id with
  | none =>
    rw [remove_of_contribution?_eq_none hc]
    exact h.detach id
  | some c =>
    rw [remove_of_contribution?_eq_some hc]
    have hreleased : (c.nodes.foldl Net.release (net.detach id)).Anchored :=
      List.foldlRecOn (motive := Anchored) _ _ (h.detach id) fun _ h n _ => h.release n
    exact hreleased

/-- The new ties run from contacts, which are live, to the nodes of polygons. -/
theorem tieZone (h : net.Anchored) (hwired : net.Wired) (hground : net.Grounded) (id : ZoneId) :
    (net.tieZone id).Anchored := by
  cases hid : net.zones.get? id with
  | none =>
    rw [tieZone_of_get?_eq_none hid]
    exact h
  | some gs =>
    intro c hc v hv
    let out := joinAll net.registry (Polygon.contactPairs net.registry gs)
    have hjoined : net.registry.Joined net.owned (Polygon.contactPairs net.registry gs) out :=
      hwired.joined hground hid
    rw [Registry.Bears, nodes_tieZone]
    rw [tieZone_of_get?_eq_some hid] at hc hv
    have hmem := (Table.flatten_values_insert_append net.ties id out.1).mem_iff.1 hc
    rcases List.mem_append.1 hmem with hnew | hold
    · have hmade : out.2.connection? c ∈ out.1.map out.2.connection? := List.mem_map_of_mem hnew
      rw [hjoined.made, List.mem_map] at hmade
      obtain ⟨s, hs, hcopper⟩ := hmade
      obtain rfl := Option.some.inj (hcopper.trans hv)
      exact Polygon.live_of_mem_contactPairs (fun g hg => hground id gs hid g hg) hs
    · have hstays := hjoined.stays c (List.mem_append_right _ hold)
      exact h c hold v (hstays.symm.trans hv)

theorem foldl_tieZone {ids : List ZoneId} (h : net.Anchored) (hwired : net.Wired)
    (hground : net.Grounded) : (ids.foldl Net.tieZone net).Anchored := by
  induction ids generalizing net with
  | nil => exact h
  | cons id rest ih =>
    exact ih (h.tieZone hwired hground id) (hwired.tieZone hground id)
      (hground.congr (nodes_tieZone net id) (zones_tieZone net id))

theorem tieZones (h : net.Anchored) (hwired : net.Wired) (hground : net.Grounded) :
    net.tieZones.Anchored := by
  have huntied : (net.zones.keys.foldl Net.untieZone net).Anchored :=
    List.foldlRecOn (motive := Anchored) _ _ h fun _ h id _ => h.untieZone id
  exact huntied.foldl_tieZone (hwired.foldl_untieZone _)
    (hground.congr (nodes_foldl_untieZone net _) (zones_foldl_untieZone net _))

/-- Holding places keeps the nodes that are there. -/
theorem attach {item : Item} (h : net.Anchored) (hwired : net.Wired)
    (hmirrors : net.Mirrors items []) (hid : items.get? item.id = none) : (net.attach item).Anchored := by
  have live {r : Registry} (hstays : ∀ n q, net.registry.position? n = some q →
      r.position? n = some q) (n : NodeId) (hn : net.registry.nodes.live n = true) :
      r.nodes.live n = true := by
    obtain ⟨q, hq⟩ := Registry.live_iff_position?.1 hn
    exact Registry.live_iff_position?.2 ⟨q, hstays n q hq⟩
  have hold (p : Point) : ∀ n q, net.registry.position? n = some q →
      (net.registry.hold p).2.position? n = some q :=
    fun _ _ hn => hmirrors.carries.position?_hold_of_some p hn
  cases item with
  | pad pad => exact h.congr (live (hold pad.position)) rfl (Registry.connections_hold _ _)
  | via via => exact h.congr (live (hold via.position)) rfl (Registry.connections_hold _ _)
  | track track =>
    have hboth := hmirrors.carries.holdBoth track.start track.finish
    rw [attach_track hmirrors.carries]
    refine h.of_stays (live hboth.stays) (List.Subset.refl _) fun c hc v hv => ?_
    have howned :
        (net.registry.holdBoth track.start track.finish).2.connections.Owned net.owned := by
      rw [hboth.connections]
      exact hwired.owned
    rw [Registry.connection?, howned.get?_insert_of_mem _ (List.mem_append_right _ hc),
      hboth.connections] at hv
    exact hv
  | zone zone =>
    have hspec := (Polygon.registerAll_spec hmirrors.carries zone.id zone.outlines).2
    have hplaced : (net.placed zone).Anchored :=
      h.congr (live hspec.stays) rfl hspec.connections
    exact hplaced.tieZone (hwired.placed hmirrors.carries zone)
      (hmirrors.placed hid).grounded zone.id

end Anchored

/-! ## Every history -/

theorem Sound.anchored_apply (h : net.Sound items) (hanchored : net.Anchored) (op : Operation) :
    (net.apply op).Anchored := by
  have marks {net' : Net} (hmarks : net.Remarked net') : net'.Anchored := by
    obtain ⟨registry, marked, visible, hregistry, rfl⟩ := hmarks
    refine hanchored.congr (fun n hn => ?_) rfl hregistry.connections
    obtain ⟨q, hq⟩ := Registry.live_iff_position?.1 hn
    exact Registry.live_iff_position?.2 ⟨q, (hregistry.position?_eq n).trans hq⟩
  cases op with
  | add item =>
    have hremoved := h.remove item.id
    show (net.add item).Anchored
    rw [add_eq]
    exact (hanchored.remove item.id).attach hremoved.wired hremoved.mirrors
      (Table.get?_erase_self items item.id)
  | remove id => exact hanchored.remove id
  | update =>
    show net.update.Anchored
    cases hdirty : net.dirty with
    | false =>
      rw [update_of_clean hdirty]
      exact hanchored
    | true =>
      rw [update_of_dirty hdirty]
      exact hanchored.tieZones h.wired h.mirrors.grounded
  | mark n => exact marks (remarked_mark net n)
  | clearMarks => exact marks (remarked_clearMarks net)
  | setVisible visible => exact marks (remarked_setVisible net visible)

theorem anchored_run (strategy : Strategy) (history : List Operation) :
    (run (empty strategy) history).Anchored := by
  have fold (history : List Operation) {net : Net} {items} (h : net.Sound items)
      (hanchored : net.Anchored) : (net.run history).Anchored := by
    induction history generalizing net items with
    | nil => exact hanchored
    | cons op rest ih => exact ih (h.apply op) (h.anchored_apply hanchored op)
  exact fold history (Sound.empty strategy) (Anchored.empty strategy)

/-- The connections of the tracks join the nodes of the tracks, which are held. -/
theorem Sound.bears (h : net.Sound items) (hanchored : net.Anchored) {c : ConnectionId}
    {v : Connection} (hv : net.registry.connection? c = some v) : net.registry.Bears v := by
  have hmem : c ∈ net.owned := h.wired.owned.mem.2 ⟨v, hv⟩
  rcases List.mem_append.1 hmem with htrack | htie
  · obtain ⟨link, hlink, rfl⟩ := List.mem_map.1 htrack
    obtain ⟨id, hid⟩ := Table.mem_values.1 hlink
    have hc : net.contribution? (.track id) = some (.link link) := by simp [contribution?, hid]
    obtain ⟨item, -, hfits⟩ := h.mirrors.exists_item hc
    obtain rfl := Option.some.inj ((h.wired.tracks id link hid).symm.trans hv)
    have live {n : NodeId} (hn : n ∈ (Contribution.link link).nodes) :
        net.registry.nodes.live n = true := by
      have hposition := List.mem_map_of_mem (f := net.registry.position?) hn
      rw [hfits.1, List.mem_map] at hposition
      obtain ⟨p, -, hp⟩ := hposition
      exact Registry.live_iff_position?.2 ⟨p, hp.symm⟩
    exact ⟨live List.mem_cons_self, live (List.mem_cons_of_mem _ List.mem_cons_self)⟩
  · exact hanchored c htie v hv

/-! ## Owners -/

inductive Owner where
  | track (id : TrackId)
  | zone (id : ZoneId)

/-- The connections that an owner lists: the one of a track, the ties of a zone. -/
def listed (net : Net) : Owner → List ConnectionId
  | .track id => (net.tracks.get? id).toList.map TrackLink.connection
  | .zone id => (net.ties.get? id).getD []

/-- No connection is loose: all of them join live nodes, each live one is listed once and by
one owner, and no dead one is listed.  A zone has a list as long as it has polygons. -/
structure Intact (net : Net) : Prop where
  bears : ∀ c v, net.registry.connection? c = some v → net.registry.Bears v
  owner : ∀ c, net.registry.connections.live c = true →
    ∃ o, (net.listed o).count c = 1 ∧ ∀ o', c ∈ net.listed o' → o' = o
  live : ∀ o, ∀ c ∈ net.listed o, net.registry.connections.live c = true
  matched : ∀ id, (net.ties.get? id).isSome = (net.zones.get? id).isSome

theorem mem_owned_iff {c : ConnectionId} : c ∈ net.owned ↔ ∃ o, c ∈ net.listed o := by
  simp only [owned, List.mem_append, List.mem_map, List.mem_flatten, Table.mem_values]
  constructor
  · intro h
    rcases h with ⟨link, ⟨id, hid⟩, rfl⟩ | ⟨cs, ⟨id, hid⟩, hc⟩
    · exact ⟨.track id, by simp [listed, hid]⟩
    · exact ⟨.zone id, by simpa [listed, hid] using hc⟩
  · intro h
    obtain ⟨o, hc⟩ := h
    cases o with
    | track id =>
      obtain ⟨link, hlink, rfl⟩ := List.mem_map.1 hc
      exact .inl ⟨link, ⟨id, Option.mem_toList.1 hlink⟩, rfl⟩
    | zone id =>
      cases hid : net.ties.get? id with
      | none => exact absurd hc (by simp [listed, hid])
      | some cs => exact .inr ⟨cs, ⟨id, hid⟩, by simpa [listed, hid] using hc⟩

/-- What one owner lists is apart from what all the others do. -/
theorem owned_perm_listed (net : Net) (o : Owner) :
    ∃ rest, net.owned.Perm (net.listed o ++ rest) ∧ ∀ o', o' ≠ o → net.listed o' ⊆ rest := by
  cases o with
  | track id =>
    let rest : Net := { net with tracks := net.tracks.erase id }
    refine ⟨rest.owned, ?_, fun o' ho c hc => ?_⟩
    · cases hid : net.tracks.get? id with
      | none =>
        have hsame : rest = net := by
          simp only [rest, Table.erase_of_get?_eq_none hid]
        simp [listed, hid, hsame]
      | some link =>
        have htracks := (Table.values_perm_erase hid).map TrackLink.connection
        simpa [listed, hid, owned, rest] using htracks.append_right net.ties.values.flatten
    · refine mem_owned_iff.2 ⟨o', ?_⟩
      cases o' with
      | zone l => exact hc
      | track l =>
        have hl : l ≠ id := fun e => ho (congrArg Owner.track e)
        simpa [listed, rest, Table.get?_erase_of_ne _ hl] using hc
  | zone id =>
    let rest : Net := { net with ties := net.ties.erase id }
    refine ⟨rest.owned, ?_, fun o' ho c hc => ?_⟩
    · cases hid : net.ties.get? id with
      | none =>
        have hsame : rest = net := by
          simp only [rest, Table.erase_of_get?_eq_none hid]
        simp [listed, hid, hsame]
      | some cs =>
        have hties : net.ties.values.flatten.Perm (cs ++ (net.ties.erase id).values.flatten) :=
          (Table.values_perm_erase hid).flatten
        have hsplit := (hties.append_left _).trans
          (List.perm_append_comm_assoc (net.tracks.values.map TrackLink.connection) _ _)
        simpa [listed, hid, owned, rest] using hsplit
    · refine mem_owned_iff.2 ⟨o', ?_⟩
      cases o' with
      | track l => exact hc
      | zone l =>
        have hl : l ≠ id := fun e => ho (congrArg Owner.zone e)
        simpa [listed, rest, Table.get?_erase_of_ne _ hl] using hc

theorem Sound.intact (h : net.Sound items) (hanchored : net.Anchored) : net.Intact where
  bears _ _ hv := h.bears hanchored hv
  owner c hc := by
    obtain ⟨o, ho⟩ := mem_owned_iff.1 (h.wired.owned.mem.2 (Arena.live_iff.1 hc))
    obtain ⟨rest, hperm, hrest⟩ := owned_perm_listed net o
    obtain ⟨hnodup, -, hapart⟩ := List.nodup_append.1 (hperm.nodup_iff.1 h.wired.owned.nodup)
    refine ⟨o, List.count_eq_one_of_mem hnodup ho, fun o' ho' => ?_⟩
    by_contra hne
    exact hapart c ho c (hrest o' hne ho') rfl
  live o c hc := Arena.live_iff.2 (h.wired.owned.mem.1 (mem_owned_iff.2 ⟨o, hc⟩))
  matched := h.matched

end Net
end Unrouted
