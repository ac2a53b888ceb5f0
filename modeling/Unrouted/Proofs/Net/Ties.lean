import Unrouted.Proofs.Net.Copper
import Mathlib.Data.Option.Basic

/-!
Tying zones.  A zone is tied when its ties are those that its polygons call for.  Tying one
zone leaves the ties of the others as they are, so once all of them are untied and tied
again, all zones are tied.
-/

namespace Unrouted
namespace Net

variable {net net' : Net} {items : Table ItemId Item} {loose : List Point} {id : ZoneId}
  {gs : List Polygon}

/-- The ties of a zone are one for each contact of its polygons, from the contact to the
polygon's node. -/
def Tied (net : Net) (id : ZoneId) : Prop :=
  ∀ gs, net.zones.get? id = some gs → ∃ cs, net.ties.get? id = some cs ∧
    cs.map net.registry.connection? =
      (Polygon.contactPairs net.registry gs).map fun s => some (Connection.copper s)

/-- The polygons of all zones have live nodes. -/
def Grounded (net : Net) : Prop :=
  ∀ id gs, net.zones.get? id = some gs → ∀ g ∈ gs, net.registry.nodes.live g.node = true

theorem Mirrors.grounded (h : net.Mirrors items loose) : net.Grounded := by
  intro id gs hgs g hg
  have hc : net.contribution? (.zone id) = some (.polygons gs) := by simp [contribution?, hgs]
  obtain ⟨item, -, hfits⟩ := h.exists_item hc
  have hmem : net.registry.position? g.node ∈ item.places.map some := by
    rw [← hfits.1]
    exact List.mem_map_of_mem (List.mem_map_of_mem hg)
  obtain ⟨p, -, hp⟩ := List.mem_map.1 hmem
  exact Registry.live_iff_position?.2 ⟨p, hp.symm⟩

theorem Grounded.congr (h : net.Grounded) (hnodes : net'.registry.nodes = net.registry.nodes)
    (hzones : net'.zones = net.zones) : net'.Grounded := by
  intro id gs hgs g hg
  rw [hzones] at hgs
  rw [hnodes]
  exact h id gs hgs g hg

/-- A tied zone stays tied as long as its polygons, its ties and the live nodes do. -/
theorem Tied.congr (h : net.Tied id) (hzone : net'.zones.get? id = net.zones.get? id)
    (htie : net'.ties.get? id = net.ties.get? id)
    (hhandles : net'.registry.nodes.handles = net.registry.nodes.handles)
    (hposition : ∀ n, net'.registry.position? n = net.registry.position? n)
    (hconnection : ∀ c ∈ net.owned, net'.registry.connection? c = net.registry.connection? c) :
    net'.Tied id := by
  intro gs hgs
  rw [hzone] at hgs
  obtain ⟨cs, hcs, hmade⟩ := h gs hgs
  refine ⟨cs, by rw [htie, hcs], ?_⟩
  rw [Polygon.contactPairs_congr hhandles hposition, ← hmade]
  apply List.map_congr_left
  intro c hc
  exact hconnection c (Wired.mem_owned_of_tie net hcs hc)

/-! ## Tying one zone -/

theorem tieZone_of_get?_eq_none (hid : net.zones.get? id = none) : net.tieZone id = net := by
  simp [tieZone, hid]

theorem tieZone_of_get?_eq_some (hid : net.zones.get? id = some gs) :
    net.tieZone id =
      { net with
        registry := (joinAll net.registry (Polygon.contactPairs net.registry gs)).2,
        ties := net.ties.insert id ((net.ties.get? id).getD [] ++
          (joinAll net.registry (Polygon.contactPairs net.registry gs)).1) } := by
  simp [tieZone, hid]

@[simp]
theorem zones_tieZone (net : Net) (id : ZoneId) : (net.tieZone id).zones = net.zones := by
  unfold tieZone
  split <;> rfl

theorem ties_tieZone_of_ne {l : ZoneId} (net : Net) (hl : l ≠ id) :
    (net.tieZone id).ties.get? l = net.ties.get? l := by
  cases hid : net.zones.get? id with
  | none => rw [tieZone_of_get?_eq_none hid]
  | some gs =>
    rw [tieZone_of_get?_eq_some hid]
    exact Table.get?_insert_of_ne _ _ hl

/-- The contacts of grounded polygons are joined one by one. -/
theorem Wired.joined (h : net.Wired) (hground : net.Grounded) (hid : net.zones.get? id = some gs) :
    net.registry.Joined net.owned (Polygon.contactPairs net.registry gs)
      (joinAll net.registry (Polygon.contactPairs net.registry gs)) :=
  Registry.joinAll_spec h.owned fun _ hs =>
    Polygon.live_of_mem_contactPairs (fun g hg => hground id gs hid g hg) hs

theorem Wired.connection?_tieZone (h : net.Wired) (hground : net.Grounded) (id : ZoneId)
    {c : ConnectionId} (hc : c ∈ net.owned) :
    (net.tieZone id).registry.connection? c = net.registry.connection? c := by
  cases hid : net.zones.get? id with
  | none => rw [tieZone_of_get?_eq_none hid]
  | some gs =>
    rw [tieZone_of_get?_eq_some hid]
    exact (h.joined hground hid).stays c hc

/-- New ties for a zone, one for each pair that is joined. -/
def tieAlong (net : Net) (id : ZoneId) (pairs : List (NodeId × NodeId)) : Net :=
  { net with
    registry := (joinAll net.registry pairs).2,
    ties := net.ties.insert id ((net.ties.get? id).getD [] ++ (joinAll net.registry pairs).1) }

theorem Wired.tieAlong (h : net.Wired) {pairs : List (NodeId × NodeId)}
    (hlive : ∀ s ∈ pairs, net.registry.nodes.live s.1 = true ∧ net.registry.nodes.live s.2 = true)
    (id : ZoneId) : (net.tieAlong id pairs).Wired := by
  have hjoined := Registry.joinAll_spec h.owned hlive
  constructor
  · refine hjoined.owned.congr ?_
    have hties := Table.flatten_values_insert_append net.ties id (joinAll net.registry pairs).1
    exact (hties.append_left _).trans (List.perm_append_comm_assoc _ _ _)
  · intro l link hlink
    have hstays := hjoined.stays link.connection (mem_owned_of_track net hlink)
    exact hstays.trans (h.tracks l link hlink)

theorem Wired.tieZone (h : net.Wired) (hground : net.Grounded) (id : ZoneId) :
    (net.tieZone id).Wired := by
  cases hid : net.zones.get? id with
  | none =>
    rw [tieZone_of_get?_eq_none hid]
    exact h
  | some gs =>
    rw [tieZone_of_get?_eq_some hid]
    exact h.tieAlong (fun _ hs => Polygon.live_of_mem_contactPairs (hground id gs hid) hs) id

theorem Wired.tied_tieZone_self (h : net.Wired) (hground : net.Grounded)
    (hid : net.ties.get? id = none) : (net.tieZone id).Tied id := by
  intro gs hgs
  rw [zones_tieZone] at hgs
  have hjoined := h.joined hground hgs
  have hcontacts : Polygon.contactPairs (net.tieZone id).registry gs =
      Polygon.contactPairs net.registry gs :=
    Polygon.contactPairs_congr (by rw [nodes_tieZone])
      (Registry.position?_congr (nodes_tieZone net id)) gs
  rw [hcontacts, tieZone_of_get?_eq_some hgs]
  exact ⟨_, Table.get?_insert_self _ _ _, by rw [hid]; exact hjoined.made⟩

theorem Tied.tieZone_of_ne {l : ZoneId} (ht : net.Tied l) (h : net.Wired) (hground : net.Grounded)
    (hl : l ≠ id) : (net.tieZone id).Tied l :=
  ht.congr (by rw [zones_tieZone]) (ties_tieZone_of_ne net hl) (by rw [nodes_tieZone])
    (Registry.position?_congr (nodes_tieZone net id)) fun _ hc =>
      h.connection?_tieZone hground id hc

/-! ## Tying all zones anew -/

/- The zones still to come have no ties and those that are done are tied. -/
theorem Wired.foldl_tieZone {ids : List ZoneId} (h : net.Wired) (hground : net.Grounded)
    (hnodup : ids.Nodup) (hids : ∀ id ∈ ids, net.ties.get? id = none) :
    (ids.foldl Net.tieZone net).Wired ∧
      (∀ id, id ∈ ids ∨ net.Tied id → (ids.foldl Net.tieZone net).Tied id) ∧
      ∀ id, id ∉ ids → (ids.foldl Net.tieZone net).ties.get? id = net.ties.get? id := by
  induction ids generalizing net with
  | nil => exact ⟨h, fun id hid => hid.resolve_left List.not_mem_nil, fun _ _ => rfl⟩
  | cons l rest ih =>
    obtain ⟨hl, hrest⟩ := List.nodup_cons.1 hnodup
    have hne {id : ZoneId} (hid : id ∈ rest) : id ≠ l := fun e => hl (e ▸ hid)
    have hties : ∀ id ∈ rest, (net.tieZone l).ties.get? id = none := by
      intro id hid
      rw [ties_tieZone_of_ne net (hne hid)]
      exact hids id (List.mem_cons_of_mem _ hid)
    obtain ⟨hwired, htied, hother⟩ := ih (h.tieZone hground l)
      (hground.congr (nodes_tieZone net l) (zones_tieZone net l)) hrest hties
    refine ⟨hwired, ?_, ?_⟩
    · intro id hid
      by_cases hidl : id = l
      · rw [hidl]
        exact htied l (.inr (h.tied_tieZone_self hground (hids l List.mem_cons_self)))
      · rcases hid with hid | hid
        · rw [List.mem_cons] at hid
          exact htied id (.inl (hid.resolve_left hidl))
        · exact htied id (.inr (hid.tieZone_of_ne h hground hidl))
    · intro id hid
      rw [List.mem_cons, not_or] at hid
      rw [List.foldl_cons, hother id hid.2, ties_tieZone_of_ne net hid.1]

theorem Wired.foldl_untieZone (h : net.Wired) (ids : List ZoneId) :
    (ids.foldl Net.untieZone net).Wired :=
  List.foldlRecOn (motive := Wired) _ _ h fun _ h id _ => h.untieZone id

theorem ties_foldl_untieZone (net : Net) (ids : List ZoneId) (l : ZoneId) :
    (ids.foldl untieZone net).ties.get? l = if l ∈ ids then none else net.ties.get? l := by
  induction ids generalizing net with
  | nil => simp
  | cons id rest ih =>
    rw [List.foldl_cons, ih, untieZone_eq, Table.get?_erase]
    by_cases hl : l = id
    · simp [hl]
    · simp [hl]

theorem nodes_foldl_untieZone (net : Net) (ids : List ZoneId) :
    (ids.foldl untieZone net).registry.nodes = net.registry.nodes := by
  induction ids generalizing net with
  | nil => rfl
  | cons id rest ih => rw [List.foldl_cons, ih, nodes_untieZone]

theorem zones_foldl_untieZone (net : Net) (ids : List ZoneId) :
    (ids.foldl untieZone net).zones = net.zones := by
  induction ids generalizing net with
  | nil => rfl
  | cons id rest ih => rw [List.foldl_cons, ih, zones_untieZone]

theorem zones_foldl_tieZone (net : Net) (ids : List ZoneId) :
    (ids.foldl tieZone net).zones = net.zones := by
  induction ids generalizing net with
  | nil => rfl
  | cons id rest ih => rw [List.foldl_cons, ih, zones_tieZone]

theorem zones_tieZones (net : Net) : net.tieZones.zones = net.zones := by
  rw [tieZones, zones_foldl_tieZone, zones_foldl_untieZone]

theorem Wired.tieZones (h : net.Wired) (hground : net.Grounded) (hmatched : net.Matched) :
    net.tieZones.Wired ∧ net.tieZones.Matched ∧ ∀ id, net.tieZones.Tied id := by
  have hzones := zones_tieZones net
  have hkeys : net.zones.keys.Nodup := net.zones.nodup_keys
  have huntied := ties_foldl_untieZone net net.zones.keys
  obtain ⟨hwired, htied, hother⟩ := (h.foldl_untieZone net.zones.keys).foldl_tieZone
    (hground.congr (nodes_foldl_untieZone net _) (zones_foldl_untieZone net _))
    hkeys fun id hid => by rw [huntied, if_pos hid]
  have htied (id : ZoneId) : net.tieZones.Tied id := by
    intro gs hgs
    rw [hzones] at hgs
    exact htied id (.inl (Table.mem_keys.2 ⟨gs, hgs⟩)) gs (by rw [← Net.tieZones, hzones, hgs])
  refine ⟨hwired, fun id => ?_, htied⟩
  rw [hzones]
  cases hid : net.zones.get? id with
  | some gs =>
    obtain ⟨cs, hcs, -⟩ := htied id gs (by rw [hzones, hid])
    rw [hcs]
    rfl
  | none =>
    have hkey : id ∉ net.zones.keys := by
      rw [Table.mem_keys, hid]
      simp
    rw [Net.tieZones, hother id hkey, huntied, if_neg hkey, hmatched.get?_eq_none hid]
    rfl

/-- The connections of a tied net are one along each track and one for each contact of a
polygon. -/
theorem Wired.copper_perm (h : net.Wired) (hmatched : net.Matched) (htied : ∀ id, net.Tied id) :
    (net.registry.connections.entries.map Prod.snd).Perm
      (net.tracks.values.map (fun link => Connection.copper (link.start, link.finish)) ++
        net.zones.values.flatMap fun gs =>
          (Polygon.contactPairs net.registry gs).map Connection.copper) := by
  rw [← List.map_perm_map_iff (Option.some_injective _), List.map_map, List.map_append,
    List.map_map, List.map_flatMap]
  refine h.owned.entries_perm.trans ?_
  rw [Net.owned, List.map_append, List.map_map]
  refine List.Perm.append (List.Perm.of_eq (List.map_congr_left fun link hlink => ?_)) ?_
  · obtain ⟨id, hid⟩ := Table.mem_values.1 hlink
    exact h.tracks id link hid
  · rw [List.map_flatten, ← List.flatMap_def]
    refine Table.values_flatMap_perm hmatched fun id cs gs hcs hgs => List.Perm.of_eq ?_
    obtain ⟨cs', hcs', hmade⟩ := htied id gs hgs
    obtain rfl := Option.some.inj (hcs.symm.trans hcs')
    rw [List.map_map]
    exact hmade

/-! ## Attaching -/

theorem Wired.placed (h : net.Wired) {held : List Point} (hcarries : net.registry.Carries held)
    (zone : Zone) : (net.placed zone).Wired :=
  h.congr (Polygon.registerAll_spec hcarries zone.id zone.outlines).2.connections rfl rfl

theorem Wired.attach {item : Item} (h : net.Wired) (hmirrors : net.Mirrors items [])
    (hid : items.get? item.id = none) : (net.attach item).Wired := by
  cases item with
  | pad pad => exact h.congr (Registry.connections_hold _ _) rfl rfl
  | via via => exact h.congr (Registry.connections_hold _ _) rfl rfl
  | zone zone =>
    have hplaced : (net.placed zone).Wired := h.placed hmirrors.carries zone
    have hground : (net.placed zone).Grounded := (hmirrors.placed hid).grounded
    exact (hplaced.tieZone hground zone.id).congr rfl rfl rfl
  | track track =>
    have hboth := hmirrors.carries.holdBoth track.start track.finish
    have howned :
        (net.registry.holdBoth track.start track.finish).2.connections.Owned net.owned := by
      rw [hboth.connections]
      exact h.owned
    have hnone : net.tracks.get? track.id = none := by
      simpa [contribution?, Item.id] using hmirrors.contribution?_eq_none hid
    rw [attach_track hmirrors.carries]
    constructor
    · refine (howned.insert _).congr ?_
      rw [Net.owned, Table.values_insert_of_get?_eq_none hnone, List.map_append, List.append_assoc]
      exact List.perm_middle
    · intro id link hlink
      have hlink : (net.tracks.insert track.id (net.laidLink track)).get? id = some link := hlink
      rw [Table.get?_insert] at hlink
      split at hlink
      · obtain rfl := Option.some.inj hlink
        exact Arena.get?_insert_self howned.wellFormed _
      · have hold := howned.get?_insert_of_mem
          (.copper (net.registry.holdBoth track.start track.finish).1)
          (mem_owned_of_track net hlink)
        rw [Registry.connection?, hold, hboth.connections]
        exact h.tracks id link hlink

theorem Matched.attach {item : Item} {held : List Point} (h : net.Matched)
    (hcarries : net.registry.Carries held) : (net.attach item).Matched := by
  cases item with
  | pad pad => exact h
  | via via => exact h
  | track track =>
    rw [attach_track hcarries]
    exact h
  | zone zone =>
    have hzone : (net.placed zone).zones.get? zone.id = some
        (Polygon.registerAll net.registry zone.id zone.outlines).1 := Table.get?_insert_self _ _ _
    intro id
    rw [attach_zone]
    show (((net.placed zone).tieZone zone.id).ties.get? id).isSome =
      (((net.placed zone).tieZone zone.id).zones.get? id).isSome
    rw [zones_tieZone]
    by_cases hid : id = zone.id
    · rw [hid, hzone, tieZone_of_get?_eq_some hzone]
      exact congrArg Option.isSome (Table.get?_insert_self _ _ _)
    · rw [ties_tieZone_of_ne _ hid]
      have hother : (net.placed zone).zones.get? id = net.zones.get? id :=
        Table.get?_insert_of_ne _ _ hid
      rw [hother]
      exact h id

end Net
end Unrouted
