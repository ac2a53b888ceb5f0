import Unrouted.Proofs.Net.Contribution
import Unrouted.Proofs.Registry.Histories

/-!
Every change of the items has two halves.  An item is detached, which takes its
contribution and its connections out, and then its nodes are released.  An item is attached
on a net that has no contribution of its name.  The mirrored items change along.
-/

namespace Unrouted

namespace Registry

theorem joinAll_eq (r : Registry) (pairs : List (NodeId × NodeId)) :
    (Net.joinAll r pairs).2 = { r with connections := (Net.joinAll r pairs).2.connections } := by
  induction pairs generalizing r with
  | nil => rfl
  | cons pair rest ih =>
    simp only [Net.joinAll, connect]
    split
    · exact ih r
    · rename_i c r' hok
      split at hok
      · simp only [Except.ok.injEq, Prod.mk.injEq] at hok
        obtain ⟨-, rfl⟩ := hok
        exact ih _
      · exact absurd hok (by simp)

@[simp]
theorem nodes_joinAll (r : Registry) (pairs : List (NodeId × NodeId)) :
    (Net.joinAll r pairs).2.nodes = r.nodes := by
  rw [joinAll_eq]

@[simp]
theorem places_joinAll (r : Registry) (pairs : List (NodeId × NodeId)) :
    (Net.joinAll r pairs).2.places = r.places := by
  rw [joinAll_eq]

end Registry

namespace Net

variable {net : Net} {items : Table ItemId Item} {loose : List Point} {id : ItemId}

/-! ## Zones touch no node -/

@[simp]
theorem nodes_tieZone (net : Net) (id : ZoneId) :
    (net.tieZone id).registry.nodes = net.registry.nodes := by
  unfold tieZone
  split
  · rfl
  · exact Registry.nodes_joinAll _ _

@[simp]
theorem places_tieZone (net : Net) (id : ZoneId) :
    (net.tieZone id).registry.places = net.registry.places := by
  unfold tieZone
  split
  · rfl
  · exact Registry.places_joinAll _ _

theorem contribution?_tieZone (net : Net) (id : ZoneId) (l : ItemId) :
    (net.tieZone id).contribution? l = net.contribution? l := by
  unfold tieZone
  split <;> cases l <;> rfl

@[simp]
theorem nodes_untieZone (net : Net) (id : ZoneId) :
    (net.untieZone id).registry.nodes = net.registry.nodes := by
  unfold untieZone
  split
  · rfl
  · exact Registry.nodes_foldl_disconnect _ _

@[simp]
theorem places_untieZone (net : Net) (id : ZoneId) :
    (net.untieZone id).registry.places = net.registry.places := by
  unfold untieZone
  split
  · rfl
  · exact Registry.places_foldl_disconnect _ _

@[simp]
theorem zones_untieZone (net : Net) (id : ZoneId) : (net.untieZone id).zones = net.zones := by
  unfold untieZone
  split <;> rfl

theorem contribution?_untieZone (net : Net) (id : ZoneId) (l : ItemId) :
    (net.untieZone id).contribution? l = net.contribution? l := by
  unfold untieZone
  split <;> cases l <;> rfl

theorem Mirrors.tieZone (h : net.Mirrors items loose) (id : ZoneId) :
    (net.tieZone id).Mirrors items loose :=
  h.congr (nodes_tieZone net id) (places_tieZone net id) (contribution?_tieZone net id)

theorem Mirrors.untieZone (h : net.Mirrors items loose) (id : ZoneId) :
    (net.untieZone id).Mirrors items loose :=
  h.congr (nodes_untieZone net id) (places_untieZone net id) (contribution?_untieZone net id)

theorem Mirrors.tieZones (h : net.Mirrors items loose) : net.tieZones.Mirrors items loose := by
  have huntied : (net.zones.keys.foldl Net.untieZone net).Mirrors items loose :=
    List.foldlRecOn (motive := fun net : Net => net.Mirrors items loose) _ _ h
      fun _ h id _ => h.untieZone id
  exact List.foldlRecOn (motive := fun net : Net => net.Mirrors items loose) _ _ huntied
    fun _ h id _ => h.tieZone id

/-! ## Detaching -/

/-- Takes the contribution of an item out, and the connections it owns.  The nodes stay
held. -/
def detach (net : Net) : ItemId → Net
  | .pad id => { net with pads := net.pads.erase id }
  | .via id => { net with vias := net.vias.erase id }
  | .track id =>
    match net.tracks.get? id with
    | none => net
    | some link =>
      { net with
        tracks := net.tracks.erase id,
        registry := net.registry.disconnect link.connection }
  | .zone id => { net.untieZone id with zones := net.zones.erase id }

theorem remove_of_contribution?_eq_none (h : net.contribution? id = none) :
    net.remove id = net.detach id := by
  cases id with
  | pad id =>
    have hid : net.pads.get? id = none := by simpa [contribution?] using h
    simp [remove, removePad, detach, hid, Table.erase_of_get?_eq_none hid]
  | via id =>
    have hid : net.vias.get? id = none := by simpa [contribution?] using h
    simp [remove, removeVia, detach, hid, Table.erase_of_get?_eq_none hid]
  | track id =>
    have hid : net.tracks.get? id = none := by simpa [contribution?] using h
    simp [remove, removeTrack, detach, hid]
  | zone id =>
    have hid : net.zones.get? id = none := by simpa [contribution?] using h
    have hsame : (net.untieZone id).zones.erase id = (net.untieZone id).zones :=
      Table.erase_of_get?_eq_none (by simpa using hid)
    simp only [remove, removeZone, detach, zones_untieZone, hid]
    rw [zones_untieZone] at hsame
    rw [hsame, ← zones_untieZone net id]

theorem remove_of_contribution?_eq_some {c : Contribution} (h : net.contribution? id = some c) :
    net.remove id = { c.nodes.foldl release (net.detach id) with dirty := true } := by
  cases id with
  | pad id =>
    obtain ⟨n, hn, rfl⟩ := Option.map_eq_some_iff.1 h
    simp [remove, removePad, detach, hn, Contribution.nodes]
  | via id =>
    obtain ⟨n, hn, rfl⟩ := Option.map_eq_some_iff.1 h
    simp [remove, removeVia, detach, hn, Contribution.nodes]
  | track id =>
    obtain ⟨link, hlink, rfl⟩ := Option.map_eq_some_iff.1 h
    simp [remove, removeTrack, detach, hlink, Contribution.nodes]
  | zone id =>
    obtain ⟨gs, hgs, rfl⟩ := Option.map_eq_some_iff.1 h
    simp [remove, removeZone, detach, hgs, Contribution.nodes, List.foldl_map]

theorem nodes_detach (net : Net) (id : ItemId) :
    (net.detach id).registry.nodes = net.registry.nodes := by
  cases id with
  | pad id => rfl
  | via id => rfl
  | track id => simp only [detach]; split <;> rfl
  | zone id => exact nodes_untieZone net id

theorem places_detach (net : Net) (id : ItemId) :
    (net.detach id).registry.places = net.registry.places := by
  cases id with
  | pad id => rfl
  | via id => rfl
  | track id => simp only [detach]; split <;> rfl
  | zone id => exact places_untieZone net id

theorem contribution?_detach (net : Net) (id l : ItemId) :
    (net.detach id).contribution? l = if l = id then none else net.contribution? l := by
  cases id with
  | pad id =>
    cases l with
    | pad l => by_cases hl : l = id <;> simp [detach, contribution?, Table.get?_erase, hl]
    | _ => rfl
  | via id =>
    cases l with
    | via l => by_cases hl : l = id <;> simp [detach, contribution?, Table.get?_erase, hl]
    | _ => rfl
  | track id =>
    cases hid : net.tracks.get? id with
    | none =>
      simp only [detach, hid]
      split
      · rename_i hl
        simp [hl, contribution?, hid]
      · rfl
    | some link =>
      simp only [detach, hid]
      cases l with
      | track l => by_cases hl : l = id <;> simp [contribution?, Table.get?_erase, hl]
      | _ => rfl
  | zone id =>
    have hkeep := contribution?_untieZone net id l
    cases l with
    | zone l => by_cases hl : l = id <;> simp [detach, contribution?, Table.get?_erase, hl]
    | _ => exact hkeep

/-! ## Attaching -/

/-- Takes the contribution of an item up, on a net that has none of its name. -/
def attach (net : Net) : Item → Net
  | .pad pad =>
    let (n, registry) := net.registry.hold pad.position
    { net with registry, pads := net.pads.insert pad.id n, dirty := true }
  | .via via =>
    let (n, registry) := net.registry.hold via.position
    { net with registry, vias := net.vias.insert via.id n, dirty := true }
  | .track track =>
    let (start, registry) := net.registry.hold track.start
    let (finish, registry) := registry.hold track.finish
    match registry.connect start finish 0.0 with
    | .error _ => net
    | .ok (connection, registry) =>
      let link := { connection, start, finish }
      { net with registry, tracks := net.tracks.insert track.id link, dirty := true }
  | .zone zone =>
    let (polygons, registry) := Polygon.registerAll net.registry zone.id zone.outlines
    let net := { net with registry, zones := net.zones.insert zone.id polygons }
    { net.tieZone zone.id with dirty := true }

theorem add_eq (net : Net) (item : Item) : net.add item = (net.remove item.id).attach item := by
  cases item <;> rfl

theorem Mirrors.remove (h : net.Mirrors items []) (id : ItemId) :
    (net.remove id).Mirrors (items.erase id) [] := by
  cases hc : net.contribution? id with
  | none =>
    rw [remove_of_contribution?_eq_none hc, Table.erase_of_get?_eq_none (h.get?_eq_none hc)]
    refine h.congr (nodes_detach net id) (places_detach net id) fun l => ?_
    rw [contribution?_detach]
    split
    · rename_i hl
      rw [hl, hc]
    · rfl
  | some c =>
    rw [remove_of_contribution?_eq_some hc]
    obtain ⟨item, hitem, hfits⟩ := h.exists_item hc
    have hdrop := h.drop hitem (nodes_detach net id) (places_detach net id)
      (contribution?_detach net id)
    have hns : c.nodes.map (net.detach id).registry.position? = item.places.map some := by
      rw [← hfits.1]
      apply List.map_congr_left
      intro n _
      exact Registry.position?_congr (nodes_detach net id) n
    exact (hdrop.releaseAll hns).congr rfl rfl fun l => by cases l <;> rfl

end Net

/-! ### Registering the rings of a zone -/

namespace Polygon

/-- What registering outlines gives: a polygon for each ring, held at its first point, in
its own box. -/
structure Registered (r : Registry) (rings : List Outline) (gs : List Polygon) (r' : Registry) :
    Prop where
  nodes : gs.map (fun g => r'.position? g.node) = (rings.filterMap List.head?).map some
  outlines : gs.map outline = rings
  boxes : ∀ g ∈ gs, Box.ofPoints? g.outline = some g.box
  stays : ∀ n q, r.position? n = some q → r'.position? n = some q
  connections : r'.connections = r.connections

theorem registerAll_spec {r : Registry} {held : List Point} (h : r.Carries held) (zone : ZoneId)
    (outlines : List Outline) :
    let rings := outlines.filter fun outline => decide (2 ≤ outline.length)
    (registerAll r zone outlines).2.Carries (rings.filterMap List.head? ++ held) ∧
      Registered r rings (registerAll r zone outlines).1 (registerAll r zone outlines).2 := by
  induction outlines generalizing r held with
  | nil => exact ⟨h, ⟨rfl, rfl, by simp [registerAll], fun _ _ hn => hn, rfl⟩⟩
  | cons outline rest ih =>
    match outline with
    | [] => exact ih h
    | [_] => exact ih h
    | first :: second :: tail =>
      let box := List.foldl Box.cover (Box.ofPoint first) (second :: tail)
      have hring : registerAll r zone ((first :: second :: tail) :: rest) =
          ({ outline := first :: second :: tail, zone, box, node := (r.hold first).1 } ::
              (registerAll (r.hold first).2 zone rest).1,
            (registerAll (r.hold first).2 zone rest).2) := rfl
      obtain ⟨hcarries, hrest⟩ := ih (h.hold first)
      have hlong : 2 ≤ (first :: second :: tail).length := by simp
      have hfirst := hrest.stays _ _ (h.position?_hold_fst first)
      simp only [List.filter_cons, hlong, decide_true, if_true, List.filterMap_cons,
        List.head?_cons] at hcarries ⊢
      rw [hring]
      refine ⟨hcarries.perm List.perm_middle, ⟨?_, ?_, ?_, ?_, ?_⟩⟩
      · rw [List.map_cons, hfirst, hrest.nodes]
        rfl
      · simp only [List.map_cons, hrest.outlines]
      · intro g hg
        rw [List.mem_cons] at hg
        rcases hg with hg | hg
        · rw [hg]
          rfl
        · exact hrest.boxes g hg
      · intro n q hn
        exact hrest.stays n q (h.position?_hold_of_some first hn)
      · rw [hrest.connections, Registry.connections_hold]

/-- Registering a zone is holding its places, one after another. -/
theorem snd_registerAll (r : Registry) (zone : Zone) :
    (registerAll r zone.id zone.outlines).2 = r.run ((Item.zone zone).places.map .hold) := by
  obtain ⟨id, net, outlines⟩ := zone
  simp only [Item.places, Zone.rings]
  induction outlines generalizing r with
  | nil => rfl
  | cons outline rest ih =>
    match outline with
    | [] => exact ih r
    | [_] => exact ih r
    | first :: _ :: _ => exact ih (r.hold first).2

end Polygon

namespace Net

variable {net : Net} {items : Table ItemId Item} {item : Item}

/-- What is kept of a track: a new connection between the nodes at its ends. -/
def laidLink (net : Net) (track : Track) : TrackLink :=
  let both := net.registry.holdBoth track.start track.finish
  { connection := (both.2.connections.insert (.copper both.1)).1,
    start := both.1.1, finish := both.1.2 }

/-- Both ends of a track are live when they are joined, so a track is never refused. -/
theorem attach_track {held : List Point} (h : net.registry.Carries held) (track : Track) :
    let both := net.registry.holdBoth track.start track.finish
    net.attach (.track track) =
      { net with
        registry := { both.2 with
          connections := (both.2.connections.insert (.copper both.1)).2 },
        tracks := net.tracks.insert track.id (net.laidLink track),
        dirty := true } := by
  have hboth := h.holdBoth track.start track.finish
  have hconnect := Registry.connect_of_live
    (Registry.live_iff_position?.2 ⟨_, hboth.fst⟩) (Registry.live_iff_position?.2 ⟨_, hboth.snd⟩)
  simp only [Net.attach, laidLink]
  simp only [Registry.holdBoth] at hconnect ⊢
  rw [hconnect]

/-- A net with the polygons of a zone, before these are tied. -/
def placed (net : Net) (zone : Zone) : Net :=
  let out := Polygon.registerAll net.registry zone.id zone.outlines
  { net with registry := out.2, zones := net.zones.insert zone.id out.1 }

theorem attach_zone (net : Net) (zone : Zone) :
    net.attach (.zone zone) = { (net.placed zone).tieZone zone.id with dirty := true } := rfl

/-- Of the registry, the nodes change as the places of the item are held. -/
theorem nodes_attach {held : List Point} (h : net.registry.Carries held) (item : Item) :
    (net.attach item).registry.nodes =
      (net.registry.run (item.places.map .hold)).nodes := by
  cases item with
  | pad pad => rfl
  | via via => rfl
  | track track =>
    rw [attach_track h]
    rfl
  | zone zone =>
    refine (nodes_tieZone (net.placed zone) zone.id).trans ?_
    exact congrArg Registry.nodes (Polygon.snd_registerAll net.registry zone)

theorem Mirrors.placed {zone : Zone} (h : net.Mirrors items [])
    (hid : items.get? (.zone zone.id) = none) :
    (net.placed zone).Mirrors (items.insert (.zone zone.id) (.zone zone)) [] := by
  obtain ⟨hcarries, hspec⟩ := Polygon.registerAll_spec h.carries zone.id zone.outlines
  let out := Polygon.registerAll net.registry zone.id zone.outlines
  refine h.put (c := .polygons out.1) hid hcarries (fun l => ?_)
    ⟨?_, hspec.outlines, hspec.boxes⟩ hspec.stays
  · cases l with
    | zone l =>
      by_cases hl : l = zone.id <;>
        simp [Net.placed, contribution?, Table.get?_insert, hl, out]
    | _ => rfl
  · exact List.map_map.trans hspec.nodes

theorem Mirrors.attach (h : net.Mirrors items []) (hid : items.get? item.id = none) :
    (net.attach item).Mirrors (items.insert item.id item) [] := by
  cases item with
  | pad pad =>
    refine h.put (c := .node (net.registry.hold pad.position).1) hid
      (h.carries.hold pad.position) (fun l => ?_) ⟨?_, trivial⟩ fun n q hn => ?_
    · cases l with
      | pad l =>
        by_cases hl : l = pad.id <;>
          simp [Net.attach, contribution?, Table.get?_insert, hl, Item.id]
      | _ => rfl
    · exact congrArg (fun x => [x]) (h.carries.position?_hold_fst pad.position)
    · exact h.carries.position?_hold_of_some pad.position hn
  | via via =>
    refine h.put (c := .node (net.registry.hold via.position).1) hid
      (h.carries.hold via.position) (fun l => ?_) ⟨?_, trivial⟩ fun n q hn => ?_
    · cases l with
      | via l =>
        by_cases hl : l = via.id <;>
          simp [Net.attach, contribution?, Table.get?_insert, hl, Item.id]
      | _ => rfl
    · exact congrArg (fun x => [x]) (h.carries.position?_hold_fst via.position)
    · exact h.carries.position?_hold_of_some via.position hn
  | track track =>
    have hboth := h.carries.holdBoth track.start track.finish
    rw [attach_track h.carries]
    refine h.put (c := .link (net.laidLink track)) hid (hboth.carries.congr rfl rfl)
      (fun l => ?_) ⟨?_, trivial⟩ hboth.stays
    · cases l with
      | track l =>
        by_cases hl : l = track.id <;> simp [contribution?, Table.get?_insert, hl, Item.id]
      | _ => rfl
    · show [_, _] = [some track.start, some track.finish]
      rw [← hboth.fst, ← hboth.snd]
      rfl
  | zone zone => exact (h.placed hid).tieZone zone.id |>.congr rfl rfl fun l => by cases l <;> rfl

/-- Adding an item replaces what was tracked under its name. -/
theorem Mirrors.add (h : net.Mirrors items []) (item : Item) :
    (net.add item).Mirrors (items.insert item.id item) [] := by
  rw [add_eq, ← Table.insert_erase items item.id item]
  exact (h.remove item.id).attach (Table.get?_erase_self items item.id)

end Net
end Unrouted
