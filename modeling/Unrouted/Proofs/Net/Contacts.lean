import Unrouted.Proofs.Geometry.HitTest
import Unrouted.Proofs.Net.Joins

/-!
Tying a zone through a search for the nodes in the box of each polygon.  Neither the search nor
the test for the box has a say in which nodes are tied: the even-odd rule over all live nodes
gives the same ones.
-/

namespace Unrouted

namespace Registry

/-- The live nodes in a box, in the order of their slots. -/
def scan (r : Registry) (box : Box) : List NodeId :=
  r.nodes.handles.filter fun n => (r.position? n).any box.contains

/-- The search finds the live nodes in a box, each one once.  Their order is open. -/
def Searches (r : Registry) (search : Box → List NodeId) : Prop :=
  ∀ box, (search box).Perm (r.scan box)

theorem searches_scan (r : Registry) : r.Searches r.scan := fun _ => List.Perm.refl _

end Registry

namespace Polygon

variable {g : Polygon} {gs : List Polygon} {r : Registry} {search : Box → List NodeId}

/-- The nodes to be tied to the polygon's own node, among those that a search finds. -/
def foundContacts (g : Polygon) (r : Registry) (search : Box → List NodeId) : List NodeId :=
  (search g.box).filter fun n => decide (n ≠ g.node) && g.containsNode r n

def foundPairs (r : Registry) (search : Box → List NodeId) (gs : List Polygon) :
    List (NodeId × NodeId) :=
  gs.flatMap fun g => (g.foundContacts r search).map (·, g.node)

/-- The live nodes that the even-odd rule alone takes, without the polygon's own node. -/
def enclosedNodes (g : Polygon) (r : Registry) : List NodeId :=
  r.nodes.handles.filter fun n => decide (n ≠ g.node) && (r.position? n).any g.outline.encloses

def enclosedPairs (r : Registry) (gs : List Polygon) : List (NodeId × NodeId) :=
  gs.flatMap fun g => (g.enclosedNodes r).map (·, g.node)

/-- A node inside the polygon is in its box. -/
theorem foundContacts_scan (g : Polygon) (r : Registry) :
    g.foundContacts r r.scan = g.contacts r := by
  rw [foundContacts, Registry.scan, List.filter_filter, contacts]
  apply List.filter_congr
  intro n _
  rw [containsNode_eq]
  cases r.position? n with
  | none => simp
  | some p => cases hbox : g.box.contains p <;> simp [contains, hbox]

theorem foundContacts_perm (hsearch : r.Searches search) (g : Polygon) :
    (g.foundContacts r search).Perm (g.contacts r) := by
  rw [← foundContacts_scan]
  exact (hsearch g.box).filter _

theorem contacts_eq_enclosedNodes (hbox : Box.ofPoints? g.outline = some g.box) (r : Registry) :
    g.contacts r = g.enclosedNodes r := by
  have hcontains (p : Point) : g.contains p = g.outline.encloses p := by
    rw [contains]
    cases hp : g.box.contains p with
    | true => rw [Bool.true_and]
    | false => rw [Outline.encloses_of_outside hbox hp, Bool.and_false]
  rw [contacts, enclosedNodes]
  apply List.filter_congr
  intro n _
  rw [containsNode_eq, funext hcontains]

theorem foundContacts_perm_enclosedNodes (hsearch : r.Searches search)
    (hbox : Box.ofPoints? g.outline = some g.box) :
    (g.foundContacts r search).Perm (g.enclosedNodes r) := by
  rw [← contacts_eq_enclosedNodes hbox]
  exact foundContacts_perm hsearch g

theorem foundPairs_perm (hsearch : r.Searches search)
    (hboxes : ∀ g ∈ gs, Box.ofPoints? g.outline = some g.box) :
    (foundPairs r search gs).Perm (enclosedPairs r gs) :=
  List.Perm.flatMap_left gs fun g hg =>
    (foundContacts_perm_enclosedNodes hsearch (hboxes g hg)).map _

theorem foundPairs_scan (r : Registry) (gs : List Polygon) :
    foundPairs r r.scan gs = contactPairs r gs := by
  simp only [foundPairs, foundContacts_scan, contactPairs]

end Polygon

namespace Net

variable {net : Net} {items : Table ItemId Item} {id : ZoneId} {gs : List Polygon}
  {search : Box → List NodeId}

/-- Ties the nodes that a search finds inside a zone's polygons to the nodes of these. -/
def tieZoneBy (net : Net) (search : Box → List NodeId) (id : ZoneId) : Net :=
  match net.zones.get? id with
  | none => net
  | some gs => net.tieAlong id (Polygon.foundPairs net.registry search gs)

theorem tieZoneBy_scan (net : Net) (id : ZoneId) :
    net.tieZoneBy net.registry.scan id = net.tieZone id := by
  cases hid : net.zones.get? id with
  | none => rw [tieZone_of_get?_eq_none hid, tieZoneBy, hid]
  | some gs =>
    rw [tieZone_of_get?_eq_some hid]
    simp only [tieZoneBy, hid, Polygon.foundPairs_scan]
    rfl

/-- A net whose zones may be in the course of being tied: after a history, after the polygons of
a zone were placed, or after ties of a zone were cut or made by some search. -/
inductive Tying : Net → Prop
  | run (strategy : Strategy) (history : List Operation) :
      Tying (Net.run (.empty strategy) history)
  | place {net : Net} (h : net.Tying) (zone : Zone) :
      Tying ((net.remove (.zone zone.id)).placed zone)
  | untie {net : Net} (h : net.Tying) (id : ZoneId) : Tying (net.untieZone id)
  | tie {net : Net} {search : Box → List NodeId} (h : net.Tying)
      (hsearch : net.registry.Searches search) (id : ZoneId) : Tying (net.tieZoneBy search id)

theorem Mirrors.boxes (h : net.Mirrors items []) (hid : net.zones.get? id = some gs) :
    ∀ g ∈ gs, Box.ofPoints? g.outline = some g.box := by
  have hc : net.contribution? (.zone id) = some (.polygons gs) := by simp [contribution?, hid]
  obtain ⟨item, -, hfits⟩ := h.exists_item hc
  obtain ⟨z, rfl⟩ := hfits.of_polygons
  exact hfits.2.2

theorem Mirrors.live_of_mem_foundPairs (h : net.Mirrors items [])
    (hsearch : net.registry.Searches search) (hid : net.zones.get? id = some gs) :
    ∀ s ∈ Polygon.foundPairs net.registry search gs,
      net.registry.nodes.live s.1 = true ∧ net.registry.nodes.live s.2 = true := by
  intro s hs
  obtain ⟨g, hg, hs⟩ := List.mem_flatMap.1 hs
  obtain ⟨n, hn, rfl⟩ := List.mem_map.1 hs
  have hn := (hsearch g.box).mem_iff.1 (List.mem_filter.1 hn).1
  exact ⟨Arena.mem_handles.1 (List.mem_filter.1 hn).1, h.grounded id gs hid g hg⟩

theorem Mirrors.tieZoneBy (h : net.Mirrors items []) (search : Box → List NodeId) (id : ZoneId) :
    (net.tieZoneBy search id).Mirrors items [] := by
  unfold Net.tieZoneBy
  split
  · exact h
  · exact h.congr (Registry.nodes_joinAll _ _) (Registry.places_joinAll _ _)
      fun l => by cases l <;> rfl

theorem Wired.tieZoneBy (h : net.Wired) (hmirrors : net.Mirrors items [])
    (hsearch : net.registry.Searches search) (id : ZoneId) : (net.tieZoneBy search id).Wired := by
  cases hid : net.zones.get? id with
  | none => simpa only [Net.tieZoneBy, hid] using h
  | some gs =>
    simp only [Net.tieZoneBy, hid]
    exact h.tieAlong (hmirrors.live_of_mem_foundPairs hsearch hid) id

/-- Amid tying, the nodes and the owners of connections are what they are between operations. -/
theorem Tying.mirrors_wired (h : net.Tying) : ∃ items, net.Mirrors items [] ∧ net.Wired := by
  induction h with
  | run strategy history =>
    have hsound := sound_run strategy history
    exact ⟨_, hsound.mirrors, hsound.wired⟩
  | place _ zone ih =>
    obtain ⟨items, hmirrors, hwired⟩ := ih
    have hremoved := hmirrors.remove (.zone zone.id)
    exact ⟨_, hremoved.placed (Table.get?_erase_self items _),
      (hwired.remove _).placed hremoved.carries zone⟩
  | untie _ id ih =>
    obtain ⟨items, hmirrors, hwired⟩ := ih
    exact ⟨items, hmirrors.untieZone id, hwired.untieZone id⟩
  | tie _ hsearch id ih =>
    obtain ⟨items, hmirrors, hwired⟩ := ih
    exact ⟨items, hmirrors.tieZoneBy _ id, hwired.tieZoneBy hmirrors hsearch id⟩

/-- The even-odd rule takes no point outside the box of the outline.  So whenever a zone is
tied, by the scan over all nodes or by any other search, its new ties are copper to the node of
each of its polygons from the other live nodes that the even-odd rule alone takes. -/
theorem tied_by_search :
    (∀ (outline : Outline) (box : Box) (p : Point), Box.ofPoints? outline = some box →
      box.contains p = false → outline.encloses p = false) ∧
    ∀ (net : Net) (id : ZoneId), net.Tying →
      net.tieZone id = net.tieZoneBy net.registry.scan id ∧
      net.registry.Searches net.registry.scan ∧
      ∀ (search : Box → List NodeId) (gs : List Polygon),
        net.registry.Searches search → net.zones.get? id = some gs →
        (∀ g ∈ gs, (g.foundContacts net.registry search).Perm (g.enclosedNodes net.registry)) ∧
        ∃ cs, (net.tieZoneBy search id).ties.get? id =
            some ((net.ties.get? id).getD [] ++ cs) ∧
          (cs.map (net.tieZoneBy search id).registry.connection?).Perm
            ((Polygon.enclosedPairs net.registry gs).map fun s => some (.copper s)) := by
  refine ⟨fun outline box p hbox hp => Outline.encloses_of_outside hbox hp, fun net id h => ?_⟩
  refine ⟨(tieZoneBy_scan net id).symm, Registry.searches_scan _, fun search gs hsearch hid => ?_⟩
  obtain ⟨items, hmirrors, hwired⟩ := h.mirrors_wired
  have hboxes := hmirrors.boxes hid
  have hjoined := Registry.joinAll_spec hwired.owned (hmirrors.live_of_mem_foundPairs hsearch hid)
  refine ⟨fun g hg => Polygon.foundContacts_perm_enclosedNodes hsearch (hboxes g hg),
    (joinAll net.registry (Polygon.foundPairs net.registry search gs)).1, ?_, ?_⟩
  · simp only [Net.tieZoneBy, hid]
    exact Table.get?_insert_self _ _ _
  · simp only [Net.tieZoneBy, hid]
    refine (List.Perm.of_eq hjoined.made).trans ?_
    exact (Polygon.foundPairs_perm hsearch hboxes).map _

/-- A search from the last slot to the first finds the pad inside the zone, and not the end of
the track outside. -/
theorem tied_by_search_padInZone :
    let net := (run (empty .everyPair) padInZone).untieZone 1
    let search (box : Box) := (net.registry.scan box).reverse
    let square : Outline := [⟨0, 0⟩, ⟨4, 0⟩, ⟨4, 4⟩, ⟨0, 4⟩]
    square.encloses ⟨9, 9⟩ = false ∧
      ∃ cs, (net.tieZoneBy search 1).ties.get? 1 = some cs ∧
        (cs.map (net.tieZoneBy search 1).registry.connection?).Perm
          [some (.copper (⟨1, 0⟩, ⟨0, 0⟩))] := by
  intro net search square
  have htying : net.Tying := .untie (.run .everyPair padInZone) 1
  have hsearch : net.registry.Searches search := fun box => List.reverse_perm _
  have hzone : net.zones.get? 1 =
      some [{ outline := square, zone := 1, box := ⟨⟨0, 0⟩, ⟨4, 4⟩⟩, node := ⟨0, 0⟩ }] := by
    decide +kernel
  have huntied : (net.ties.get? 1).getD [] = [] := by decide +kernel
  have hpairs : (Polygon.enclosedPairs net.registry
      [{ outline := square, zone := 1, box := ⟨⟨0, 0⟩, ⟨4, 4⟩⟩, node := ⟨0, 0⟩ }]) =
        [(⟨1, 0⟩, ⟨0, 0⟩)] := by decide +kernel
  obtain ⟨hbox, hties⟩ := tied_by_search
  obtain ⟨-, cs, hcs, hmade⟩ := (hties net 1 htying).2.2 search _ hsearch hzone
  rw [huntied, List.nil_append] at hcs
  rw [hpairs] at hmade
  exact ⟨hbox square ⟨⟨0, 0⟩, ⟨4, 4⟩⟩ ⟨9, 9⟩ (by decide) (by decide), cs, hcs, hmade⟩

end Net
end Unrouted
