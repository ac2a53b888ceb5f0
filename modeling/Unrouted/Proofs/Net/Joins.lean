import Unrouted.Proofs.Net.Nodes

/-!
The connections of a clean net are those that its tracked items call for: one along each
track, and one from each node inside a ring of a zone to the node that stands for the ring.
-/

namespace Unrouted

/-- The even-odd rule for points in the ring's own box; the others are outside. -/
def Outline.holds (ring : Outline) (p : Point) : Bool :=
  (Box.ofPoints? ring).any (·.contains p) && ring.encloses p

/-- The places inside a ring, each with the place that the ring stands for itself by.  That
place is not joined to itself. -/
def Outline.joins (places : List Point) (ring : Outline) : List (Point × Point) :=
  ring.head?.toList.flatMap fun first =>
    (places.filter fun p => decide (p ≠ first) && ring.holds p).map (·, first)

/-- The places that the copper of an item joins, among the places in use. -/
def Item.joins (places : List Point) : Item → List (Point × Point)
  | pad _ => []
  | via _ => []
  | track t => [(t.start, t.finish)]
  | zone z => z.rings.flatMap (Outline.joins places)

namespace Net

variable {net : Net} {items : Table ItemId Item} {loose : List Point}

/-- A connection as the places of its ends and its weight. -/
def placed? (net : Net) (v : Connection) : Option Point × Option Point × Float :=
  (net.registry.position? v.source, net.registry.position? v.target, v.weight)

/-- Copper between two places. -/
def copperAt (s : Point × Point) : Option Point × Option Point × Float :=
  (some s.1, some s.2, 0.0)

/-! ## By kinds of items -/

/-- The names of the tracked items are those of the four tables. -/
theorem Mirrors.keys_perm (h : net.Mirrors items loose) :
    items.keys.Perm (net.pads.keys.map ItemId.pad ++ (net.vias.keys.map ItemId.via ++
      (net.tracks.keys.map ItemId.track ++ net.zones.keys.map ItemId.zone))) := by
  have hpads : net.pads.keys.Nodup := net.pads.nodup_keys
  have hvias : net.vias.keys.Nodup := net.vias.nodup_keys
  have htracks : net.tracks.keys.Nodup := net.tracks.nodup_keys
  have hzones : net.zones.keys.Nodup := net.zones.nodup_keys
  have hitems : items.keys.Nodup := items.nodup_keys
  rw [List.perm_ext_iff_of_nodup hitems]
  · intro id
    have htracked := h.tracked id
    rw [← Table.isSome_get?_iff, ← htracked]
    cases id <;> simp [contribution?, ← Table.isSome_get?_iff]
  · simp only [List.nodup_append, List.mem_append, List.mem_map]
    refine ⟨hpads.map fun _ _ e => ItemId.pad.inj e, ⟨hvias.map fun _ _ e => ItemId.via.inj e,
      ⟨htracks.map fun _ _ e => ItemId.track.inj e, hzones.map fun _ _ e => ItemId.zone.inj e,
        ?_⟩, ?_⟩, ?_⟩ <;> grind

/-- What tracks and zones give, collected over all items.  Pads and vias give nothing. -/
theorem Mirrors.flatMap_values_perm {β : Type} {f : Item → List β} {g : TrackLink → List β}
    {k : List Polygon → List β} (h : net.Mirrors items loose)
    (hpad : ∀ p, f (.pad p) = []) (hvia : ∀ v, f (.via v) = [])
    (htrack : ∀ link t, (Contribution.link link).Fits net.registry (.track t) →
      f (.track t) = g link)
    (hzone : ∀ gs z, (Contribution.polygons gs).Fits net.registry (.zone z) →
      f (.zone z) = k gs) :
    (items.values.flatMap f).Perm (net.tracks.values.flatMap g ++ net.zones.values.flatMap k) := by
  rw [Table.values_flatMap items, Table.values_flatMap net.tracks, Table.values_flatMap net.zones]
  refine (h.keys_perm.flatMap_right _).trans (List.Perm.of_eq ?_)
  simp only [List.flatMap_append, List.flatMap_map]
  have hnode (id : ItemId) (hid : ∀ c, net.contribution? id = some c → ∃ n, c = .node n) :
      ((items.get? id).map f).getD [] = [] := by
    cases hitem : items.get? id with
    | none => rfl
    | some item =>
      obtain ⟨c, hc, hfits⟩ := h.exists_contribution hitem
      obtain ⟨n, rfl⟩ := hid c hc
      rcases hfits.of_node with hp | hv
      · obtain ⟨p, rfl⟩ := hp
        exact hpad p
      · obtain ⟨v, rfl⟩ := hv
        exact hvia v
  have hpads : (net.pads.keys.flatMap fun id => ((items.get? (.pad id)).map f).getD []) = [] := by
    rw [List.flatMap_eq_nil_iff]
    intro id _
    refine hnode (.pad id) fun c hc => ?_
    obtain ⟨n, -, hn⟩ := Option.map_eq_some_iff.1 hc
    exact ⟨n, hn.symm⟩
  have hvias : (net.vias.keys.flatMap fun id => ((items.get? (.via id)).map f).getD []) = [] := by
    rw [List.flatMap_eq_nil_iff]
    intro id _
    refine hnode (.via id) fun c hc => ?_
    obtain ⟨n, -, hn⟩ := Option.map_eq_some_iff.1 hc
    exact ⟨n, hn.symm⟩
  rw [hpads, hvias, List.nil_append, List.nil_append]
  congr 1
  · apply List.flatMap_congr
    intro id hid
    obtain ⟨link, hlink⟩ := Table.mem_keys.1 hid
    have hc : net.contribution? (.track id) = some (.link link) := by simp [contribution?, hlink]
    obtain ⟨item, hitem, hfits⟩ := h.exists_item hc
    obtain ⟨t, rfl⟩ := hfits.of_link
    rw [hitem, hlink]
    exact htrack link t hfits
  · apply List.flatMap_congr
    intro id hid
    obtain ⟨gs, hgs⟩ := Table.mem_keys.1 hid
    have hc : net.contribution? (.zone id) = some (.polygons gs) := by simp [contribution?, hgs]
    obtain ⟨item, hitem, hfits⟩ := h.exists_item hc
    obtain ⟨z, rfl⟩ := hfits.of_polygons
    rw [hitem, hgs]
    exact hzone gs z hfits

/-! ## The contacts of a zone as places -/

theorem map_some_heads (rings : List Outline) (h : ∀ ring ∈ rings, ring ≠ []) :
    (rings.filterMap List.head?).map some = rings.map List.head? := by
  induction rings with
  | nil => rfl
  | cons ring rest ih =>
    have hrest := ih fun l hl => h l (List.mem_cons_of_mem _ hl)
    have hring : ring ≠ [] := h ring List.mem_cons_self
    rw [List.filterMap_cons_some (List.head?_eq_some_head hring), List.map_cons, List.map_cons,
      hrest, List.head?_eq_some_head hring]

/-- Each polygon's node is at the first point of its ring. -/
theorem position?_node_of_fits {r : Registry} {gs : List Polygon} {z : Zone}
    (hfits : (Contribution.polygons gs).Fits r (.zone z)) :
    ∀ g ∈ gs, r.position? g.node = g.outline.head? := by
  have hnodes : (gs.map Polygon.node).map r.position? = (z.rings.filterMap List.head?).map some :=
    hfits.1
  have hheads := map_some_heads z.rings fun ring hring e => by
    have hlong := (List.mem_filter.1 hring).2
    rw [e] at hlong
    exact absurd hlong (by simp)
  rw [hheads, ← hfits.2.1, List.map_map, List.map_map] at hnodes
  intro g hg
  exact List.map_inj_left.1 hnodes g hg

theorem contacts_map {held : List Point} (h : net.registry.Carries held) {g : Polygon}
    (hnode : net.registry.position? g.node = g.outline.head?)
    (hbox : Box.ofPoints? g.outline = some g.box) :
    (g.contacts net.registry).map (fun n => net.placed? (.copper (n, g.node))) =
      (g.outline.joins net.livePoints.toList).map copperAt := by
  obtain ⟨first, hfirst⟩ : ∃ first, g.outline.head? = some first := by
    cases hout : g.outline with
    | nil =>
      rw [hout] at hbox
      exact absurd hbox (by simp [Box.ofPoints?])
    | cons first rest => exact ⟨first, rfl⟩
  have hholds (p : Point) : g.outline.holds p = g.contains p := by
    rw [Outline.holds, hbox]
    rfl
  rw [hfirst] at hnode
  rw [Outline.joins, hfirst, Option.toList_some, List.flatMap_singleton, toList_livePoints,
    List.filter_map, List.map_map, List.map_map, Polygon.contacts, Arena.handles, List.filter_map,
    List.map_map]
  have hsame : ∀ e ∈ net.registry.nodes.entries,
      (decide (e.1 ≠ g.node) && g.containsNode net.registry e.1) =
        (decide (e.2.position ≠ first) && g.outline.holds e.2.position) := by
    intro e he
    have hpos := Registry.position?_eq_some.2 ⟨e.2, Arena.mem_entries.1 he, rfl⟩
    have hne : e.1 ≠ g.node ↔ e.2.position ≠ first := by
      rw [not_iff_not]
      constructor
      · intro e'
        rw [e', hnode] at hpos
        exact (Option.some.inj hpos).symm
      · intro e'
        exact h.eq_of_position? (e' ▸ hpos) hnode
    rw [Polygon.containsNode_eq, hpos, hholds]
    simp [hne]
  have hfilter := List.filter_congr hsame
  simp only [Function.comp_def] at hfilter ⊢
  rw [hfilter]
  apply List.map_congr_left
  intro e he
  have hpos := Registry.position?_eq_some.2
    ⟨e.2, Arena.mem_entries.1 (List.mem_filter.1 he).1, rfl⟩
  simp only [placed?, Connection.copper, copperAt, hpos, hnode]

theorem contactPairs_map {held : List Point} (h : net.registry.Carries held) {gs : List Polygon}
    {z : Zone} (hfits : (Contribution.polygons gs).Fits net.registry (.zone z)) :
    (Polygon.contactPairs net.registry gs).map (fun s => net.placed? (.copper s)) =
      ((Item.zone z).joins net.livePoints.toList).map copperAt := by
  have hnodes := position?_node_of_fits hfits
  rw [Polygon.contactPairs, List.map_flatMap, Item.joins, List.map_flatMap, ← hfits.2.1,
    List.flatMap_map]
  apply List.flatMap_congr
  intro g hg
  rw [List.map_map]
  exact contacts_map h (hnodes g hg) (hfits.2.2 g hg)

/-! ## The connections of a tied net -/

theorem Sound.connections_perm (h : net.Sound items) (htied : ∀ id, net.Tied id) :
    (net.registry.connections.entries.map fun e => net.placed? e.2).Perm
      ((items.values.flatMap (Item.joins net.livePoints.toList)).map copperAt) := by
  have hcopper := (h.wired.copper_perm h.matched htied).map net.placed?
  rw [List.map_map, List.map_append, List.map_flatMap, List.map_map] at hcopper
  have hitems : ((items.values.flatMap (Item.joins net.livePoints.toList)).map copperAt).Perm
      ((net.tracks.values.flatMap fun link =>
          [net.placed? (.copper (link.start, link.finish))]) ++
        net.zones.values.flatMap fun gs =>
          ((Polygon.contactPairs net.registry gs).map Connection.copper).map net.placed?) := by
    rw [List.map_flatMap]
    refine h.mirrors.flatMap_values_perm (fun _ => rfl) (fun _ => rfl) (fun link t hfits => ?_)
      fun gs z hfits => ?_
    · have hends := hfits.1
      simp only [Contribution.nodes, Item.places, List.map_cons, List.map_nil, List.cons.injEq]
        at hends
      simp only [Item.joins, List.map_cons, List.map_nil, copperAt, placed?, Connection.copper,
        hends.1, hends.2.1]
    · rw [← contactPairs_map h.mirrors.carries hfits, List.map_map]
      rfl
  rw [← List.map_eq_flatMap] at hitems
  exact hcopper.trans hitems.symm

/-- When a net is clean after a history, its connections are one of weight zero along each
tracked track, and for each ring of a tracked zone one of weight zero to the place of the
ring from each other place in use that the ring holds. -/
theorem connections_of_clean (strategy : Strategy) (history : List Operation)
    (h : (run (empty strategy) history).dirty = false) :
    let net := run (empty strategy) history
    net.livePoints.toList.Nodup ∧
      (net.registry.connections.entries.map fun e => net.placed? e.2).Perm
        (((tracked history).values.flatMap (Item.joins net.livePoints.toList)).map copperAt) := by
  have hsound := sound_run strategy history
  have htied : ∀ id, (run (empty strategy) history).Tied id :=
    clean_run (P := fun net => ∀ id, net.Tied id) (fun _ _ hnet hdirty => hnet.tied_update hdirty)
      (fun _ _ hmarks hnet id => (hnet id).remarked hmarks) strategy history h
  exact ⟨nodup_livePoints hsound.mirrors.carries, hsound.connections_perm htied⟩

/-- A pad that came after the zone around it, with a track that leaves the zone. -/
def padInZone : List Operation :=
  [.add (.zone { id := 1, net := 1, outlines := [[⟨0, 0⟩, ⟨4, 0⟩, ⟨4, 4⟩, ⟨0, 4⟩]] }),
    .add (.pad { id := 1, net := 1, position := ⟨2, 2⟩ }),
    .add (.track { id := 1, net := 1, start := ⟨2, 2⟩, finish := ⟨9, 9⟩ }), .update]

theorem connections_of_padInZone :
    let net := run (empty .everyPair) padInZone
    net.dirty = false ∧ (net.registry.connections.entries.map fun e => net.placed? e.2).Perm
      ([(⟨2, 2⟩, ⟨0, 0⟩), (⟨2, 2⟩, ⟨9, 9⟩)].map copperAt) := by
  have hclean : (run (empty .everyPair) padInZone).dirty = false := by decide +kernel
  have hjoins : (tracked padInZone).values.flatMap
      (Item.joins (run (empty .everyPair) padInZone).livePoints.toList) =
        [(⟨2, 2⟩, ⟨0, 0⟩), (⟨2, 2⟩, ⟨9, 9⟩)] := by decide +kernel
  have hperm := (connections_of_clean .everyPair padInZone hclean).2
  simp only [hjoins] at hperm
  exact ⟨hclean, hperm⟩

end Net
end Unrouted
