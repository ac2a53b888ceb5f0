import Unrouted.Net.Update
import Unrouted.Proofs.Registry
import Unrouted.Proofs.Table

/-!
What the items of a net contribute to its registry.  A net mirrors a table of items when
its registry carries exactly the places of these and each item's nodes are at its places.
An operation that gives up an item leaves its places loose, and the releases that follow
take these out one by one.
-/

namespace Unrouted

/-- The outlines of a zone that make a polygon. -/
def Zone.rings (z : Zone) : List Outline :=
  z.outlines.filter fun outline => decide (2 ≤ outline.length)

/-- The points an item holds, with repeats: a track holds both of its ends, a zone the
first point of each of its rings. -/
def Item.places : Item → List Point
  | pad p => [p.position]
  | via v => [v.position]
  | track t => [t.start, t.finish]
  | zone z => z.rings.filterMap List.head?

/-- What a net keeps of an item. -/
inductive Contribution where
  | node (n : NodeId)
  | link (l : TrackLink)
  | polygons (gs : List Polygon)

namespace Contribution

def nodes : Contribution → List NodeId
  | node n => [n]
  | link l => [l.start, l.finish]
  | polygons gs => gs.map Polygon.node

/-- The contribution is of the item's kind, and the polygons of a zone are its rings, each
in its own box. -/
def Shapes : Contribution → Item → Prop
  | node _, .pad _ => True
  | node _, .via _ => True
  | link _, .track _ => True
  | polygons gs, .zone z =>
    gs.map Polygon.outline = z.rings ∧ ∀ g ∈ gs, Box.ofPoints? g.outline = some g.box
  | _, _ => False

/-- The contribution is the one of the item, with its nodes live at the item's places. -/
def Fits (r : Registry) (c : Contribution) (item : Item) : Prop :=
  c.nodes.map r.position? = item.places.map some ∧ c.Shapes item

theorem Fits.of_stays {r r' : Registry} {c : Contribution} {item : Item} (h : c.Fits r item)
    (hstays : ∀ n q, q ∈ item.places → r.position? n = some q → r'.position? n = some q) :
    c.Fits r' item := by
  refine ⟨?_, h.2⟩
  rw [← h.1]
  apply List.map_congr_left
  intro n hn
  have hmem : r.position? n ∈ item.places.map some := by
    rw [← h.1]
    exact List.mem_map_of_mem hn
  obtain ⟨q, hq, hpos⟩ := List.mem_map.1 hmem
  rw [← hpos, hstays n q hq hpos.symm]

theorem Fits.of_node {r : Registry} {n : NodeId} {item : Item} (h : (node n).Fits r item) :
    (∃ p, item = .pad p) ∨ ∃ v, item = .via v := by
  cases item with
  | pad p => exact .inl ⟨p, rfl⟩
  | via v => exact .inr ⟨v, rfl⟩
  | track t => exact h.2.elim
  | zone z => exact h.2.elim

theorem Fits.of_link {r : Registry} {l : TrackLink} {item : Item} (h : (link l).Fits r item) :
    ∃ t, item = .track t := by
  cases item with
  | track t => exact ⟨t, rfl⟩
  | pad p => exact h.2.elim
  | via v => exact h.2.elim
  | zone z => exact h.2.elim

theorem Fits.of_polygons {r : Registry} {gs : List Polygon} {item : Item}
    (h : (polygons gs).Fits r item) : ∃ z, item = .zone z := by
  cases item with
  | zone z => exact ⟨z, rfl⟩
  | pad p => exact h.2.elim
  | via v => exact h.2.elim
  | track t => exact h.2.elim

end Contribution

namespace Net

variable {net net' : Net} {items : Table ItemId Item} {loose ps : List Point} {p : Point}
  {n : NodeId} {id : ItemId} {item : Item} {c : Contribution}

/-- The four tables of a net as one. -/
def contribution? (net : Net) : ItemId → Option Contribution
  | .pad id => (net.pads.get? id).map .node
  | .via id => (net.vias.get? id).map .node
  | .track id => (net.tracks.get? id).map .link
  | .zone id => (net.zones.get? id).map .polygons

theorem nodesOf_eq (net : Net) (id : ItemId) :
    net.nodesOf id = ((net.contribution? id).map Contribution.nodes).getD [] := by
  cases id with
  | pad id => simp only [nodesOf, contribution?]; cases net.pads.get? id <;> rfl
  | via id => simp only [nodesOf, contribution?]; cases net.vias.get? id <;> rfl
  | track id => simp only [nodesOf, contribution?]; cases net.tracks.get? id <;> rfl
  | zone id => simp only [nodesOf, contribution?]; cases net.zones.get? id <;> rfl

theorem tracksItem_eq (net : Net) (id : ItemId) :
    net.tracksItem id = (net.contribution? id).isSome := by
  cases id <;> simp [tracksItem, contribution?, Table.contains]

/-- The net mirrors the items: its registry carries their places and the loose ones, and
each item has its contribution and no other has one. -/
structure Mirrors (net : Net) (items : Table ItemId Item) (loose : List Point) : Prop where
  carries : net.registry.Carries (loose ++ items.values.flatMap Item.places)
  tracked : ∀ id, (net.contribution? id).isSome = (items.get? id).isSome
  fits : ∀ id c item, net.contribution? id = some c → items.get? id = some item →
    c.Fits net.registry item

namespace Mirrors

theorem empty (strategy : Strategy) : (Net.empty strategy).Mirrors .empty [] where
  carries := Registry.Carries.empty
  tracked id := by cases id <;> rfl
  fits id c item _ hitem := absurd hitem (by simp)

theorem exists_item (h : net.Mirrors items loose) (hc : net.contribution? id = some c) :
    ∃ item, items.get? id = some item ∧ c.Fits net.registry item := by
  have hsome := h.tracked id
  rw [hc] at hsome
  obtain ⟨item, hitem⟩ := Option.isSome_iff_exists.1 hsome.symm
  exact ⟨item, hitem, h.fits id c item hc hitem⟩

theorem exists_contribution (h : net.Mirrors items loose) (hitem : items.get? id = some item) :
    ∃ c, net.contribution? id = some c ∧ c.Fits net.registry item := by
  have hsome := h.tracked id
  rw [hitem] at hsome
  obtain ⟨c, hc⟩ := Option.isSome_iff_exists.1 hsome
  exact ⟨c, hc, h.fits id c item hc hitem⟩

theorem get?_eq_none (h : net.Mirrors items loose) (hc : net.contribution? id = none) :
    items.get? id = none :=
  eq_none_of_isSome_eq (h.tracked id).symm hc

theorem contribution?_eq_none (h : net.Mirrors items loose) (hid : items.get? id = none) :
    net.contribution? id = none :=
  eq_none_of_isSome_eq (h.tracked id) hid

theorem mem_places (hitem : items.get? id = some item) (hp : p ∈ item.places) :
    p ∈ items.values.flatMap Item.places :=
  List.mem_flatMap.2 ⟨item, Table.mem_values.2 ⟨id, hitem⟩, hp⟩

/-- A change that moves no node of a tracked item and keeps the tables. -/
theorem of_stays {loose' : List Point} (h : net.Mirrors items loose)
    (hcarries : net'.registry.Carries (loose' ++ items.values.flatMap Item.places))
    (hcontribution : ∀ id, net'.contribution? id = net.contribution? id)
    (hstays : ∀ n q, q ∈ items.values.flatMap Item.places →
      net.registry.position? n = some q → net'.registry.position? n = some q) :
    net'.Mirrors items loose' where
  carries := hcarries
  tracked id := by rw [hcontribution, h.tracked]
  fits id c item hc hitem := by
    rw [hcontribution] at hc
    exact (h.fits id c item hc hitem).of_stays fun n q hq => hstays n q (mem_places hitem hq)

theorem congr (h : net.Mirrors items loose) (hnodes : net'.registry.nodes = net.registry.nodes)
    (hplaces : net'.registry.places = net.registry.places)
    (hcontribution : ∀ id, net'.contribution? id = net.contribution? id) :
    net'.Mirrors items loose :=
  h.of_stays (h.carries.congr hnodes hplaces) hcontribution fun n q _ hq => by
    rw [Registry.position?_congr hnodes, hq]

/-! ## Giving an item up -/

/-- Once its contribution is gone, an item's places are loose. -/
theorem drop (h : net.Mirrors items loose) (hitem : items.get? id = some item)
    (hnodes : net'.registry.nodes = net.registry.nodes)
    (hplaces : net'.registry.places = net.registry.places)
    (hcontribution : ∀ l, net'.contribution? l = if l = id then none else net.contribution? l) :
    net'.Mirrors (items.erase id) (item.places ++ loose) where
  carries := by
    refine (h.carries.congr hnodes hplaces).perm ?_
    have hvalues := (Table.values_perm_erase hitem).flatMap_right Item.places
    rw [List.flatMap_cons] at hvalues
    rw [List.append_assoc]
    exact (hvalues.append_left loose).trans (List.perm_append_comm_assoc _ _ _)
  tracked l := by
    rw [hcontribution, Table.get?_erase]
    split
    · rfl
    · exact h.tracked l
  fits l c other hc hother := by
    rw [hcontribution] at hc
    rw [Table.get?_erase] at hother
    split at hc
    · exact absurd hc (by simp)
    · rename_i hl
      rw [if_neg hl] at hother
      exact (h.fits l c other hc hother).of_stays fun n q _ hq => by
        rw [Registry.position?_congr hnodes, hq]

end Mirrors

theorem nodes_forget (net : Net) (n : NodeId) :
    (net.forget n).registry.nodes = net.registry.nodes :=
  Registry.nodes_foldl_disconnect _ _

theorem places_forget (net : Net) (n : NodeId) :
    (net.forget n).registry.places = net.registry.places :=
  Registry.places_foldl_disconnect _ _

theorem release_eq (net : Net) (n : NodeId) :
    net.release n =
      if (net.registry.release n).1 then
        { net with registry := (net.registry.release n).2 }.forget n
      else { net with registry := (net.registry.release n).2 } := rfl

theorem nodes_release (net : Net) (n : NodeId) :
    (net.release n).registry.nodes = (net.registry.release n).2.nodes := by
  rw [release_eq]
  split
  · exact nodes_forget _ n
  · rfl

theorem places_release (net : Net) (n : NodeId) :
    (net.release n).registry.places = (net.registry.release n).2.places := by
  rw [release_eq]
  split
  · exact places_forget _ n
  · rfl

theorem contribution?_release (net : Net) (n : NodeId) (id : ItemId) :
    (net.release n).contribution? id = net.contribution? id := by
  rw [release_eq]
  split <;> cases id <;> rfl

theorem position?_release (net : Net) (n m : NodeId) :
    (net.release n).registry.position? m = (net.registry.release n).2.position? m :=
  Registry.position?_congr (nodes_release net n) m

namespace Mirrors

/-- A release takes one loose place out. -/
theorem release (h : net.Mirrors items (p :: loose)) (hn : net.registry.position? n = some p) :
    (net.release n).Mirrors items loose := by
  refine h.of_stays ?_ (contribution?_release net n) fun m q hq hm => ?_
  · exact (h.carries.release hn).congr (nodes_release net n) (places_release net n)
  · rw [position?_release]
    exact h.carries.position?_release_of_mem hn hm (List.mem_append_right _ hq)

/-- Nodes at other loose places and at the places of the items stay. -/
theorem position?_release (h : net.Mirrors items (p :: loose))
    (hn : net.registry.position? n = some p) {m : NodeId} {q : Point}
    (hm : net.registry.position? m = some q) (hq : q ∈ loose) :
    (net.release n).registry.position? m = some q := by
  rw [Net.position?_release]
  exact h.carries.position?_release_of_mem hn hm (List.mem_append_left _ hq)

theorem releaseAll {ns : List NodeId} (h : net.Mirrors items (ps ++ loose))
    (hns : ns.map net.registry.position? = ps.map some) :
    (ns.foldl Net.release net).Mirrors items loose := by
  induction ns generalizing net ps with
  | nil =>
    obtain rfl : ps = [] := List.map_eq_nil_iff.1 hns.symm
    exact h
  | cons n rest ih =>
    cases ps with
    | nil => exact absurd hns (by simp)
    | cons p ps =>
      simp only [List.map_cons, List.cons.injEq] at hns
      refine ih (h.release hns.1) ?_
      rw [← hns.2]
      apply List.map_congr_left
      intro m hm
      have hmem : net.registry.position? m ∈ ps.map some := by
        rw [← hns.2]
        exact List.mem_map_of_mem hm
      obtain ⟨q, hq, hpos⟩ := List.mem_map.1 hmem
      rw [← hpos]
      exact h.position?_release hns.1 hpos.symm (List.mem_append_left _ hq)

/-! ## Taking an item up -/

/-- A new contribution whose places were taken up before. -/
theorem put (h : net.Mirrors items loose) (hid : items.get? id = none)
    (hcarries : net'.registry.Carries (item.places ++ (loose ++ items.values.flatMap Item.places)))
    (hcontribution : ∀ l, net'.contribution? l = if l = id then some c else net.contribution? l)
    (hfits : c.Fits net'.registry item)
    (hstays : ∀ n q, net.registry.position? n = some q → net'.registry.position? n = some q) :
    net'.Mirrors (items.insert id item) loose where
  carries := by
    refine hcarries.perm ?_
    rw [Table.values_insert_of_get?_eq_none hid, List.flatMap_append, List.flatMap_singleton]
    rw [← List.append_assoc loose]
    exact List.perm_append_comm
  tracked l := by
    rw [hcontribution, Table.get?_insert]
    split
    · rfl
    · exact h.tracked l
  fits l d other hd hother := by
    rw [hcontribution] at hd
    rw [Table.get?_insert] at hother
    split at hd
    · rename_i hl
      rw [if_pos hl] at hother
      obtain rfl := Option.some.inj hd
      obtain rfl := Option.some.inj hother
      exact hfits
    · rename_i hl
      rw [if_neg hl] at hother
      exact (h.fits l d other hd hother).of_stays fun n q _ hq => hstays n q hq

end Mirrors
end Net
end Unrouted
