import Unrouted.Proofs.Net.Settled

/-!
Marks and visibility say how a net is drawn, and nothing else.  With both taken away, an
operation does what it does without them: every node, connection and missing link, every
slot that comes next and every list keeps its place.  The operations that draw leave nothing
behind, so a run of the net is, undrawn, the run without them.
-/

namespace Unrouted

/-! ## Registries without flags -/

def Node.unflagged (v : Node) : Node := { v with flagged := false }

@[simp]
theorem Node.position_unflagged (v : Node) : v.unflagged.position = v.position := rfl

@[simp]
theorem Node.holds_unflagged (v : Node) : v.unflagged.holds = v.holds := rfl

namespace Registry

/-- The registry with no node flagged. -/
def unflagged (r : Registry) : Registry := { r with nodes := r.nodes.map Node.unflagged }

theorem node?_unflagged (r : Registry) (n : NodeId) :
    r.unflagged.node? n = (r.node? n).map Node.unflagged :=
  Arena.get?_map _ r.nodes n

theorem position?_unflagged (r : Registry) (n : NodeId) :
    r.unflagged.position? n = r.position? n := by
  rw [position?, node?_unflagged, Option.map_map, position?]
  rfl

theorem live_unflagged (r : Registry) (n : NodeId) :
    r.unflagged.nodes.live n = r.nodes.live n :=
  Arena.live_map _ r.nodes n

theorem handles_unflagged (r : Registry) : r.unflagged.nodes.handles = r.nodes.handles :=
  Arena.handles_map _ r.nodes

theorem unflagged_modifyNode {f : Node → Node} (hf : ∀ v, (f v).unflagged = f v.unflagged)
    (r : Registry) (n : NodeId) :
    (r.modifyNode n f).unflagged = r.unflagged.modifyNode n f := by
  simp only [modifyNode, unflagged, Arena.map_modify hf]

/-- A flag that is set or taken away is gone with all of them. -/
theorem unflagged_setFlag (r : Registry) (n : NodeId) (flag : Bool) :
    (r.setFlag n flag).unflagged = r.unflagged := by
  let mark (v : Node) : Node := { v with flagged := flag }
  have hmark : (r.nodes.modify n mark).map Node.unflagged = r.nodes.map Node.unflagged := by
    rw [Arena.map_modify (show ∀ v, (mark v).unflagged = id v.unflagged from fun _ => rfl)]
    exact Arena.modify_eq_self fun _ _ => rfl
  simp only [setFlag, modifyNode, unflagged]
  rw [hmark]

/-- A node comes without a flag. -/
theorem create_unflagged (r : Registry) (p : Point) :
    r.unflagged.create p = ((r.create p).1, (r.create p).2.unflagged) := by
  have hinsert := Arena.map_insert Node.unflagged r.nodes
    { position := p, flagged := false, holds := 1 }
  simp only [Node.unflagged] at hinsert
  simp only [create, unflagged, hinsert]

theorem hold_unflagged (r : Registry) (p : Point) :
    r.unflagged.hold p = ((r.hold p).1, (r.hold p).2.unflagged) := by
  have hfind : r.unflagged.find? p = r.find? p := rfl
  have hcounted (n : NodeId) := unflagged_modifyNode
    (f := fun v => { v with holds := v.holds + 1 }) (fun _ => rfl) r n
  cases hp : r.find? p with
  | none => simp only [hold, hfind, hp, create_unflagged]
  | some n =>
    simp only [hold, hfind, hp, live_unflagged]
    by_cases hlive : r.nodes.live n = true
    · simp only [if_pos hlive, hcounted]
    · simp only [if_neg hlive, create_unflagged]

theorem unflagged_discard (r : Registry) (n : NodeId) :
    (r.discard n).unflagged = r.unflagged.discard n := by
  have hfind (p : Point) : r.unflagged.find? p = r.find? p := rfl
  simp only [discard, node?_unflagged]
  cases r.node? n with
  | none => rfl
  | some v =>
    simp only [Option.map_some, hfind, Node.position_unflagged]
    simp only [unflagged, Arena.map_erase]

theorem release_unflagged (r : Registry) (n : NodeId) :
    r.unflagged.release n = ((r.release n).1, (r.release n).2.unflagged) := by
  have hcounted := unflagged_modifyNode
    (f := fun v => { v with holds := v.holds - 1 }) (fun _ => rfl) r n
  simp only [release, node?_unflagged]
  cases r.node? n with
  | none => rfl
  | some v =>
    simp only [Option.map_some, Node.holds_unflagged]
    by_cases hlast : v.holds ≤ 1
    · simp only [hlast, if_true, unflagged_discard]
    · simp only [hlast, if_false, hcounted]

theorem connect_unflagged (r : Registry) (source target : NodeId) (weight : Float) :
    r.unflagged.connect source target weight =
      (r.connect source target weight).map fun out => (out.1, out.2.unflagged) := by
  simp only [connect, live_unflagged]
  split <;> rfl

theorem unflagged_foldl_disconnect (r : Registry) (cs : List ConnectionId) :
    (cs.foldl disconnect r).unflagged = cs.foldl disconnect r.unflagged :=
  (List.foldl_hom unflagged fun _ _ => rfl).symm

theorem joinAll_unflagged (r : Registry) (pairs : List (NodeId × NodeId)) :
    Net.joinAll r.unflagged pairs =
      ((Net.joinAll r pairs).1, (Net.joinAll r pairs).2.unflagged) := by
  induction pairs generalizing r with
  | nil => rfl
  | cons pair rest ih =>
    simp only [Net.joinAll, connect_unflagged]
    cases r.connect pair.1 pair.2 0.0 with
    | error e => exact ih r
    | ok out => simp only [Except.map, ih]

theorem registerAll_unflagged (r : Registry) (zone : ZoneId) (outlines : List Outline) :
    Polygon.registerAll r.unflagged zone outlines =
      ((Polygon.registerAll r zone outlines).1,
        (Polygon.registerAll r zone outlines).2.unflagged) := by
  induction outlines generalizing r with
  | nil => rfl
  | cons outline rest ih =>
    match outline with
    | [] => exact ih r
    | [_] => exact ih r
    | first :: second :: tail =>
      simp only [Polygon.registerAll, Box.ofPoints?, Option.bind_some, Polygon.register?,
        hold_unflagged, ih]

theorem contactPairs_unflagged (r : Registry) (polygons : List Polygon) :
    Polygon.contactPairs r.unflagged polygons = Polygon.contactPairs r polygons :=
  Polygon.contactPairs_congr (handles_unflagged r) (position?_unflagged r) polygons

end Registry

/-! ## Nets without marks -/

namespace Net

variable {net : Net}

/-- The net without what is only drawn: no node is marked or flagged, and it is shown. -/
def undrawn (net : Net) : Net :=
  { net with registry := net.registry.unflagged, marked := [], visible := true }

theorem undrawn_empty (strategy : Strategy) : (empty strategy).undrawn = empty strategy := by
  simp [undrawn, empty, Registry.unflagged, Registry.empty, Arena.map, Arena.empty]

theorem undrawn_untieZone (net : Net) (id : ZoneId) :
    (net.untieZone id).undrawn = net.undrawn.untieZone id := by
  have hties : net.undrawn.ties = net.ties := rfl
  simp only [untieZone, hties]
  cases net.ties.get? id with
  | none => rfl
  | some cs => simp only [undrawn, Registry.unflagged_foldl_disconnect]

theorem undrawn_tieZone (net : Net) (id : ZoneId) :
    (net.tieZone id).undrawn = net.undrawn.tieZone id := by
  have hzones : net.undrawn.zones = net.zones := rfl
  simp only [tieZone, hzones]
  cases net.zones.get? id with
  | none => rfl
  | some polygons =>
    simp only [undrawn, Registry.contactPairs_unflagged, Registry.joinAll_unflagged]

theorem undrawn_tieZones (net : Net) : net.tieZones.undrawn = net.undrawn.tieZones := by
  have huntied : (net.zones.keys.foldl untieZone net).undrawn =
      net.zones.keys.foldl untieZone net.undrawn :=
    (List.foldl_hom undrawn fun net id => (undrawn_untieZone net id).symm).symm
  simp only [tieZones]
  rw [← List.foldl_hom undrawn fun net id => (undrawn_tieZone net id).symm, huntied]
  rfl

theorem undrawn_forget (net : Net) (n : NodeId) :
    (net.forget n).undrawn = net.undrawn.forget n := by
  have hconnection (c : ConnectionId) :
      net.undrawn.registry.connection? c = net.registry.connection? c := rfl
  simp only [forget, hconnection]
  simp only [undrawn, Registry.unflagged_foldl_disconnect, List.filter_nil]

theorem undrawn_release (net : Net) (n : NodeId) :
    (net.release n).undrawn = net.undrawn.release n := by
  have hregistry : net.undrawn.registry = net.registry.unflagged := rfl
  simp only [release, hregistry, Registry.release_unflagged]
  split
  · exact undrawn_forget _ n
  · rfl

theorem undrawn_detach (net : Net) (id : ItemId) :
    (net.detach id).undrawn = net.undrawn.detach id := by
  cases id with
  | pad id => rfl
  | via id => rfl
  | track id =>
    have htracks : net.undrawn.tracks = net.tracks := rfl
    simp only [detach, htracks]
    cases net.tracks.get? id <;> rfl
  | zone id =>
    have huntied := undrawn_untieZone net id
    simp only [detach]
    rw [← huntied]
    rfl

theorem undrawn_remove (net : Net) (id : ItemId) :
    (net.remove id).undrawn = net.undrawn.remove id := by
  have hcontribution : net.undrawn.contribution? id = net.contribution? id := by cases id <;> rfl
  cases hc : net.contribution? id with
  | none =>
    rw [remove_of_contribution?_eq_none hc,
      remove_of_contribution?_eq_none (hcontribution.trans hc), undrawn_detach]
  | some c =>
    have hreleased : (c.nodes.foldl release (net.detach id)).undrawn =
        c.nodes.foldl release (net.undrawn.detach id) := by
      rw [← undrawn_detach]
      exact (List.foldl_hom undrawn fun net n => (undrawn_release net n).symm).symm
    rw [remove_of_contribution?_eq_some hc,
      remove_of_contribution?_eq_some (hcontribution.trans hc), ← hreleased]
    rfl

theorem undrawn_attach (net : Net) (item : Item) :
    (net.attach item).undrawn = net.undrawn.attach item := by
  have hregistry : net.undrawn.registry = net.registry.unflagged := rfl
  cases item with
  | pad pad =>
    simp only [attach, hregistry, Registry.hold_unflagged]
    rfl
  | via via =>
    simp only [attach, hregistry, Registry.hold_unflagged]
    rfl
  | track track =>
    simp only [attach, hregistry, Registry.hold_unflagged, Registry.connect_unflagged]
    cases ((net.registry.hold track.start).2.hold track.finish).2.connect _ _ _ <;> rfl
  | zone zone =>
    have htied := undrawn_tieZone (net.placed zone) zone.id
    have hplaced : (net.placed zone).undrawn = net.undrawn.placed zone := by
      simp only [placed, hregistry, Registry.registerAll_unflagged]
      rfl
    rw [attach_zone, attach_zone, ← hplaced, ← htied]
    rfl

theorem undrawn_add (net : Net) (item : Item) :
    (net.add item).undrawn = net.undrawn.add item := by
  rw [add_eq, add_eq, undrawn_attach, undrawn_remove]

/-- Marks have no part in the links that are found. -/
theorem solve_undrawn (net : Net) : net.undrawn.solve = net.solve :=
  solve_congr rfl (Registry.handles_unflagged _) (Registry.position?_unflagged _) fun _ => Iff.rfl

theorem undrawn_update (net : Net) : net.update.undrawn = net.undrawn.update := by
  have hdirty : net.undrawn.dirty = net.dirty := rfl
  cases h : net.dirty with
  | false => rw [update_of_clean h, update_of_clean (hdirty.trans h)]
  | true =>
    rw [update_of_dirty h, update_of_dirty (hdirty.trans h), ← undrawn_tieZones, solve_undrawn]
    rfl

theorem undrawn_mark (net : Net) (n : NodeId) : (net.mark n).undrawn = net.undrawn := by
  simp only [mark]
  split
  · rfl
  · split
    · rfl
    · simp only [undrawn, Registry.unflagged_setFlag]

theorem undrawn_clearMarks (net : Net) : net.clearMarks.undrawn = net.undrawn := by
  have hcleared : (net.marked.foldl (fun r n => r.setFlag n false) net.registry).unflagged =
      net.registry.unflagged :=
    List.foldlRecOn (motive := fun r : Registry => r.unflagged = net.registry.unflagged) _ _ rfl
      fun r h n _ => (r.unflagged_setFlag n false).trans h
  simp only [clearMarks, undrawn, hcleared]

theorem undrawn_setVisible (net : Net) (visible : Bool) :
    (net.setVisible visible).undrawn = net.undrawn := rfl

end Net
end Unrouted
