import Unrouted.Proofs.Net.Owners

/-!
Where an operation could come to grief.  A connection may be refused, and a connection may
have an end without a number when the nodes are numbered.  The operations pass both over;
here they are tried again as operations that stop at the first such fault.  Trying gives the
same net after every history, so nothing is ever passed over.
-/

namespace Unrouted

inductive Fault where
  | refused (e : ForeignEnd)
  | unnumbered (n : NodeId)
deriving DecidableEq

namespace Net

variable {net : Net} {items : Table ItemId Item}

/-! ## Operations that stop at a fault -/

def tryJoinAll (r : Registry) :
    List (NodeId × NodeId) → Except Fault (List ConnectionId × Registry)
  | [] => .ok ([], r)
  | (source, target) :: rest =>
    match r.connect source target 0.0 with
    | .error e => .error (.refused e)
    | .ok (c, r) => do
      let (cs, r) ← tryJoinAll r rest
      return (c :: cs, r)

def tryTieZone (net : Net) (id : ZoneId) : Except Fault Net :=
  match net.zones.get? id with
  | none => .ok net
  | some polygons => do
    let (cs, registry) ←
      tryJoinAll net.registry (Polygon.contactPairs net.registry polygons)
    return { net with registry, ties := net.ties.insert id ((net.ties.get? id).getD [] ++ cs) }

def tryTieZones (net : Net) : Except Fault Net :=
  let ids := net.zones.keys
  ids.foldlM tryTieZone (ids.foldl untieZone net)

def tryAddTrack (net : Net) (track : Track) : Except Fault Net :=
  let net := net.removeTrack track.id
  let (start, registry) := net.registry.hold track.start
  let (finish, registry) := registry.hold track.finish
  match registry.connect start finish 0.0 with
  | .error e => .error (.refused e)
  | .ok (connection, registry) =>
    let link := { connection, start, finish }
    .ok { net with registry, tracks := net.tracks.insert track.id link, dirty := true }

def tryAddZone (net : Net) (zone : Zone) : Except Fault Net := do
  let net := net.removeZone zone.id
  let (polygons, registry) := Polygon.registerAll net.registry zone.id zone.outlines
  let net := { net with registry, zones := net.zones.insert zone.id polygons }
  let net ← net.tryTieZone zone.id
  return { net with dirty := true }

def tryAdd (net : Net) : Item → Except Fault Net
  | .pad pad => .ok (net.addPad pad)
  | .via via => .ok (net.addVia via)
  | .track track => net.tryAddTrack track
  | .zone zone => net.tryAddZone zone

def tryRank (net : Net) (n : NodeId) :
    Except Fault (Fin net.registry.nodes.entries.length) :=
  match net.rank? n with
  | none => .error (.unnumbered n)
  | some i => .ok i

/-- Numbers both ends of every piece of copper. -/
def tryCopperPairs (net : Net) : Except Fault
    (List (Fin net.registry.nodes.entries.length × Fin net.registry.nodes.entries.length)) :=
  (net.registry.connections.entries.filter (·.2.isCopper)).mapM fun e => do
    let a ← net.tryRank e.2.source
    let b ← net.tryRank e.2.target
    return (a, b)

def trySolve (net : Net) : Except Fault (List MissingLink) := do
  let pairs ← net.tryCopperPairs
  return net.linksOf (Forest.spanning net.strategy net.livePoints pairs)

def tryUpdate (net : Net) : Except Fault Net :=
  if net.dirty then do
    let net ← net.tryTieZones
    let missing ← net.trySolve
    return { net with missing, dirty := false, updates := net.updates + 1 }
  else .ok net

def tryApply (net : Net) : Operation → Except Fault Net
  | .add item => net.tryAdd item
  | .update => net.tryUpdate
  | .remove id => .ok (net.remove id)
  | .mark n => .ok (net.mark n)
  | .clearMarks => .ok net.clearMarks
  | .setVisible visible => .ok (net.setVisible visible)

/-! ## No fault happens -/

theorem tryJoinAll_eq {r : Registry} {pairs : List (NodeId × NodeId)}
    (hlive : ∀ s ∈ pairs, r.nodes.live s.1 = true ∧ r.nodes.live s.2 = true) :
    tryJoinAll r pairs = .ok (joinAll r pairs) := by
  induction pairs generalizing r with
  | nil => rfl
  | cons s rest ih =>
    obtain ⟨source, target⟩ := s
    have hends := hlive (source, target) List.mem_cons_self
    have hrest := ih (r := { r with
      connections := (r.connections.insert (.copper (source, target))).2 })
      fun t ht => hlive t (List.mem_cons_of_mem _ ht)
    simp only [tryJoinAll, joinAll, Registry.connect_of_live hends.1 hends.2, hrest]
    rfl

theorem Grounded.tryTieZone_eq (h : net.Grounded) (id : ZoneId) :
    net.tryTieZone id = .ok (net.tieZone id) := by
  cases hid : net.zones.get? id with
  | none => simp only [tryTieZone, hid, tieZone_of_get?_eq_none hid]
  | some gs =>
    have hlive : ∀ s ∈ Polygon.contactPairs net.registry gs,
        net.registry.nodes.live s.1 = true ∧ net.registry.nodes.live s.2 = true :=
      fun _ hs => Polygon.live_of_mem_contactPairs (fun g hg => h id gs hid g hg) hs
    simp only [tryTieZone, hid, tryJoinAll_eq hlive, tieZone_of_get?_eq_some hid]
    rfl

theorem Grounded.tryTieZones_eq (h : net.Grounded) : net.tryTieZones = .ok net.tieZones := by
  have fold (ids : List ZoneId) {net : Net} (h : net.Grounded) :
      ids.foldlM tryTieZone net = .ok (ids.foldl tieZone net) := by
    induction ids generalizing net with
    | nil => rfl
    | cons id rest ih =>
      rw [List.foldlM_cons, h.tryTieZone_eq]
      exact ih (h.congr (nodes_tieZone net id) (zones_tieZone net id))
  exact fold net.zones.keys
    (h.congr (nodes_foldl_untieZone net _) (zones_foldl_untieZone net _))

theorem Sound.tryAdd_eq (h : net.Sound items) (item : Item) :
    net.tryAdd item = .ok (net.add item) := by
  have hremoved := (h.remove item.id).mirrors
  cases item with
  | pad pad => rfl
  | via via => rfl
  | track track =>
    have hboth := hremoved.carries.holdBoth track.start track.finish
    have hconnect := Registry.connect_of_live
      (Registry.live_iff_position?.2 ⟨_, hboth.fst⟩) (Registry.live_iff_position?.2 ⟨_, hboth.snd⟩)
    simp only [Registry.holdBoth, Item.id, Net.remove] at hconnect
    simp only [tryAdd, tryAddTrack, Net.add, addTrack, hconnect]
  | zone zone =>
    have hground := (hremoved.placed (Table.get?_erase_self items _)).grounded
    have htied := hground.tryTieZone_eq zone.id
    simp only [tryAdd, tryAddZone, Net.add, addZone]
    simp only [Net.placed, Item.id, Net.remove] at htied
    rw [htied]
    rfl

theorem tryRank_eq {n : NodeId} (hn : net.registry.nodes.live n = true) :
    ∃ i, net.rank? n = some i ∧ net.tryRank n = .ok i := by
  have hrank : (net.rank? n).isSome = true := by
    obtain ⟨v, hv⟩ := Arena.live_iff.1 hn
    rw [rank?, List.isSome_findFinIdx?, List.any_eq_true]
    exact ⟨(n, v), Arena.mem_entries.2 hv, by simp⟩
  obtain ⟨i, hi⟩ := Option.isSome_iff_exists.1 hrank
  exact ⟨i, hi, by simp [tryRank, hi]⟩

/-- Connections between live nodes have numbers at both ends. -/
theorem trySolve_eq (h : ∀ c v, net.registry.connection? c = some v → net.registry.Bears v) :
    net.trySolve = .ok net.solve := by
  have pairs (es : List (ConnectionId × Connection)) (hes : ∀ e ∈ es, net.registry.Bears e.2) :
      ((es.filter (·.2.isCopper)).mapM fun e => do
        let a ← net.tryRank e.2.source
        let b ← net.tryRank e.2.target
        return (a, b)) =
        Except.ok (es.filterMap fun e =>
          if e.2.isCopper then do
            let a ← net.rank? e.2.source
            let b ← net.rank? e.2.target
            return (a, b)
          else none) := by
    induction es with
    | nil => rfl
    | cons e rest ih =>
      have hrest := ih fun f hf => hes f (List.mem_cons_of_mem _ hf)
      obtain ⟨hs, ht⟩ := hes e List.mem_cons_self
      obtain ⟨a, ha, hta⟩ := tryRank_eq hs
      obtain ⟨b, hb, htb⟩ := tryRank_eq ht
      cases hcopper : e.2.isCopper with
      | false => simpa [hcopper] using hrest
      | true =>
        have hfilter : (e :: rest).filter (·.2.isCopper) = e :: rest.filter (·.2.isCopper) :=
          List.filter_cons_of_pos hcopper
        rw [hfilter, List.mapM_cons, hrest, hta, htb]
        simp only [List.filterMap_cons, hcopper, ha, hb]
        rfl
  have hpairs : net.tryCopperPairs = .ok net.copperPairs :=
    pairs _ fun e he => h e.1 e.2 (Arena.mem_entries.1 he)
  rw [trySolve, hpairs]
  rfl

theorem Sound.tryUpdate_eq (h : net.Sound items) (hanchored : net.Anchored) :
    net.tryUpdate = .ok net.update := by
  unfold tryUpdate Net.update
  split
  · have hbears : ∀ c v, net.tieZones.registry.connection? c = some v →
        net.tieZones.registry.Bears v :=
      fun _ _ hv => h.tieZones.1.bears (hanchored.tieZones h.wired h.mirrors.grounded) hv
    rw [h.mirrors.grounded.tryTieZones_eq]
    show (net.tieZones.trySolve >>= fun missing => _) = _
    rw [trySolve_eq hbears]
    rfl
  · rfl

theorem Sound.tryApply_eq (h : net.Sound items) (hanchored : net.Anchored) (op : Operation) :
    net.tryApply op = .ok (net.apply op) := by
  cases op with
  | add item => exact h.tryAdd_eq item
  | update => exact h.tryUpdate_eq hanchored
  | remove id => rfl
  | mark n => rfl
  | clearMarks => rfl
  | setVisible visible => rfl

end Net
end Unrouted
