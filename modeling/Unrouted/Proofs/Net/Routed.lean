import Unrouted.Proofs.Net.Alike
import Unrouted.Proofs.Spanning.Contraction

/-!
Routing a missing link.  A track along the link holds its two nodes once more and joins them by
copper, so after the next update one link less is missing and no node is new.  Over every pair
the links that are left are the ones that were missing before, in their order.
-/

namespace Unrouted

/-- A track between the two places of a missing link. -/
def MissingLink.track (m : MissingLink) (id : TrackId) (number : NetCode) : Track :=
  { id, net := number, start := m.sourcePosition, finish := m.targetPosition }

namespace Registry

variable {r : Registry} {held : List Point} {p q : Point} {m n : NodeId}

/-- The live nodes are the same ones, in one order and in their places. -/
structure SameNodes (r r' : Registry) : Prop where
  handles : r'.nodes.handles = r.nodes.handles
  position?_eq : ∀ n, r'.position? n = r.position? n

/-- Holding a place in use makes no new node. -/
theorem Carries.hold_again (h : r.Carries held) (hn : r.position? n = some p) :
    (r.hold p).1 = n ∧ r.SameNodes (r.hold p).2 := by
  rw [h.hold_of_find?_eq_some ((h.find?_eq_some p n).2 hn)]
  exact ⟨rfl, Arena.handles_modify _ _ _, fun m => position?_modifyNode r n m fun _ => rfl⟩

theorem Carries.holdBoth_again (h : r.Carries held) (hm : r.position? m = some p)
    (hn : r.position? n = some q) :
    (r.holdBoth p q).1 = (m, n) ∧ r.SameNodes (r.holdBoth p q).2 := by
  obtain ⟨hfst, hhandles, hposition⟩ := h.hold_again hm
  obtain ⟨hsnd, hhandles', hposition'⟩ :=
    (h.hold p).hold_again ((hposition n).trans hn)
  exact ⟨Prod.ext hfst hsnd, hhandles'.trans hhandles,
    fun k => (hposition' k).trans (hposition k)⟩

end Registry

namespace Net

variable {net : Net} {items : Table ItemId Item} {m : MissingLink} {id : TrackId}

/-! ## One connection more -/

/-- The net with another copper connection. -/
def withCopper (net : Net) (s : NodeId × NodeId) : Net :=
  { net with registry := { net.registry with
      connections := (net.registry.connections.insert (.copper s)).2 } }

theorem values_withCopper_perm (h : net.registry.connections.WellFormed) (s : NodeId × NodeId) :
    ((net.withCopper s).registry.connections.entries.map Prod.snd).Perm
      (.copper s :: net.registry.connections.entries.map Prod.snd) :=
  (Arena.entries_insert_perm h _).map Prod.snd

theorem isCopper_copper (s : NodeId × NodeId) : (Connection.copper s).isCopper = true := by
  show ((0.0 : Float) == 0.0) = true
  decide +kernel

theorem mem_copperPairs_withCopper (h : net.registry.connections.WellFormed)
    (c : Candidate net.registry.nodes.entries.length)
    (i j : Fin net.registry.nodes.entries.length) :
    (i, j) ∈ (net.withCopper (net.numbered c.a, net.numbered c.b)).copperPairs ↔
      (i, j) ∈ net.copperPairs ++ [c.pair] := by
  have hlaid : (i, j) ∈ (net.withCopper (net.numbered c.a, net.numbered c.b)).copperPairs ↔
      ∃ v ∈ (net.withCopper (net.numbered c.a, net.numbered c.b)).registry.connections.entries.map
        Prod.snd, v.isCopper = true ∧ v.source = net.numbered i ∧ v.target = net.numbered j :=
    mem_copperPairs_values
  have hpair : (i, j) = c.pair ↔ net.numbered c.a = net.numbered i ∧
      net.numbered c.b = net.numbered j := by
    rw [net.numbered_injective.eq_iff, net.numbered_injective.eq_iff, eq_comm, Candidate.pair,
      Prod.mk.injEq]
  rw [hlaid, List.mem_append, List.mem_singleton, hpair, mem_copperPairs_values]
  simp only [(values_withCopper_perm h _).mem_iff, List.mem_cons, or_and_right, exists_or,
    exists_eq_left, isCopper_copper, true_and]
  exact or_comm

theorem solve_withCopper (h : net.registry.connections.WellFormed)
    (c : Candidate net.registry.nodes.entries.length) :
    (net.withCopper (net.numbered c.a, net.numbered c.b)).solve =
      net.linksOf (Forest.spanning net.strategy net.livePoints (net.copperPairs ++ [c.pair])) :=
  congrArg net.linksOf
    (Forest.spanning_congr net.strategy net.livePoints (mem_copperPairs_withCopper h c))

/-! ## The track -/

/-- A track with a name of its own takes nothing out. -/
theorem Sound.add_track (h : net.Sound items) (track : Track)
    (hid : items.get? (.track track.id) = none) :
    let both := net.registry.holdBoth track.start track.finish
    net.add (.track track) =
      { net with
        registry := { both.2 with connections := (both.2.connections.insert (.copper both.1)).2 },
        tracks := net.tracks.insert track.id (net.laidLink track),
        dirty := true } := by
  have hremove : net.remove (.track track.id) = net := h.remove_of_get?_eq_none hid
  have hadd : net.add (.track track) = net.attach (.track track) := by
    rw [add_eq]
    exact congrArg (attach · (.track track)) hremove
  exact hadd.trans (attach_track h.mirrors.carries track)

theorem exists_update (net : Net) : ∃ connections ties missing dirty updates,
    net.update = { net with
      registry := { net.registry with connections }, ties, missing, dirty, updates } := by
  unfold update
  split
  · obtain ⟨connections, ties, hretied⟩ := retied_tieZones net
    rw [hretied]
    exact ⟨_, _, _, _, _, rfl⟩
  · exact ⟨_, _, _, _, _, rfl⟩

/-- A track along a link whose nodes are live is one more connection between these. -/
theorem Sound.routed (h : net.Sound items) (htied : ∀ id, net.Tied id)
    (hid : items.get? (.track id) = none)
    (hsource : net.registry.position? m.source = some m.sourcePosition)
    (htarget : net.registry.position? m.target = some m.targetPosition) (number : NetCode) :
    let routed := (net.add (.track (m.track id number))).update
    net.registry.SameNodes routed.registry ∧
      routed.missing = (net.withCopper (m.source, m.target)).solve := by
  let track : Track := m.track id number
  let both := net.registry.holdBoth track.start track.finish
  let routed := (net.add (.track track)).update
  have hsound : (net.add (.track track)).Sound (items.insert (.track id) (.track track)) :=
    h.add (.track track)
  have hdirty := h.dirty_add (.track track)
  obtain ⟨htied', hsolved⟩ := hsound.settled_update hdirty
  obtain ⟨hends, hsame⟩ := h.mirrors.carries.holdBoth_again hsource htarget
  obtain ⟨hnodes, hstrategy, hzones, htracks⟩ : routed.registry.nodes = both.2.nodes ∧
      routed.strategy = net.strategy ∧ routed.zones = net.zones ∧
      routed.tracks = net.tracks.insert id (net.laidLink track) := by
    obtain ⟨_, _, _, _, _, hupdate⟩ := exists_update (net.add (.track track))
    have hadd := h.add_track track hid
    refine ⟨?_, ?_, ?_, ?_⟩ <;> simp only [routed, hupdate, hadd, both]
    rfl
  have hregistry : net.registry.SameNodes routed.registry :=
    ⟨(congrArg Arena.handles hnodes).trans hsame.handles,
      fun n => (Registry.position?_congr hnodes n).trans (hsame.position?_eq n)⟩
  -- One connection for each track and each contact: the track is new, and the contacts are not.
  have hconnections : (routed.registry.connections.entries.map Prod.snd).Perm
      (.copper (m.source, m.target) :: net.registry.connections.entries.map Prod.snd) := by
    have hnone : net.tracks.get? id = none := by
      simpa [contribution?] using h.mirrors.contribution?_eq_none hid
    have hlink : ((net.laidLink track).start, (net.laidLink track).finish) =
        (m.source, m.target) := hends
    have hlaid : (routed.registry.connections.entries.map Prod.snd).Perm
        (routed.tracks.values.map (fun link => Connection.copper (link.start, link.finish)) ++
          routed.zones.values.flatMap fun gs =>
            (Polygon.contactPairs routed.registry gs).map Connection.copper) :=
      hsound.update.wired.copper_perm hsound.update.matched htied'
    have hbefore := h.wired.copper_perm h.matched htied
    simp only [hzones, htracks, Table.values_insert_of_get?_eq_none hnone, List.map_append,
      List.map_singleton, hlink, List.append_assoc, List.singleton_append,
      Polygon.contactPairs_congr hregistry.handles hregistry.position?_eq] at hlaid
    exact hlaid.trans (List.perm_middle.trans (hbefore.symm.cons _))
  refine ⟨hregistry, hsolved.trans (solve_congr hstrategy hregistry.handles hregistry.position?_eq
    fun v => ?_)⟩
  rw [hconnections.mem_iff, (values_withCopper_perm h.wired.owned.wellFormed _).mem_iff]

/-- On a clean net, a track with a name of its own along any of the missing links is one step of
progress: after the next update one link less is missing, and the nodes are those that were
there.  Over every pair the other links are the ones that were missing before, in their order. -/
theorem missing_routed (strategy : Strategy) (history : List Operation) (m : MissingLink)
    (before after : List MissingLink) (id : TrackId) (number : NetCode)
    (hclean : (run (empty strategy) history).dirty = false)
    (hmissing : (run (empty strategy) history).missing = before ++ m :: after)
    (hid : (run (empty strategy) history).tracksItem (.track id) = false) :
    let net := run (empty strategy) history
    let routed := (net.add (.track (m.track id number))).update
    routed.missing.length + 1 = net.missing.length ∧
      net.registry.SameNodes routed.registry ∧ routed.nodeCount = net.nodeCount ∧
      (strategy = .everyPair → routed.missing = before ++ after) := by
  have hsound := sound_run strategy history
  have hsettled := settled_run strategy history hclean
  have hstrategy := strategy_run strategy history
  generalize run (empty strategy) history = net at hmissing hid hsound hsettled hstrategy
  intro net routed
  have hfresh : (tracked history).get? (.track id) = none := by
    rw [tracksItem_eq, hsound.mirrors.tracked] at hid
    exact Option.not_isSome_iff_eq_none.1 (by simp [hid])
  rw [hsettled.solved, solve, linksOf_eq] at hmissing
  obtain ⟨found, rest, hfound, rfl, hrest⟩ := List.map_eq_append_iff.1 hmissing
  obtain ⟨c, others, rfl, rfl, rfl⟩ := List.map_eq_cons_iff.1 hrest
  have hc : c ∈ Forest.spanning net.strategy net.livePoints net.copperPairs := by
    rw [hfound]
    exact List.mem_append_right _ List.mem_cons_self
  obtain ⟨hnodes, hrouted⟩ := hsound.routed (m := net.linkOf c) hsettled.tied hfresh
    (position?_numbered net c.a) (position?_numbered net c.b) number
  have hlaid : routed.missing = (Forest.spanning net.strategy net.livePoints
      (net.copperPairs ++ [c.pair])).map net.linkOf := by
    rw [← linksOf_eq, ← solve_withCopper hsound.wired.owned.wellFormed c]
    exact hrouted
  refine ⟨?_, hnodes, ?_, fun hevery => ?_⟩
  · rw [hlaid, hsettled.solved, solve, linksOf_eq, List.length_map, List.length_map]
    exact Forest.length_spanning_concat hc
  · have hlength := congrArg List.length hnodes.handles
    rw [Arena.handles, Arena.handles, List.length_map, List.length_map] at hlength
    have hcarries := ((hsound.add (.track ((net.linkOf c).track id number))).update).mirrors.carries
    exact hcarries.nodes.size_eq.trans (hlength.trans hsound.mirrors.carries.nodes.size_eq.symm)
  · rw [hstrategy.trans hevery] at hlaid hfound
    rw [hlaid, Forest.spanning_everyPair_concat hfound, List.map_append]

/-- Pads at the corners of a square, so that four pairs of pads are equally near. -/
def cornerPads : List Operation :=
  [.add (.pad { id := 1, net := 1, position := ⟨0, 0⟩ }),
    .add (.pad { id := 2, net := 1, position := ⟨4, 4⟩ }),
    .add (.pad { id := 3, net := 1, position := ⟨4, 0⟩ }),
    .add (.pad { id := 4, net := 1, position := ⟨0, 4⟩ }), .update]

/-- The second of three links is laid. -/
theorem missing_routed_cornerPads :
    let net := run (empty .everyPair) cornerPads
    ∃ first second third, net.missing = [first, second, third] ∧
      ((net.add (.track (second.track 1 1))).update).missing = [first, third] := by
  intro net
  have hclean : net.dirty = false := by decide +kernel
  have hcomponents : net.copperPartition.count - 1 = 3 := by decide +kernel
  obtain ⟨first, second, third, hlinks⟩ := List.length_eq_three.1
    ((settled_run .everyPair cornerPads hclean).length_missing.trans hcomponents)
  have hrouted := missing_routed .everyPair cornerPads second [first] [third] 1 1
    hclean hlinks (by decide +kernel)
  exact ⟨first, second, third, hlinks, hrouted.2.2.2 rfl⟩

end Net
end Unrouted
