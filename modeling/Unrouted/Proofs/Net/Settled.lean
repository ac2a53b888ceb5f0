import Unrouted.Proofs.Net.Forest
import Unrouted.Proofs.Net.Joins
import Unrouted.Proofs.Spanning.Renumbering

/-!
A clean net is settled: its zones are tied and its missing links are the cheapest ones, so
nothing that the links are found from has changed since the last update.  Updating it once
more puts the ties into other slots, and finds the same links.
-/

namespace Unrouted
namespace Net

variable {net net' : Net} {items : Table ItemId Item}

/-! ## What links are found from -/

theorem getElem?_handles_numbered (net : Net) (i : Fin net.registry.nodes.entries.length) :
    net.registry.nodes.handles[i.1]? = some (net.numbered i) := by
  simp [Arena.handles, numbered]

theorem mem_copperPairs_values {i j : Fin net.registry.nodes.entries.length} :
    (i, j) ∈ net.copperPairs ↔ ∃ v ∈ net.registry.connections.entries.map Prod.snd,
      v.isCopper = true ∧ v.source = net.numbered i ∧ v.target = net.numbered j := by
  rw [mem_copperPairs]
  constructor
  · intro h
    obtain ⟨c, v, hv, hends⟩ := h
    exact ⟨v, List.mem_map_of_mem (f := Prod.snd) (Arena.mem_entries.2 hv), hends⟩
  · intro h
    obtain ⟨v, hmem, hends⟩ := h
    obtain ⟨⟨c, _⟩, he, rfl⟩ := List.mem_map.1 hmem
    exact ⟨c, _, Arena.mem_entries.1 he, hends⟩

/-- The links depend on the live nodes in their order, on where these are, and on what the
connections join; not on the order or the slots of the connections, nor on marks. -/
theorem solve_congr (hstrategy : net'.strategy = net.strategy)
    (hhandles : net'.registry.nodes.handles = net.registry.nodes.handles)
    (hposition : ∀ n, net'.registry.position? n = net.registry.position? n)
    (hcopper : ∀ v, v ∈ net'.registry.connections.entries.map Prod.snd ↔
      v ∈ net.registry.connections.entries.map Prod.snd) :
    net'.solve = net.solve := by
  have hlength : net'.registry.nodes.entries.length = net.registry.nodes.entries.length := by
    rw [← List.length_map (f := Prod.fst), ← List.length_map (f := Prod.fst)]
    exact congrArg List.length hhandles
  have hnumbered (i : Fin net'.registry.nodes.entries.length) :
      net.numbered (i.cast hlength) = net'.numbered i := by
    have hi := getElem?_handles_numbered net (i.cast hlength)
    rw [← hhandles] at hi
    exact Option.some.inj (hi.symm.trans (getElem?_handles_numbered net' i))
  have hpoints (i : Fin net'.registry.nodes.entries.length) :
      net.livePoints.get (i.cast hlength) = net'.livePoints.get i := by
    have hi := position?_numbered net (i.cast hlength)
    rw [hnumbered, ← hposition, position?_numbered] at hi
    exact (Option.some.inj hi).symm
  rw [solve, solve, linksOf_eq, linksOf_eq, hstrategy]
  refine Forest.map_spanning_congr net.strategy hlength hpoints (fun i j => ?_) fun c => ?_
  · simp only [mem_copperPairs_values, hcopper, hnumbered]
  · simp only [linkOf, hnumbered, hpoints]

/-! ## Clean nets -/

/-- The zones are tied, and the missing links are the cheapest ones over the copper. -/
structure Settled (net : Net) : Prop where
  tied : ∀ id, net.Tied id
  solved : net.missing = net.solve

theorem Sound.settled_update (h : net.Sound items) (hdirty : net.dirty = true) :
    net.update.Settled := by
  refine ⟨h.tied_update hdirty, ?_⟩
  rw [update_of_dirty hdirty]
  rfl

theorem Settled.remarked (h : net.Settled) (hmarks : net.Remarked net') : net'.Settled := by
  refine ⟨fun id => (h.tied id).remarked hmarks, ?_⟩
  rw [hmarks.missing, h.solved]
  obtain ⟨registry, marked, visible, hregistry, rfl⟩ := hmarks
  have hsame : { net with registry, marked, visible }.solve = net.solve := by
    refine solve_congr rfl hregistry.handles hregistry.position?_eq fun v => ?_
    rw [hregistry.connections]
  exact hsame.symm

theorem settled_run (strategy : Strategy) (history : List Operation)
    (h : (run (empty strategy) history).dirty = false) : (run (empty strategy) history).Settled :=
  clean_run (fun _ _ hnet hdirty => hnet.settled_update hdirty)
    (fun _ _ hmarks hnet => hnet.remarked hmarks) strategy history h

/-! ## Updating once more -/

/-- The nets differ at most in the slots of their connections and in the ties of zones. -/
def Retied (net net' : Net) : Prop :=
  ∃ connections ties, net' = { net with registry := { net.registry with connections }, ties }

theorem Retied.refl (net : Net) : net.Retied net := ⟨_, _, rfl⟩

theorem Retied.trans {net'' : Net} (h : net.Retied net') (h' : net'.Retied net'') :
    net.Retied net'' := by
  obtain ⟨_, _, rfl⟩ := h
  obtain ⟨connections, ties, rfl⟩ := h'
  exact ⟨connections, ties, rfl⟩

theorem retied_untieZone (net : Net) (id : ZoneId) : net.Retied (net.untieZone id) := by
  rw [untieZone_eq, Registry.foldl_disconnect_eq]
  exact ⟨_, _, rfl⟩

theorem retied_tieZone (net : Net) (id : ZoneId) : net.Retied (net.tieZone id) := by
  cases hid : net.zones.get? id with
  | none =>
    rw [tieZone_of_get?_eq_none hid]
    exact Retied.refl net
  | some gs =>
    rw [tieZone_of_get?_eq_some hid, Registry.joinAll_eq]
    exact ⟨_, _, rfl⟩

theorem retied_tieZones (net : Net) : net.Retied net.tieZones := by
  have huntied : net.Retied (net.zones.keys.foldl untieZone net) :=
    List.foldlRecOn (motive := net.Retied) _ _ (Retied.refl net)
      fun net' h id _ => h.trans (retied_untieZone net' id)
  exact List.foldlRecOn (motive := net.Retied) _ _ huntied
    fun net' h id _ => h.trans (retied_tieZone net' id)

/-- Tied nets with the same tracks, zones and nodes have the same connections. -/
theorem Sound.values_perm {items' : Table ItemId Item} (h : net.Sound items)
    (htied : ∀ id, net.Tied id) (h' : net'.Sound items') (htied' : ∀ id, net'.Tied id)
    (hnodes : net'.registry.nodes = net.registry.nodes) (htracks : net'.tracks = net.tracks)
    (hzones : net'.zones = net.zones) :
    (net'.registry.connections.entries.map Prod.snd).Perm
      (net.registry.connections.entries.map Prod.snd) := by
  have hperm := h'.wired.copper_perm h'.matched htied'
  simp only [htracks, hzones, Polygon.contactPairs_congr (congrArg Arena.handles hnodes)
    (Registry.position?_congr hnodes)] at hperm
  exact hperm.trans (h.wired.copper_perm h.matched htied).symm

/-- The net after an update that is made whether the net is dirty or not. -/
def recomputed (net : Net) : Net := { net with dirty := true }.update

theorem Sound.recomputed (h : net.Sound items) :
    net.recomputed.Sound items ∧ net.recomputed.Settled := by
  have hdirty : { net with dirty := true }.Sound items :=
    ⟨h.mirrors.congr rfl rfl fun id => by cases id <;> rfl, h.wired.congr rfl rfl rfl, h.matched⟩
  exact ⟨hdirty.update, hdirty.settled_update rfl⟩

theorem Settled.recomputed_eq (hsettled : net.Settled) (h : net.Sound items)
    (hclean : net.dirty = false) :
    ∃ connections ties, net.recomputed =
        { net with
          registry := { net.registry with connections }, ties, updates := net.updates + 1 } ∧
      (connections.entries.map Prod.snd).Perm (net.registry.connections.entries.map Prod.snd) := by
  obtain ⟨hagain, htied, hsolved⟩ := h.recomputed
  obtain ⟨connections, ties, hties⟩ := retied_tieZones { net with dirty := true }
  have heq : net.recomputed =
      { net with
        registry := { net.registry with connections }, ties, updates := net.updates + 1,
        missing := net.recomputed.missing } := by
    rw [recomputed, update_of_dirty rfl, hties, hclean]
  -- Tracks, zones and nodes are the same, so both nets call for the same connections.
  have hperm := h.values_perm hsettled.tied hagain htied (by rw [heq]) (by rw [heq]) (by rw [heq])
  have hmissing : net.recomputed.missing = net.missing := by
    rw [hsolved, hsettled.solved]
    exact solve_congr (by rw [heq]) (by rw [heq]) (Registry.position?_congr (by rw [heq]))
      fun v => hperm.mem_iff
  rw [hmissing] at heq
  rw [heq] at hperm
  exact ⟨connections, ties, heq, hperm⟩

theorem Settled.missing_recomputed (hsettled : net.Settled) (h : net.Sound items)
    (hclean : net.dirty = false) : net.recomputed.missing = net.missing := by
  obtain ⟨_, _, heq, -⟩ := hsettled.recomputed_eq h hclean
  rw [heq]

/-- An update of a clean net finds the links that are there.  It changes nothing but the slots
of the connections, the ties, which name these slots, and the count of updates.  In whatever
slots and order the same connections are laid, the same links are found, and no operation that
leaves the net clean changes them. -/
theorem recomputed_of_clean (strategy : Strategy) (history : List Operation)
    (h : (run (empty strategy) history).dirty = false) :
    let net := run (empty strategy) history
    net.recomputed.missing = net.missing ∧
      (∃ connections ties, net.recomputed =
          { net with
            registry := { net.registry with connections }, ties, updates := net.updates + 1 } ∧
        (connections.entries.map Prod.snd).Perm (net.registry.connections.entries.map Prod.snd)) ∧
      (∀ connections : Arena Connection,
        (connections.entries.map Prod.snd).Perm (net.registry.connections.entries.map Prod.snd) →
          { net with registry := { net.registry with connections } }.solve = net.missing) ∧
      ∀ op, (net.apply op).dirty = false → (net.apply op).recomputed.missing = net.missing := by
  have hsound := sound_run strategy history
  have hsettled := settled_run strategy history h
  generalize run (empty strategy) history = net at h hsound hsettled
  refine ⟨hsettled.missing_recomputed hsound h, hsettled.recomputed_eq hsound h,
    fun connections hperm => ?_, fun op hop => ?_⟩
  · rw [hsettled.solved]
    exact solve_congr rfl rfl (fun _ => rfl) fun v => hperm.mem_iff
  · rcases hsound.apply_clean hop with ⟨hdirty, -⟩ | ⟨-, hmarks⟩
    · exact absurd hdirty (by simp [h])
    · rw [(hsettled.remarked hmarks).missing_recomputed (hsound.apply op) hop, hmarks.missing]

/-- The ties of the zone move to new slots, and a removal of nothing changes nothing. -/
theorem recomputed_padInZone :
    let net := run (empty .everyPair) padInZone
    let idle := net.apply (.remove (.pad 7))
    net.dirty = false ∧ idle.dirty = false ∧ net.recomputed.ties ≠ net.ties ∧
      net.recomputed.missing = net.missing ∧ idle.recomputed.missing = net.missing := by
  have hclean : (run (empty .everyPair) padInZone).dirty = false := by decide +kernel
  have hidle : ((run (empty .everyPair) padInZone).apply (.remove (.pad 7))).dirty = false := by
    decide +kernel
  have hties : (run (empty .everyPair) padInZone).recomputed.ties ≠
      (run (empty .everyPair) padInZone).ties := by decide +kernel
  obtain ⟨hmissing, -, -, hop⟩ := recomputed_of_clean .everyPair padInZone hclean
  exact ⟨hclean, hidle, hties, hmissing, hop _ hidle⟩

end Net
end Unrouted
