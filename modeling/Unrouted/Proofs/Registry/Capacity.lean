import Unrouted.Proofs.Arena.Capacity
import Unrouted.Proofs.Registry.Histories

/-!
The numbers of a registry in words of 32 bits.  A registry changes each of its arenas by one
operation at a time, so the slots are as many as the nodes, or the connections, that were there
at once.  A node counts the holds of its place.
-/

namespace Unrouted

/-- What is left of a node when its holds are counted in 32 bits. -/
def Node.narrow (v : Node) : Node := { v with holds := (UInt32.ofNat v.holds).toNat }

theorem Node.narrow_eq_self {v : Node} (hholds : v.holds < 2 ^ 32) : v.narrow = v := by
  rw [narrow, UInt32.toNat_ofNat_of_lt' hholds]

namespace Registry

variable {r : Registry} {held : List Point}

/-- Nothing is lost of what is live when its indices and counts are kept in 32 bits. -/
structure Narrow (r : Registry) : Prop where
  node : ∀ n v, r.node? n = some v → n.narrow = n ∧ v.narrow = v
  connection : ∀ c l, r.connection? c = some l → c.narrow = c

theorem Carries.narrow (h : r.Carries held) (hnodes : r.nodes.slots.size ≤ 2 ^ 32)
    (hconnections : r.connections.slots.size ≤ 2 ^ 32)
    (hheld : ∀ p, held.count p < 2 ^ 32) : r.Narrow where
  node n v hv := by
    refine ⟨Arena.narrow_of_live hnodes (Arena.live_iff.2 ⟨v, hv⟩), Node.narrow_eq_self ?_⟩
    rw [h.holds n v hv]
    exact hheld v.position
  connection c l hl := Arena.narrow_of_live hconnections (Arena.live_iff.2 ⟨l, hl⟩)

/-! ## One operation -/

theorem next_nodes_create (r : Registry) (p : Point) : r.nodes.Next (r.create p).2.nodes :=
  .inr ⟨.insert { position := p, flagged := false, holds := 1 }, rfl⟩

theorem next_nodes_modifyNode (r : Registry) (n : NodeId) (f : Node → Node) :
    r.nodes.Next (r.modifyNode n f).nodes :=
  .inr ⟨.modify n f, rfl⟩

theorem next_nodes_discard (r : Registry) (n : NodeId) : r.nodes.Next (r.discard n).nodes := by
  unfold discard
  split
  · exact .inl rfl
  · exact .inr ⟨.erase n, rfl⟩

theorem next_nodes_apply (r : Registry) (op : Operation) : r.nodes.Next (r.apply op).nodes := by
  cases op with
  | hold p =>
    simp only [apply, hold]
    split
    · exact next_nodes_create r p
    · split
      · exact next_nodes_modifyNode r _ _
      · exact next_nodes_create r p
  | release n =>
    simp only [apply, release]
    split
    · exact .inl rfl
    · split
      · exact next_nodes_discard r n
      · exact next_nodes_modifyNode r n _
  | discard n => exact next_nodes_discard r n
  | connect source target weight =>
    obtain ⟨connections, heq⟩ := apply_connect r source target weight
    rw [heq]
    exact .inl rfl
  | disconnect c => exact .inl rfl
  | setFlag n flag => exact next_nodes_modifyNode r n _

theorem next_connections_apply (r : Registry) (op : Operation) :
    r.connections.Next (r.apply op).connections := by
  cases op with
  | hold p => exact .inl (connections_hold r p)
  | release n => exact .inl (connections_release r n)
  | discard n => exact .inl (connections_discard r n)
  | connect source target weight =>
    cases hlive : r.nodes.live source && r.nodes.live target with
    | true =>
      refine .inr ⟨.insert { source, target, weight }, ?_⟩
      simp only [apply, connect, hlive, if_true]
      rfl
    | false =>
      refine .inl ?_
      simp only [apply, connect, hlive]
      rfl
  | disconnect c => exact .inr ⟨.erase c, rfl⟩
  | setFlag n flag => exact .inl rfl

/-! ## Whole histories -/

/-- A registry has as many slots for nodes as it once had nodes. -/
theorem exists_full_nodes_run (history : List Operation) :
    ∃ part, part <+: history ∧
      (run empty part).nodes.size = (run empty history).nodes.slots.size :=
  Arena.exists_full_foldl apply nodes next_nodes_apply rfl history

theorem exists_full_connections_run (history : List Operation) :
    ∃ part, part <+: history ∧
      (run empty part).connections.size = (run empty history).connections.slots.size :=
  Arena.exists_full_foldl apply connections next_connections_apply rfl history

theorem narrow_run (history : List Operation)
    (hnodes : ∀ part, part <+: history → (run empty part).nodes.size ≤ 2 ^ 32)
    (hconnections : ∀ part, part <+: history → (run empty part).connections.size ≤ 2 ^ 32)
    (hholds : ∀ p, history.count (.hold p) < 2 ^ 32) : (run empty history).Narrow := by
  obtain ⟨held, hcarries, hheld⟩ := exists_carries_run .empty history
  obtain ⟨part, hpart, hfull⟩ := exists_full_nodes_run history
  obtain ⟨part', hpart', hfull'⟩ := exists_full_connections_run history
  refine hcarries.narrow (hfull ▸ hnodes part hpart) (hfull' ▸ hconnections part' hpart')
    fun p => ?_
  have hcount := hheld p
  rw [List.count_nil, Nat.zero_add] at hcount
  exact Nat.lt_of_le_of_lt hcount (hholds p)

/-! ## Places that are held one after another -/

/-- Each node has a place of its own among those that are held. -/
theorem Carries.size_nodes_le (h : r.Carries held) : r.nodes.size ≤ held.length := by
  have hheld : (r.nodes.entries.map fun e => e.2.position) ⊆ held := by
    intro p hp
    obtain ⟨⟨n, v⟩, he, rfl⟩ := List.mem_map.1 hp
    exact h.mem_of_position? (position?_eq_some.2 ⟨v, Arena.mem_entries.1 he, rfl⟩)
  have hlength := (List.subperm_of_subset h.nodup_positions hheld).length_le
  rwa [List.length_map, ← h.nodes.size_eq] at hlength

theorem Carries.size_slots_holds (h : r.Carries held) (places : List Point) :
    (r.run (places.map .hold)).nodes.slots.size ≤
      max r.nodes.slots.size (held.length + places.length) := by
  induction places generalizing r held with
  | nil => exact Nat.le_max_left _ _
  | cons p rest ih =>
    have hheld := h.hold p
    have hslots := (next_nodes_apply r (.hold p)).size_slots h.nodes
    have hsize := hheld.size_nodes_le
    have hrest := ih hheld
    simp only [apply, List.length_cons] at hslots hsize hrest ⊢
    show (((r.hold p).2).run (rest.map .hold)).nodes.slots.size ≤ _
    omega

end Registry
end Unrouted
