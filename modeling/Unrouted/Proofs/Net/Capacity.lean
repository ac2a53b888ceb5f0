import Unrouted.Proofs.Net.Ages
import Unrouted.Proofs.Registry.Capacity

/-!
The numbers of a net in words of 32 bits.  A net has a slot for a node only if its items once
held as many places, so indices and counts are whole as long as the items never hold `2 ^ 32`
places.  A connection takes a slot of its own, for a track or for a node in a zone.
-/

namespace Unrouted
namespace Net

variable {net : Net} {items : Table ItemId Item}

/-- Only an item that is added can take new slots, as many as there are places then. -/
theorem Sound.size_slots_apply (h : net.Sound items) (op : Operation) :
    (net.apply op).registry.nodes.slots.size ≤
      max net.registry.nodes.slots.size ((op.track items).values.flatMap Item.places).length := by
  by_cases hadd : ∃ item, op = .add item
  · obtain ⟨item, rfl⟩ := hadd
    have hremoved := (h.remove item.id).mirrors.carries
    have hslots := hremoved.size_slots_holds item.places
    rw [← nodes_attach hremoved, (thinned_remove net item.id).size, List.nil_append,
      ← List.length_append] at hslots
    rwa [Net.apply, add_eq, Operation.track, Table.values_insert, List.flatMap_append,
      List.flatMap_singleton]
  · rw [(thinned_apply fun item hop => hadd ⟨item, hop⟩).size]
    exact Nat.le_max_left _ _

theorem Sound.size_slots_run (h : net.Sound items) {n : Nat}
    (hroom : net.registry.nodes.slots.size ≤ n) {history : List Operation}
    (hplaces : ∀ part, part <+: history →
      ((part.foldl Operation.track items).values.flatMap Item.places).length ≤ n) :
    (net.run history).registry.nodes.slots.size ≤ n := by
  induction history generalizing net items with
  | nil => exact hroom
  | cons op rest ih =>
    have hfirst := hplaces [op] (List.cons_prefix_cons.2 ⟨rfl, List.nil_prefix⟩)
    refine ih (h.apply op) ?_ fun part hpart =>
      hplaces (op :: part) (List.cons_prefix_cons.2 ⟨rfl, hpart⟩)
    exact Nat.le_trans (h.size_slots_apply op) (Nat.max_le.2 ⟨hroom, hfirst⟩)

/-- A net never has more slots for nodes than its items once held places. -/
theorem size_slots_run (strategy : Strategy) {history : List Operation} {n : Nat}
    (hplaces : ∀ part, part <+: history →
      ((tracked part).values.flatMap Item.places).length ≤ n) :
    (run (empty strategy) history).registry.nodes.slots.size ≤ n :=
  (Sound.empty strategy).size_slots_run (Nat.zero_le n) hplaces

theorem narrow_run (strategy : Strategy) {history : List Operation}
    (hplaces : ∀ part, part <+: history →
      ((tracked part).values.flatMap Item.places).length < 2 ^ 32)
    (hconnections :
      (run (empty strategy) history).registry.connections.slots.size ≤ 2 ^ 32) :
    (run (empty strategy) history).registry.Narrow := by
  have hslots := size_slots_run strategy fun part hpart => Nat.le_of_lt (hplaces part hpart)
  refine (sound_run strategy history).mirrors.carries.narrow hslots hconnections fun p => ?_
  exact Nat.lt_of_le_of_lt List.count_le_length (hplaces history (List.prefix_refl history))

end Net
end Unrouted
