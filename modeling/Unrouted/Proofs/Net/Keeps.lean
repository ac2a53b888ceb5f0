import Unrouted.Proofs.Net.Frame
import Unrouted.Proofs.Net.Tracked

/-!
What a net keeps of an item while other items come and go: its nodes stay at their places, and
the copper of a track still joins its ends.
-/

namespace Unrouted
namespace Net

variable {net net' : Net} {items items' : Table ItemId Item} {id : ItemId}

/-- The item that an operation adds or removes. -/
def Operation.item? : Operation → Option ItemId
  | .add item => some item.id
  | .remove id => some id
  | .update | .mark _ | .clearMarks | .setVisible _ => none

theorem contribution?_tieZones (net : Net) (id : ItemId) :
    net.tieZones.contribution? id = net.contribution? id := by
  have huntied : (net.zones.keys.foldl untieZone net).contribution? id = net.contribution? id :=
    List.foldlRecOn (motive := fun net' : Net => net'.contribution? id = net.contribution? id)
      _ _ rfl fun net' h l _ => (contribution?_untieZone net' l id).trans h
  exact List.foldlRecOn (motive := fun net' : Net => net'.contribution? id = net.contribution? id)
    _ _ huntied fun net' h l _ => (contribution?_tieZone net' l id).trans h

theorem contribution?_update (net : Net) (id : ItemId) :
    net.update.contribution? id = net.contribution? id := by
  cases h : net.dirty with
  | false => rw [update_of_clean h]
  | true =>
    rw [update_of_dirty h]
    refine Eq.trans ?_ (contribution?_tieZones net id)
    cases id <;> rfl

theorem Remarked.contribution?_eq (h : net.Remarked net') (id : ItemId) :
    net'.contribution? id = net.contribution? id := by
  obtain ⟨_, _, _, _, rfl⟩ := h
  cases id <;> rfl

theorem contribution?_apply {op : Operation} (h : op.item? ≠ some id) :
    (net.apply op).contribution? id = net.contribution? id := by
  cases op with
  | add item => exact contribution?_add_of_ne fun hid => h (congrArg some hid.symm)
  | remove l =>
    exact (contribution?_remove net l id).trans (if_neg fun hid => h (congrArg some hid.symm))
  | update => exact contribution?_update net id
  | mark n => exact (remarked_mark net n).contribution?_eq id
  | clearMarks => exact (remarked_clearMarks net).contribution?_eq id
  | setVisible visible => exact (remarked_setVisible net visible).contribution?_eq id

theorem contribution?_run {ops : List Operation} (h : ∀ op ∈ ops, op.item? ≠ some id) :
    (net.run ops).contribution? id = net.contribution? id :=
  List.foldlRecOn (motive := fun net' : Net => net'.contribution? id = net.contribution? id)
    ops _ rfl fun _ hsame op hop => (contribution?_apply (h op hop)).trans hsame

/-- What is kept of an item: the nodes that it had are still its own and at their places, and
so is the connection of a track, which joins its ends. -/
structure Keeps (net net' : Net) (id : ItemId) : Prop where
  contribution : net'.contribution? id = net.contribution? id
  position : ∀ n ∈ net.nodesOf id, ∃ p,
    net.registry.position? n = some p ∧ net'.registry.position? n = some p
  connection : ∀ link, net.contribution? id = some (.link link) →
    net.registry.connection? link.connection = some (.copper (link.start, link.finish)) ∧
      net'.registry.connection? link.connection = some (.copper (link.start, link.finish))

theorem Wired.connection?_of_link (h : net.Wired) {link : TrackLink}
    (hlink : net.contribution? id = some (.link link)) :
    net.registry.connection? link.connection = some (.copper (link.start, link.finish)) := by
  cases id with
  | track id =>
    obtain ⟨_, hid, he⟩ := Option.map_eq_some_iff.1 hlink
    obtain rfl := Contribution.link.inj he
    exact h.tracks id _ hid
  | pad id | via id | zone id =>
    obtain ⟨_, -, he⟩ := Option.map_eq_some_iff.1 hlink
    exact absurd he (by simp)

/-- Both nets have the item at the places that are its own. -/
theorem Sound.keeps (h : net.Sound items) (h' : net'.Sound items')
    (hitem : items'.get? id = items.get? id)
    (hsame : net'.contribution? id = net.contribution? id) : net.Keeps net' id where
  contribution := hsame
  position n hn := by
    rw [nodesOf_eq] at hn
    cases hc : net.contribution? id with
    | none =>
      rw [hc] at hn
      exact absurd hn List.not_mem_nil
    | some c =>
      rw [hc] at hn
      obtain ⟨item, hid, hfits⟩ := h.mirrors.exists_item hc
      have hfits' := h'.mirrors.fits id c item (hsame.trans hc) (hitem.trans hid)
      have hplaces : c.nodes.map net.registry.position? = c.nodes.map net'.registry.position? :=
        hfits.1.trans hfits'.1.symm
      have hmem : net.registry.position? n ∈ item.places.map some := by
        rw [← hfits.1]
        exact List.mem_map_of_mem hn
      obtain ⟨p, -, hp⟩ := List.mem_map.1 hmem
      exact ⟨p, hp.symm, (List.map_inj_left.1 hplaces n hn).symm.trans hp.symm⟩
  connection link hlink :=
    ⟨h.wired.connection?_of_link hlink, h'.wired.connection?_of_link (hsame.trans hlink)⟩

end Net
end Unrouted
