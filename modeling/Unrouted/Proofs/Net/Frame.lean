import Unrouted.Proofs.Net.Items

/-!
What adding and removing items leaves alone: the strategy, the missing links of the last
update, whether the net is shown, and how often it was updated; and what the net keeps of all
other items.
-/

namespace Unrouted
namespace Net

/-- The part of a net that its items have nothing to do with. -/
structure Frame where
  strategy : Strategy
  missing : List MissingLink
  visible : Bool
  updates : Nat

def frame (net : Net) : Frame :=
  { strategy := net.strategy, missing := net.missing, visible := net.visible,
    updates := net.updates }

theorem frame_untieZone (net : Net) (id : ZoneId) : (net.untieZone id).frame = net.frame := by
  unfold untieZone
  split <;> rfl

theorem frame_tieZone (net : Net) (id : ZoneId) : (net.tieZone id).frame = net.frame := by
  unfold tieZone
  split <;> rfl

theorem frame_release (net : Net) (n : NodeId) : (net.release n).frame = net.frame := by
  rw [release_eq]
  split <;> rfl

theorem frame_detach (net : Net) (id : ItemId) : (net.detach id).frame = net.frame := by
  cases id with
  | pad id => rfl
  | via id => rfl
  | track id => simp only [detach]; split <;> rfl
  | zone id => exact frame_untieZone net id

theorem frame_attach (net : Net) (item : Item) : (net.attach item).frame = net.frame := by
  cases item with
  | pad pad => rfl
  | via via => rfl
  | track track => simp only [attach]; split <;> rfl
  | zone zone => exact frame_tieZone _ zone.id

theorem frame_remove (net : Net) (id : ItemId) : (net.remove id).frame = net.frame := by
  cases hc : net.contribution? id with
  | none => rw [remove_of_contribution?_eq_none hc, frame_detach]
  | some c =>
    rw [remove_of_contribution?_eq_some hc]
    exact List.foldlRecOn (motive := fun net' : Net => net'.frame = net.frame) c.nodes _
      (frame_detach net id) fun net' h n _ => (frame_release net' n).trans h

theorem frame_add (net : Net) (item : Item) : (net.add item).frame = net.frame := by
  rw [add_eq, frame_attach, frame_remove]

/-! ## Other items -/

theorem contribution?_remove (net : Net) (id l : ItemId) :
    (net.remove id).contribution? l = if l = id then none else net.contribution? l := by
  rw [← contribution?_detach]
  cases hc : net.contribution? id with
  | none => rw [remove_of_contribution?_eq_none hc]
  | some c =>
    rw [remove_of_contribution?_eq_some hc]
    have hreleased : (c.nodes.foldl release (net.detach id)).contribution? l =
        (net.detach id).contribution? l :=
      List.foldlRecOn (motive := fun net' : Net =>
        net'.contribution? l = (net.detach id).contribution? l) c.nodes _ rfl
        fun net' h n _ => (contribution?_release net' n l).trans h
    rw [← hreleased]
    cases l <;> rfl

theorem contribution?_attach_of_ne {net : Net} {item : Item} {l : ItemId} (h : l ≠ item.id) :
    (net.attach item).contribution? l = net.contribution? l := by
  cases item with
  | pad pad =>
    cases l with
    | pad l =>
      have hother : l ≠ pad.id := fun hl => h (congrArg ItemId.pad hl)
      exact congrArg (Option.map _) (Table.get?_insert_of_ne net.pads _ hother)
    | _ => rfl
  | via via =>
    cases l with
    | via l =>
      have hother : l ≠ via.id := fun hl => h (congrArg ItemId.via hl)
      exact congrArg (Option.map _) (Table.get?_insert_of_ne net.vias _ hother)
    | _ => rfl
  | track track =>
    simp only [attach]
    split
    · rfl
    · cases l with
      | track l =>
        have hother : l ≠ track.id := fun hl => h (congrArg ItemId.track hl)
        exact congrArg (Option.map _) (Table.get?_insert_of_ne net.tracks _ hother)
      | _ => rfl
  | zone zone =>
    have htied : (net.attach (.zone zone)).contribution? l = (net.placed zone).contribution? l := by
      rw [← contribution?_tieZone (net.placed zone) zone.id l, attach_zone]
      cases l <;> rfl
    rw [htied]
    cases l with
    | zone l =>
      have hother : l ≠ zone.id := fun hl => h (congrArg ItemId.zone hl)
      exact congrArg (Option.map _) (Table.get?_insert_of_ne net.zones _ hother)
    | _ => rfl

theorem contribution?_add_of_ne {net : Net} {item : Item} {l : ItemId} (h : l ≠ item.id) :
    (net.add item).contribution? l = net.contribution? l := by
  rw [add_eq, contribution?_attach_of_ne h, contribution?_remove, if_neg h]

end Net
end Unrouted
