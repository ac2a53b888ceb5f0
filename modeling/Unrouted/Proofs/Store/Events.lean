import Unrouted.Store.History
import Mathlib.Data.List.Induction

/-!
What a history of a store comes to, item by item.  Every operation places items and drops
items, and the last of these events that concerns an item decides whether it is tracked.
-/

namespace Unrouted

/-- The nets that items can be tracked on.  Net zero is none of them. -/
def Options.Routes (o : Options) (code : NetCode) : Prop :=
  code ≠ noNet ∧ code ≤ o.maxNet ∧ code ≠ lastNet

instance (o : Options) (code : NetCode) : Decidable (o.Routes code) :=
  inferInstanceAs (Decidable (_ ∧ _ ∧ _))

/-- The item is on the net with the number `i`. -/
def Item.isOn (item : Item) (i : Nat) : Bool := decide (item.net.toNat = i)

inductive Event where
  | place (item : Item)
  | drop (id : ItemId)
  | dropAll
deriving DecidableEq

namespace Event

variable {options : Options} {items : Table ItemId Item} {events : List Event} {id : ItemId}

def concerns (id : ItemId) : Event → Bool
  | place item => decide (item.id = id)
  | drop l => decide (l = id)
  | dropAll => true

/-- What the event does to the tracked items.  An item that is placed where no item can be
tracked is dropped. -/
def track (options : Options) (items : Table ItemId Item) : Event → Table ItemId Item
  | place item =>
    if options.Routes item.net then items.insert item.id item else items.erase item.id
  | drop id => items.erase id
  | dropAll => .empty

/-- The item that an event leaves tracked. -/
def item? (options : Options) : Event → Option Item
  | place item => if options.Routes item.net then some item else none
  | drop _ => none
  | dropAll => none

theorem item?_eq_some_iff {e : Event} {item : Item} :
    e.item? options = some item ↔ e = place item ∧ options.Routes item.net := by
  cases e with
  | place other =>
    simp only [item?, Option.ite_none_right_eq_some, Option.some.injEq, place.injEq]
    constructor
    · intro h
      obtain ⟨hroutes, rfl⟩ := h
      exact ⟨rfl, hroutes⟩
    · intro h
      obtain ⟨rfl, hroutes⟩ := h
      exact ⟨hroutes, rfl⟩
  | drop l => simp [item?]
  | dropAll => simp [item?]

/-- The last event that concerns an item. -/
def last? (events : List Event) (id : ItemId) : Option Event :=
  (events.filter (·.concerns id)).getLast?

theorem get?_track (options : Options) (items : Table ItemId Item) (e : Event) (id : ItemId) :
    (e.track options items).get? id =
      if e.concerns id then e.item? options else items.get? id := by
  cases e with
  | place item =>
    simp only [track, concerns, item?, decide_eq_true_eq, eq_comm (a := item.id)]
    split
    · rw [Table.get?_insert]
    · rw [Table.get?_erase]
  | drop l =>
    simp only [track, concerns, item?, decide_eq_true_eq, eq_comm (a := l), Table.get?_erase]
  | dropAll => simp [track, concerns, item?]

/-- The last event of an item decides. -/
theorem get?_foldl_track (options : Options) (events : List Event) (id : ItemId) :
    (events.foldl (track options) .empty).get? id = (last? events id).bind (item? options) := by
  induction events using List.reverseRecOn with
  | nil => rfl
  | append_singleton events e ih =>
    rw [List.foldl_append, List.foldl_cons, List.foldl_nil, get?_track, ih, last?, last?,
      List.filter_append]
    cases he : e.concerns id with
    | true => simp [he]
    | false => simp [he]

/-- Placing an item forgets what was tracked under its name. -/
theorem track_place_erase (options : Options) (items : Table ItemId Item) (item : Item) :
    (place item).track options (items.erase item.id) = (place item).track options items := by
  simp only [track]
  split
  · exact Table.insert_erase items item.id item
  · exact Table.erase_of_get?_eq_none (Table.get?_erase_self items item.id)

end Event

namespace Store

/-- What an operation asks of single items.  A module places the pads that it lists and
drops those that it listed before. -/
def events (s : Store) : Operation → List Event
  | .load board => .dropAll :: board.items.map .place
  | .add item => [.place item]
  | .update item => [.place item]
  | .remove id => [.drop id]
  | .updateModule m =>
    let current := m.pads.map Pad.id
    let dropped := ((s.modules.get? m.id).getD []).filter fun p => !current.contains p
    dropped.map (fun p => .drop (.pad p)) ++ m.pads.map fun p => .place (.pad p)
  | .removeModule id => ((s.modules.get? id).getD []).map fun p => .drop (.pad p)
  | .recalculate _ => []
  | .mark _ => []
  | .markModule _ => []
  | .clearMarks => []
  | .setVisible _ _ => []

def eventsOf (s : Store) : List Operation → List Event
  | [] => []
  | op :: rest => s.events op ++ (s.apply op).eventsOf rest

/-- The items that are tracked after a history. -/
def tracked (options : Options) (history : List Operation) : Table ItemId Item :=
  ((empty options).eventsOf history).foldl (Event.track options) .empty

end Store
end Unrouted
