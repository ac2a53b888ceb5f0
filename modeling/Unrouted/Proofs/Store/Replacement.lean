import Unrouted.Proofs.Store.Frame

/-!
An item that is placed again replaces itself.  Its net gives up the old contribution before it
takes up the new one, so nothing is gained by taking the item out of the store first: both ways
lead to the same store, down to the slots of its nodes.
-/

namespace Unrouted

/-- A net gives up an item once. -/
theorem Net.Sound.add_remove {net : Net} {items : Table ItemId Item} (h : net.Sound items)
    (item : Item) : (net.remove item.id).add item = net.add item := by
  have hagain : (net.remove item.id).remove item.id = net.remove item.id :=
    (h.remove item.id).remove_of_get?_eq_none (Table.get?_erase_self items item.id)
  rw [add_eq, hagain, ← add_eq]

namespace Store

variable {options : Options} {s : Store} {items : Table ItemId Item} {item : Item}
  {code : NetCode}

/-- There is room already for a net that is there. -/
theorem reach?_of_lt (hroutes : s.options.Routes code) (hthere : code.toNat < s.nets.size) :
    s.reach? code = some s := by
  have hnone : code.toNat + 1 - s.nets.size = 0 := Nat.sub_eq_zero_of_le hthere
  rw [Files.reach?_eq_some_iff]
  refine ⟨hroutes.2.1, hroutes.2.2, ?_⟩
  rw [hnone, Array.replicate_zero, Array.append_empty]

/-- An item that is on no other net is placed on its net, when that is there. -/
theorem add_of_lt (hroutes : s.options.Routes item.net) (hthere : item.net.toNat < s.nets.size)
    (hstays : s.vacated item = s) :
    s.add item =
      { s.modifyNet item.net fun net => net.add item with
        itemNets := s.itemNets.insert item.id item.net } := by
  rw [add_eq, if_neg hroutes.1, hstays, reach?_of_lt hroutes hthere]

/-- What a store does with an item that it is given depends on the vacated store only. -/
theorem add_congr {t : Store} (h : s.vacated item = t.vacated item) : s.add item = t.add item := by
  rw [add_eq, add_eq, h]

theorem vacated_remove (s : Store) (item : Item) :
    (s.remove item.id).vacated item = s.remove item.id := by
  have hgone : (s.remove item.id).itemNet? item.id = none := by
    rw [itemNet?_remove, if_pos rfl]
  simp [vacated, hgone]

namespace Files

/-- An item that stays on its net.  The net is there and takes the item anew, and the table
gets the same entry. -/
theorem add_remove_of_stays (h : s.Files options items)
    (hid : s.itemNet? item.id = some item.net) : (s.remove item.id).add item = s.add item := by
  obtain ⟨old, hold, hnet⟩ := h.itemNet?_eq_some.1 hid
  obtain ⟨hroutes, hthere⟩ := h.routed item.id old hold
  rw [hnet, ← h.options_eq] at hroutes
  rw [hnet] at hthere
  have hstays : s.vacated item = s := by simp [Store.vacated, hid]
  have hroutes' : (s.remove item.id).options.Routes item.net := by
    rw [options_remove]
    exact hroutes
  have hthere' : item.net.toNat < (s.remove item.id).nets.size := by
    rw [remove_of_itemNet?_eq_some hid, size_modifyNet]
    exact hthere
  have htwice : (s.modifyNet item.net fun net => net.remove item.id).modifyNet item.net
      (fun net => net.add item) = s.modifyNet item.net fun net => net.add item := by
    rw [modifyNet_modifyNet]
    apply modifyNet_congr
    intro net hfound
    obtain ⟨history, rfl, -⟩ := h.nets item.net.toNat net hfound
    exact (Net.sound_run options.strategy history).add_remove item
  rw [add_of_lt hroutes' hthere' (vacated_remove s item), add_of_lt hroutes hthere hstays,
    remove_of_itemNet?_eq_some hid, ← htwice]
  show { s with nets := _, itemNets := (s.itemNets.erase item.id).insert item.id item.net } = _
  rw [Table.insert_erase]
  rfl

theorem add_eq_update (h : s.Files options items) (item : Item) : s.add item = s.update item := by
  cases hid : s.itemNet? item.id with
  | none => rw [Store.update, remove_of_itemNet?_eq_none hid]
  | some code =>
    by_cases hcode : code = item.net
    · subst hcode
      exact (h.add_remove_of_stays hid).symm
    · -- Either way the item leaves its old net first.
      have hleaves : s.vacated item = s.remove item.id := by simp [Store.vacated, hid, hcode]
      exact add_congr (hleaves.trans (vacated_remove s item).symm)

end Files

/-- The operations are the same, or both place one item. -/
inductive Operation.Interchange : Operation → Operation → Prop
  | same (op : Operation) : Interchange op op
  | updated (item : Item) : Interchange (.add item) (.update item)
  | added (item : Item) : Interchange (.update item) (.add item)

/-- Takes every item out before it is placed. -/
def Operation.takingOut : Operation → Operation
  | .add item => .update item
  | op => op

theorem Operation.interchange_takingOut (history : List Operation) :
    List.Forall₂ Interchange history (history.map takingOut) := by
  rw [List.forall₂_map_right_iff, List.forall₂_same]
  intro op _
  cases op with
  | add item => exact .updated item
  | _ => exact .same _

theorem Files.apply_interchange {op op' : Operation} (h : s.Files options items)
    (hop : op.Interchange op') : s.apply op = s.apply op' := by
  cases hop with
  | same => rfl
  | updated item => exact h.add_eq_update item
  | added item => exact (h.add_eq_update item).symm

theorem Files.run_interchange {history history' : List Operation} (h : s.Files options items)
    (hops : List.Forall₂ Operation.Interchange history history') :
    s.run history = s.run history' := by
  induction hops generalizing s items with
  | nil => rfl
  | cons hop _ ih =>
    rw [Store.run, List.foldl_cons, h.apply_interchange hop]
    exact ih (h.apply _)

/-- Placing an item and updating it lead from every store that a history leaves to the same store.
Each net then has the contributions of the items that are filed there, each of them once, and none
besides.  So a history may place an item in either way wherever it places one. -/
theorem interchangeable_run (options : Options) (history : List Operation) :
    let s := run (empty options) history
    (∀ item, s.add item = s.update item) ∧
      (∀ item code, ∃ filed : Table ItemId Item, ((s.add item).netAt code).Sound filed ∧
        ∀ id, filed.get? id = (((Event.place item).track options (tracked options history)).get?
          id).filter (·.isOn code.toNat)) ∧
      ∀ history', List.Forall₂ Operation.Interchange history history' →
        run (empty options) history' = s := by
  have hfiles := files_run options history
  refine ⟨hfiles.add_eq_update, fun item code => (hfiles.add item).soundAt code,
    fun history' hops => ?_⟩
  exact ((Files.empty options).run_interchange hops).symm

/-- A pad that is placed again, moves to another net and leaves that for net zero, next to a
track that shares its node, and a via on a net that is not accepted. -/
def placedAgain : List Operation :=
  [.add (.pad { id := 1, net := 1, position := ⟨2, 2⟩ }),
    .add (.track { id := 1, net := 1, start := ⟨2, 2⟩, finish := ⟨7, 1⟩ }),
    .add (.pad { id := 1, net := 1, position := ⟨2, 2⟩ }),
    .add (.track { id := 1, net := 1, start := ⟨2, 2⟩, finish := ⟨9, 9⟩ }),
    .add (.pad { id := 1, net := 3, position := ⟨2, 2⟩ }),
    .add (.via { id := 6, net := 100, position := ⟨3, 3⟩ }),
    .add (.pad { id := 1, net := 0, position := ⟨2, 2⟩ })]

/-- The first node is left to the track, which holds it once. -/
theorem interchangeable_placedAgain :
    let options : Options := { parallelThreshold := 4, strategy := .everyPair, maxNet := 9 }
    let explicit := placedAgain.map Operation.takingOut
    List.Forall₂ Operation.Interchange placedAgain explicit ∧
      run (empty options) explicit = run (empty options) placedAgain ∧
      (run (empty options) placedAgain).nets.size = 4 ∧
      (((run (empty options) placedAgain).netAt 1).registry.node?
        { index := 0, generation := 0 }).map Node.holds = some 1 := by
  let options : Options := { parallelThreshold := 4, strategy := .everyPair, maxNet := 9 }
  have hops := Operation.interchange_takingOut placedAgain
  obtain ⟨-, -, hsame⟩ := interchangeable_run options placedAgain
  exact ⟨hops, hsame _ hops, by decide +kernel, by decide +kernel⟩

end Store
end Unrouted
