import Unrouted.Proofs.Net.Keeps
import Unrouted.Proofs.Store.Listings
import Unrouted.Proofs.Store.Modules

/-!
A module that is updated.  Its pads go to the nets that it lists them on, the pads that it
lists no longer go, and nothing else does.  The same update once more changes nothing.
-/

namespace Unrouted

theorem Event.last?_map_drop (ids : List ItemId) (id : ItemId) :
    last? (ids.map drop) id = if id ∈ ids then some (drop id) else none := by
  induction ids using List.reverseRecOn with
  | nil => rfl
  | append_singleton before l ih =>
    rw [List.map_append, List.map_singleton, last?_append, ih]
    by_cases hl : l = id
    · simp [last?, concerns, hl]
    · simp [last?, concerns, hl, Ne.symm hl]

namespace Store

variable {options : Options} {s t : Store} {m : Module} {id : ItemId} {code : NetCode}

/-- The item is a pad that the module lists now or listed before. -/
def Touches (s : Store) (m : Module) (id : ItemId) : Prop :=
  ∃ p, id = .pad p ∧ (p ∈ m.pads.map Pad.id ∨ p ∈ s.padsOf m.id)

/-! ## Items -/

theorem events_updateModule (s : Store) (m : Module) :
    s.events (.updateModule m) = ((s.dropped m).map ItemId.pad).map Event.drop ++
      (m.pads.map Item.pad).map Event.place := by
  rw [List.map_map, List.map_map]
  rfl

/-- The last listing of an item counts.  An item that was dropped is tracked no more, and every
other one as before. -/
theorem get?_tracked_updateModule (options : Options) (history : List Operation) (m : Module)
    (id : ItemId) :
    (tracked options (history ++ [.updateModule m])).get? id =
      match lastListed? (m.pads.map Item.pad) id with
      | some item => if options.Routes item.net then some item else none
      | none =>
        if id ∈ ((run (empty options) history).dropped m).map ItemId.pad then none
        else (tracked options history).get? id := by
  rw [tracked, tracked, Event.get?_foldl_track, Event.get?_foldl_track, eventsOf_append, eventsOf,
    eventsOf, List.append_nil, events_updateModule, Event.last?_append, Event.last?_append,
    Event.last?_map_place, Event.last?_map_drop]
  cases lastListed? (m.pads.map Item.pad) id with
  | some item => simp [Event.item?]
  | none =>
    rw [Option.map_none, Option.none_or]
    split
    · rfl
    · rw [Option.none_or]

theorem exists_lastListed? {pad : Pad} (h : pad ∈ m.pads) :
    ∃ item, lastListed? (m.pads.map Item.pad) (.pad pad.id) = some item := by
  rw [← Option.ne_none_iff_exists', lastListed?, ne_eq, List.getLast?_eq_none_iff]
  refine List.ne_nil_of_mem (List.mem_filter.2 ⟨List.mem_map_of_mem h, ?_⟩)
  exact decide_eq_true rfl

theorem lastListed?_eq_none (h : ∀ pad ∈ m.pads, id ≠ .pad pad.id) :
    lastListed? (m.pads.map Item.pad) id = none := by
  rw [lastListed?, List.getLast?_eq_none_iff, List.filter_eq_nil_iff]
  intro item hitem
  obtain ⟨pad, hpad, rfl⟩ := List.mem_map.1 hitem
  exact fun hid => h pad hpad (of_decide_eq_true hid).symm

theorem run_concat (s : Store) (history : List Operation) (op : Operation) :
    s.run (history ++ [op]) = (s.run history).apply op := by
  rw [run, List.foldl_append]
  rfl

theorem files_updateModule (options : Options) (history : List Operation) (m : Module) :
    ((run (empty options) history).updateModule m).Files options
      (tracked options (history ++ [.updateModule m])) := by
  have hfiles := files_run options (history ++ [.updateModule m])
  rwa [run_concat] at hfiles

/-- The nets of the items once the module is updated. -/
theorem itemNet?_updateModule (options : Options) (history : List Operation) (m : Module)
    (id : ItemId) :
    let s := run (empty options) history
    (s.updateModule m).itemNet? id =
      match lastListed? (m.pads.map Item.pad) id with
      | some item => if options.Routes item.net then some item.net else none
      | none => if id ∈ (s.dropped m).map ItemId.pad then none else s.itemNet? id := by
  have hafter := (files_updateModule options history m).itemNet id
  rw [get?_tracked_updateModule] at hafter
  refine hafter.trans ?_
  cases lastListed? (m.pads.map Item.pad) id with
  | some item => exact apply_ite (Option.map Item.net) _ _ _
  | none =>
    rw [(files_run options history).itemNet]
    exact apply_ite (Option.map Item.net) _ _ _

/-! ## Lists and numbers of nets -/

theorem get?_modules_updateModule (s : Store) (m : Module) (n : ModuleId) :
    (s.updateModule m).modules.get? n =
      if n = m.id then some (m.pads.map Pad.id)
      else (s.modules.get? n).map fun pads =>
        pads.filter fun p => !(m.pads.map Pad.id).contains p := by
  have hmodules : (s.updateModule m).modules =
      Listing.apply s.modules (.renew m.id (m.pads.map Pad.id)) := modules_apply s (.updateModule m)
  rw [hmodules, Listing.apply, Table.get?_insert, Table.get?_mapValues]
  split <;> rfl

/-- A module that lists the same pads again drops none of them. -/
theorem dropped_updateModule (s : Store) (m : Module) : (s.updateModule m).dropped m = [] := by
  rw [dropped, get?_modules_updateModule, if_pos rfl, Option.getD_some, List.filter_eq_nil_iff]
  intro p hp
  simp [hp]

theorem get?_modules_again (s : Store) (m : Module) (n : ModuleId) :
    ((s.updateModule m).updateModule m).modules.get? n = (s.updateModule m).modules.get? n := by
  rw [get?_modules_updateModule, get?_modules_updateModule]
  split
  · rfl
  · rw [Option.map_map]
    congr 1
    funext pads
    rw [Function.comp_apply, List.filter_filter]
    simp only [Bool.and_self]

theorem options_update (s : Store) (item : Item) : (s.update item).options = s.options :=
  (options_add _ item).trans (options_remove s item.id)

theorem size_update (s : Store) (item : Item) : (s.update item).nets.size =
    if s.options.Routes item.net then max s.nets.size (item.net.toNat + 1) else s.nets.size := by
  rw [update, size_add, options_remove, size_remove]

theorem size_foldl_update_le {items : List Item} {n : Nat} :
    (items.foldl update s).nets.size ≤ n ↔
      s.nets.size ≤ n ∧ ∀ item ∈ items, s.options.Routes item.net → item.net.toNat < n := by
  induction items generalizing s with
  | nil => simp
  | cons item rest ih =>
    rw [List.foldl_cons, ih, options_update, size_update, List.forall_mem_cons, ← and_assoc]
    refine and_congr_left fun _ => ?_
    split
    · rename_i hroutes
      simp only [hroutes, forall_const, Nat.max_le, Nat.succ_le_iff]
    · rename_i hroutes
      simp only [hroutes, false_implies, and_true]

theorem size_foldl_remove (s : Store) (ids : List ItemId) :
    (ids.foldl remove s).nets.size = s.nets.size :=
  List.foldlRecOn (motive := fun t : Store => t.nets.size = s.nets.size) ids _ rfl
    fun t ht id _ => (size_remove t id).trans ht

theorem size_updateModule_le {n : Nat} :
    (s.updateModule m).nets.size ≤ n ↔ s.nets.size ≤ n ∧
      ∀ item ∈ m.pads.map Item.pad, s.options.Routes item.net → item.net.toNat < n := by
  rw [updateModule_eq, size_foldl_update_le, size_foldl_remove, options_foldl_remove]
  rfl

theorem options_updateModule (s : Store) (m : Module) :
    (s.updateModule m).options = s.options := by
  rw [updateModule_eq]
  exact List.foldlRecOn (motive := fun t : Store => t.options = s.options) _ _
    (options_foldl_remove (s.listed m) _) fun t ht item _ => (options_update t item).trans ht

/-- There is room for the pads already. -/
theorem size_again (s : Store) (m : Module) :
    ((s.updateModule m).updateModule m).nets.size = (s.updateModule m).nets.size := by
  refine Nat.le_antisymm (size_updateModule_le.2 ⟨Nat.le_refl _, ?_⟩)
    (size_updateModule_le.1 (Nat.le_refl _)).1
  rw [options_updateModule]
  exact (size_updateModule_le.1 (Nat.le_refl _)).2

/-! ## Nets -/

theorem mem_along {α : Type} {step : Store → α → Store} {asks : Store → α → List Net.Operation}
    {xs : List α} {op : Net.Operation} (h : op ∈ along step asks s xs) :
    ∃ t, ∃ x ∈ xs, op ∈ asks t x := by
  induction xs generalizing s with
  | nil => exact absurd h List.not_mem_nil
  | cons x rest ih =>
    rcases List.mem_append.1 h with hhere | hrest
    · exact ⟨s, x, List.mem_cons_self, hhere⟩
    · obtain ⟨t, y, hy, hop⟩ := ih hrest
      exact ⟨t, y, List.mem_cons_of_mem x hy, hop⟩

theorem item?_of_mem_removal {op : Net.Operation} (h : op ∈ s.removal code id) :
    op.item? = some id := by
  unfold removal at h
  split at h
  · rw [List.mem_singleton.1 h]
    rfl
  · exact absurd h List.not_mem_nil

theorem item?_of_mem_replacement {item : Item} {op : Net.Operation}
    (h : op ∈ s.replacement code item) : op.item? = some item.id := by
  rcases List.mem_append.1 h with hremoval | hplacement
  · exact item?_of_mem_removal hremoval
  · unfold placement at hplacement
    split at hplacement
    · split at hplacement
      · rw [List.mem_singleton.1 hplacement]
        rfl
      · exact absurd hplacement List.not_mem_nil
    · exact item?_of_mem_removal hplacement

/-- The nets are only asked to add and remove pads of the module. -/
theorem item?_of_mem_netOps {op : Net.Operation} (h : op ∈ s.netOps code (.updateModule m)) :
    ∃ id, op.item? = some id ∧ s.Touches m id := by
  rcases List.mem_append.1 h with hgone | hlisted
  · obtain ⟨_, id, hid, hop⟩ := mem_along hgone
    obtain ⟨p, hp, rfl⟩ := List.mem_map.1 hid
    exact ⟨_, item?_of_mem_removal hop, p, rfl, .inr (List.mem_filter.1 hp).1⟩
  · obtain ⟨_, item, hitem, hop⟩ := mem_along hlisted
    obtain ⟨pad, hpad, rfl⟩ := List.mem_map.1 hitem
    exact ⟨_, item?_of_mem_replacement hop, pad.id, rfl, .inl (List.mem_map_of_mem hpad)⟩

/-- Where the same items are filed, the nets have the same nodes with as many holds. -/
theorem Files.census_perm {options' : Options} {items items' : Table ItemId Item}
    (h : s.Files options items) (h' : t.Files options' items')
    (hitems : ∀ id, items.get? id = items'.get? id) (code : NetCode) :
    (s.netAt code).census.Perm (t.netAt code).census := by
  obtain ⟨filed, hsound, hfiled⟩ := h.soundAt code
  obtain ⟨filed', hsound', hfiled'⟩ := h'.soundAt code
  have hsame : ∀ id, filed.get? id = filed'.get? id := fun id => by
    rw [hfiled, hfiled', hitems]
  have hvalues : filed.values.Perm filed'.values := (Table.entries_perm_iff.2 hsame).map Prod.snd
  exact hsound.census_perm hsound' (hvalues.flatMap_right Item.places)

/-! ## The update of a module -/

/-- What becomes of a store when a module is updated. -/
structure Renewed (s : Store) (m : Module) (t : Store) : Prop where
  /-- Each listed pad is on the net of its last listing, or nowhere if no item can be tracked
  there. -/
  listed : ∀ pad ∈ m.pads, ∃ item,
    lastListed? (m.pads.map Item.pad) (.pad pad.id) = some item ∧
      t.Tracks (.pad pad.id) (if s.options.Routes item.net then some item.net else none)
  dropped : ∀ p ∈ s.padsOf m.id, p ∉ m.pads.map Pad.id → t.Tracks (.pad p) none
  list : t.modules.get? m.id = some (m.pads.map Pad.id)
  /-- The other modules lose the pads that are listed, and no others. -/
  others : ∀ n, n ≠ m.id →
    t.padsOf n = (s.padsOf n).filter fun p => decide (p ∉ m.pads.map Pad.id)
  itemNet : ∀ id, ¬s.Touches m id → t.itemNet? id = s.itemNet? id
  keeps : ∀ id, ¬s.Touches m id → ∀ code, (s.netAt code).Keeps (t.netAt code) id

/-- Items are on the same nets, modules have the same lists, and the nets have the same nodes
with as many holds. -/
structure Unmoved (s t : Store) : Prop where
  itemNet : ∀ id, t.itemNet? id = s.itemNet? id
  modules : ∀ n, t.modules.get? n = s.modules.get? n
  size : t.nets.size = s.nets.size
  census : ∀ code, (t.netAt code).census.Perm (s.netAt code).census

theorem padsOf_updateModule_of_ne {n : ModuleId} (s : Store) (h : n ≠ m.id) :
    (s.updateModule m).padsOf n =
      (s.padsOf n).filter fun p => decide (p ∉ m.pads.map Pad.id) := by
  rw [padsOf, get?_modules_updateModule, if_neg h, padsOf]
  cases s.modules.get? n with
  | none => rfl
  | some pads => simp only [Option.map_some, Option.getD_some, List.contains_eq_mem, decide_not]

theorem lastListed?_of_not_touches (h : ¬s.Touches m id) :
    lastListed? (m.pads.map Item.pad) id = none :=
  lastListed?_eq_none fun pad hpad hid => h ⟨pad.id, hid, .inl (List.mem_map_of_mem hpad)⟩

theorem not_mem_dropped_of_not_touches (h : ¬s.Touches m id) :
    id ∉ (s.dropped m).map ItemId.pad := by
  intro hid
  obtain ⟨p, hp, rfl⟩ := List.mem_map.1 hid
  exact h ⟨p, rfl, .inr (List.mem_filter.1 hp).1⟩

theorem tracks_of_itemNet? {items : Table ItemId Item} {net : Option NetCode}
    (h : s.Files options items) (hnet : s.itemNet? id = net) : s.Tracks id net :=
  hnet ▸ tracks_of_files h id

theorem tracks_of_lastListed? (options : Options) (history : List Operation) {item : Item}
    (h : lastListed? (m.pads.map Item.pad) id = some item) :
    ((run (empty options) history).updateModule m).Tracks id
      (if options.Routes item.net then some item.net else none) := by
  refine tracks_of_itemNet? (files_updateModule options history m) ?_
  exact (itemNet?_updateModule options history m id).trans (by rw [h])

theorem tracks_of_dropped (options : Options) (history : List Operation) {p : PadId}
    (h : p ∈ (run (empty options) history).padsOf m.id) (hnot : p ∉ m.pads.map Pad.id) :
    ((run (empty options) history).updateModule m).Tracks (.pad p) none := by
  have hlast : lastListed? (m.pads.map Item.pad) (.pad p) = none :=
    lastListed?_eq_none fun pad hpad hid =>
      hnot (ItemId.pad.inj hid ▸ List.mem_map_of_mem hpad)
  have hgone : ItemId.pad p ∈ ((run (empty options) history).dropped m).map ItemId.pad :=
    List.mem_map_of_mem (List.mem_filter.2 ⟨h, by simpa using hnot⟩)
  refine tracks_of_itemNet? (files_updateModule options history m) ?_
  exact (itemNet?_updateModule options history m (.pad p)).trans (by rw [hlast, if_pos hgone])

theorem get?_tracked_of_not_touches (options : Options) (history : List Operation)
    (h : ¬(run (empty options) history).Touches m id) :
    (tracked options (history ++ [.updateModule m])).get? id =
      (tracked options history).get? id := by
  rw [get?_tracked_updateModule, lastListed?_of_not_touches h]
  exact if_neg (not_mem_dropped_of_not_touches h)

theorem keeps_of_not_touches (options : Options) (history : List Operation)
    (h : ¬(run (empty options) history).Touches m id) (code : NetCode) :
    ((run (empty options) history).netAt code).Keeps
      (((run (empty options) history).updateModule m).netAt code) id := by
  obtain ⟨filed, hsound, hfiled⟩ := (files_run options history).soundAt code
  obtain ⟨filed', hsound', hfiled'⟩ := (files_updateModule options history m).soundAt code
  have hitem : filed'.get? id = filed.get? id := by
    rw [hfiled, hfiled', get?_tracked_of_not_touches options history h]
  refine hsound.keeps hsound' hitem ?_
  rw [(files_run options history).netAt_updateModule]
  refine Net.contribution?_run fun op hop hid => ?_
  obtain ⟨l, hl, htouches⟩ := item?_of_mem_netOps hop
  exact h (Option.some.inj (hl.symm.trans hid) ▸ htouches)

theorem renewed_updateModule (options : Options) (history : List Operation) (m : Module) :
    (run (empty options) history).Renewed m ((run (empty options) history).updateModule m) where
  listed pad hpad := by
    obtain ⟨item, hitem⟩ := exists_lastListed? hpad
    refine ⟨item, hitem, ?_⟩
    rw [(files_run options history).options_eq]
    exact tracks_of_lastListed? options history hitem
  dropped p hp hnot := tracks_of_dropped options history hp hnot
  list := by rw [get?_modules_updateModule, if_pos rfl]
  others n hn := padsOf_updateModule_of_ne _ hn
  itemNet id h := by
    rw [(files_updateModule options history m).itemNet, (files_run options history).itemNet,
      get?_tracked_of_not_touches options history h]
  keeps id h code := keeps_of_not_touches options history h code

/-- The last listings are the same, and no pad is dropped. -/
theorem get?_tracked_again (options : Options) (history : List Operation) (m : Module)
    (id : ItemId) :
    (tracked options (history ++ [.updateModule m] ++ [.updateModule m])).get? id =
      (tracked options (history ++ [.updateModule m])).get? id := by
  have hdropped : (run (empty options) (history ++ [.updateModule m])).dropped m = [] := by
    rw [run_concat]
    exact dropped_updateModule _ m
  rw [get?_tracked_updateModule, hdropped]
  cases hlast : lastListed? (m.pads.map Item.pad) id with
  | some item => rw [get?_tracked_updateModule, hlast]
  | none => exact if_neg List.not_mem_nil

/-- A module that is updated has the pads that it lists, where it lists them, and no other item
is touched.  To update it in the same way once more changes nothing. -/
theorem renewed_run (options : Options) (history : List Operation) (m : Module) :
    let s := run (empty options) history
    s.Renewed m (s.updateModule m) ∧
      (s.updateModule m).Unmoved ((s.updateModule m).updateModule m) := by
  have hafter := files_updateModule options history m
  have hagain := files_updateModule options (history ++ [.updateModule m]) m
  have hsame := get?_tracked_again options history m
  rw [run_concat] at hagain
  refine ⟨renewed_updateModule options history m, fun id => ?_, get?_modules_again _ m,
    size_again _ m, hagain.census_perm hafter hsame⟩
  exact (hagain.itemNet id).trans ((congrArg _ (hsame id)).trans (hafter.itemNet id).symm)

end Store
end Unrouted
