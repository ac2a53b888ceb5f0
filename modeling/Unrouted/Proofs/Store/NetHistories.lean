import Unrouted.Proofs.Store.Histories

/-!
What a net of a store has been through.  A store reaches a net only through the operations of
the net, so each of its nets is the run of these since the last board was loaded.
-/

namespace Unrouted

theorem Net.run_append (net : Net) (ops ops' : List Net.Operation) :
    net.run (ops ++ ops') = (net.run ops).run ops' :=
  List.foldl_append

namespace Store

variable {options : Options} {s s' : Store} {items : Table ItemId Item} {code : NetCode}

/-! ## What operations ask of one net -/

def removal (s : Store) (code : NetCode) (id : ItemId) : List Net.Operation :=
  if s.itemNet? id = some code then [.remove id] else []

/-- An item that is placed on another net is taken out of the one that it is on. -/
def placement (s : Store) (code : NetCode) (item : Item) : List Net.Operation :=
  if item.net = code then
    if s.options.Routes code then [.add item] else []
  else s.removal code item.id

def replacement (s : Store) (code : NetCode) (item : Item) : List Net.Operation :=
  s.removal code item.id ++ (s.remove item.id).placement code item

def marking (s : Store) (code : NetCode) (id : ItemId) : List Net.Operation :=
  if s.itemNet? id = some code then ((s.netAt code).nodesOf id).map .mark else []

/-- What is asked along the way when a step is taken for one thing after another. -/
def along {α : Type} (step : Store → α → Store) (asks : Store → α → List Net.Operation)
    (s : Store) : List α → List Net.Operation
  | [] => []
  | x :: rest => asks s x ++ along step asks (step s x) rest

/-- What an operation on all nets or on one asks of a net, which may not be there. -/
def asked (s : Store) (code : NetCode) (op : Net.Operation) : List Net.Operation :=
  if (s.net? code).isSome then [op] else []

def netOps (s : Store) (code : NetCode) : Operation → List Net.Operation
  | .load board => along add (fun s => s.placement code) (s.opened board) board.items
  | .add item => s.placement code item
  | .update item => s.replacement code item
  | .remove id => s.removal code id
  | .updateModule m =>
    let gone := (s.dropped m).map ItemId.pad
    along remove (fun s => s.removal code) (s.listed m) gone ++
      along update (fun s => s.replacement code) (gone.foldl remove (s.listed m))
        (m.pads.map Item.pad)
  | .removeModule id =>
    along remove (fun s => s.removal code) { s with modules := s.modules.erase id }
      (((s.modules.get? id).getD []).map ItemId.pad)
  | .recalculate none => s.asked code .update
  | .recalculate (some net) => if net = code then s.asked code .update else []
  | .mark id => s.marking code id
  | .markModule id =>
    along mark (fun s => s.marking code) s (((s.modules.get? id).getD []).map ItemId.pad)
  | .clearMarks => s.asked code .clearMarks
  | .setVisible net visible => if net = code then s.asked code (.setVisible visible) else []

/-- A board that is loaded leaves nothing of what was before. -/
def Operation.isLoad : Operation → Bool
  | .load _ => true
  | _ => false

/-- What a net is asked from some store on, after what it was asked before. -/
def netHistoryFrom (code : NetCode) (s : Store) (past : List Net.Operation) :
    List Operation → List Net.Operation
  | [] => past
  | op :: rest =>
    let kept := if op.isLoad then [] else past
    netHistoryFrom code (s.apply op) (kept ++ s.netOps code op) rest

def netHistory (options : Options) (history : List Operation) (code : NetCode) :
    List Net.Operation :=
  netHistoryFrom code (empty options) [] history

/-! ## One net after a change of the store -/

theorem net?_modifyNet (s : Store) (there : NetCode) (f : Net → Net) (code : NetCode) :
    (s.modifyNet there f).net? code =
      if there = code then (s.net? code).map f else s.net? code := by
  simp only [net?, getElem?_modifyNet, UInt64.toNat_inj]

theorem netAt_modifyNet {there : NetCode} {net : Net} (hthere : s.net? there = some net)
    (f : Net → Net) (code : NetCode) :
    (s.modifyNet there f).netAt code = if there = code then f (s.netAt code) else s.netAt code := by
  rw [netAt, net?_modifyNet]
  split
  · rename_i hcode
    rw [netAt, ← hcode, hthere]
    rfl
  · rfl

/-- The nets that are put there are like the ones that are not. -/
theorem netAt_reach {there : NetCode} (hreach : s.reach? there = some s') (code : NetCode) :
    s'.netAt code = s.netAt code := by
  obtain ⟨-, -, rfl⟩ := Files.reach?_eq_some_iff.1 hreach
  simp only [netAt, net?, Array.getElem?_append, Array.getElem?_replicate]
  split
  · rfl
  · rename_i hnew
    rw [Array.getElem?_eq_none (Nat.not_lt.1 hnew)]
    split <;> rfl

theorem netAt_mapNets (s : Store) (op : Net.Operation) (code : NetCode) :
    { s with nets := s.nets.map fun net : Net => net.apply op }.netAt code =
      (s.netAt code).run (s.asked code op) := by
  have hmapped : { s with nets := s.nets.map fun net : Net => net.apply op }.net? code =
      (s.net? code).map (·.apply op) := Array.getElem?_map
  rw [netAt, hmapped, netAt, asked]
  cases s.net? code <;> rfl

theorem netAt_modifyNet_asked (s : Store) (there : NetCode) (op : Net.Operation)
    (code : NetCode) :
    (s.modifyNet there fun net => net.apply op).netAt code =
      (s.netAt code).run (if there = code then s.asked code op else []) := by
  rw [netAt, net?_modifyNet, netAt, asked]
  split
  · cases s.net? code <;> rfl
  · rfl

namespace Files

theorem netAt_remove (h : s.Files options items) (id : ItemId) (code : NetCode) :
    (s.remove id).netAt code = (s.netAt code).run (s.removal code id) := by
  cases hid : s.itemNet? id with
  | none =>
    rw [remove_of_itemNet?_eq_none hid]
    simp [removal, hid, Net.run]
  | some there =>
    obtain ⟨net, hnet⟩ := h.net?_isSome hid
    have hremoved := netAt_modifyNet (s := { s with itemNets := s.itemNets.erase id }) hnet
      (fun net => net.remove id) code
    rw [remove_of_itemNet?_eq_some hid, hremoved, removal, hid]
    simp only [Option.some.injEq]
    split <;> rfl

theorem netAt_vacated (h : s.Files options items) (item : Item) (code : NetCode) :
    (s.vacated item).netAt code =
      (s.netAt code).run (if item.net = code then [] else s.removal code item.id) := by
  unfold Store.vacated
  cases hid : s.itemNet? item.id with
  | none => simp [removal, hid, Net.run]
  | some there =>
    by_cases hthere : there = item.net
    · by_cases hcode : item.net = code <;> simp [removal, hid, hthere, hcode, Net.run]
    · have hleft := h.netAt_remove item.id code
      by_cases hcode : item.net = code
      · simp only [removal, hid, Option.some.injEq, ← hcode, hthere, if_false] at hleft
        simp [hthere, ← hcode, hleft]
      · simp [hthere, hcode, hleft]

theorem netAt_add (h : s.Files options items) (item : Item) (code : NetCode) :
    (s.add item).netAt code = (s.netAt code).run (s.placement code item) := by
  have hvacated := h.netAt_vacated item code
  rw [placement]
  rcases add_cases s item with ⟨hroutes, hadd⟩ | ⟨hroutes, t, hreach, hadd⟩
  · rw [hadd, hvacated]
    by_cases hcode : item.net = code
    · rw [if_pos hcode, if_pos hcode, ← hcode, if_neg hroutes]
    · rw [if_neg hcode, if_neg hcode]
  · obtain ⟨kept, hkept, -, -⟩ := h.vacated item
    have hthere := Array.getElem?_eq_getElem (hkept.reach hreach).2
    rw [hadd]
    show (t.modifyNet item.net fun net => net.add item).netAt code = _
    rw [netAt_modifyNet hthere, netAt_reach hreach, hvacated]
    by_cases hcode : item.net = code
    · rw [if_pos hcode, if_pos hcode, if_pos hcode, ← hcode, if_pos hroutes]
      rfl
    · rw [if_neg hcode, if_neg hcode, if_neg hcode]

theorem netAt_update (h : s.Files options items) (item : Item) (code : NetCode) :
    (s.update item).netAt code = (s.netAt code).run (s.replacement code item) := by
  rw [Store.update, (h.remove item.id).netAt_add, h.netAt_remove, replacement, Net.run_append]

theorem netAt_mark (h : s.Files options items) (id : ItemId) (code : NetCode) :
    (s.mark id).netAt code = (s.netAt code).run (s.marking code id) := by
  simp only [Store.mark, marking]
  cases hid : s.itemNet? id with
  | none => simp [Net.run]
  | some there =>
    obtain ⟨net, hnet⟩ := h.net?_isSome hid
    simp only [Option.some.injEq]
    rw [netAt_modifyNet hnet]
    split
    · rw [Net.run, List.foldl_map]
      rfl
    · rfl

/-- A step is taken for one thing after another in a store that files its items. -/
theorem netAt_along {α : Type} {step : Store → α → Store}
    {asks : Store → α → List Net.Operation} {code : NetCode}
    (hfiles : ∀ {s : Store} {items : Table ItemId Item}, s.Files options items →
      ∀ x, ∃ items', (step s x).Files options items')
    (hstep : ∀ {s : Store} {items : Table ItemId Item}, s.Files options items →
      ∀ x, (step s x).netAt code = (s.netAt code).run (asks s x))
    (h : s.Files options items) (xs : List α) :
    (xs.foldl step s).netAt code = (s.netAt code).run (along step asks s xs) := by
  induction xs generalizing s items with
  | nil => rfl
  | cons x rest ih =>
    obtain ⟨items', hfiled⟩ := hfiles h x
    rw [List.foldl_cons, ih hfiled, hstep h, along, Net.run_append]

theorem netAt_foldl_remove (h : s.Files options items) (ids : List ItemId) (code : NetCode) :
    (ids.foldl Store.remove s).netAt code =
      (s.netAt code).run (along Store.remove (fun s => s.removal code) s ids) :=
  netAt_along (fun h id => ⟨_, h.remove id⟩) (fun h id => h.netAt_remove id code) h ids

/-! ## Every operation -/

theorem netAt_opened (h : s.Files options items) (board : Board) (code : NetCode) :
    (s.opened board).netAt code = Net.empty options.strategy := by
  let top := if board.maxNet ≤ s.options.maxNet then board.maxNet else s.options.maxNet
  have hopened : (((Store.empty s.options).reach? top).getD (Store.empty s.options)).netAt code =
      Net.empty options.strategy := by
    have hempty : (Store.empty s.options).netAt code = Net.empty options.strategy := by
      rw [h.options_eq]
      rfl
    cases hreach : (Store.empty s.options).reach? top with
    | none => exact hempty
    | some t => exact (netAt_reach hreach code).trans hempty
  exact hopened

theorem netAt_updateModule (h : s.Files options items) (m : Module) (code : NetCode) :
    (s.updateModule m).netAt code = (s.netAt code).run (s.netOps code (.updateModule m)) := by
  have hlisted : (s.listed m).Files options items := h.relist _
  have hupdated := netAt_along (fun h item => ⟨_, h.update item⟩)
    (fun h item => h.netAt_update item code) (h.relisted m) (m.pads.map Item.pad)
  rw [hlisted.netAt_foldl_remove, ← Net.run_append] at hupdated
  rw [updateModule_eq]
  exact hupdated

theorem netAt_removeModule (h : s.Files options items) (id : ModuleId) (code : NetCode) :
    (s.removeModule id).netAt code = (s.netAt code).run (s.netOps code (.removeModule id)) := by
  simp only [Store.removeModule, netOps]
  cases s.modules.get? id with
  | none => rfl
  | some pads =>
    have hremoved := (h.relist (s.modules.erase id)).netAt_foldl_remove (pads.map ItemId.pad) code
    rw [List.foldl_map] at hremoved
    exact hremoved

theorem netAt_markModule (h : s.Files options items) (id : ModuleId) (code : NetCode) :
    (s.markModule id).netAt code = (s.netAt code).run (s.netOps code (.markModule id)) := by
  have hmarked := netAt_along (fun h id => ⟨_, h.mark id⟩) (fun h id => h.netAt_mark id code) h
    (((s.modules.get? id).getD []).map ItemId.pad)
  rw [List.foldl_map] at hmarked
  exact hmarked

/-- An operation does to a net what it asks of it, and a board that is loaded starts with
empty nets. -/
theorem netAt_apply (h : s.Files options items) (op : Operation) (code : NetCode) :
    (s.apply op).netAt code =
      (if op.isLoad then Net.empty options.strategy else s.netAt code).run (s.netOps code op) := by
  cases op with
  | load board =>
    have hloaded := netAt_along (fun h item => ⟨_, h.add item⟩)
      (fun h item => h.netAt_add item code) (h.opened board) board.items
    rw [h.netAt_opened] at hloaded
    exact hloaded
  | add item => exact h.netAt_add item code
  | update item => exact h.netAt_update item code
  | remove id => exact h.netAt_remove id code
  | updateModule m => exact h.netAt_updateModule m code
  | removeModule id => exact h.netAt_removeModule id code
  | recalculate net =>
    cases net with
    | some there => exact netAt_modifyNet_asked s there .update code
    | none =>
      rw [Store.apply, recalculate_none]
      exact netAt_mapNets s .update code
  | mark id => exact h.netAt_mark id code
  | markModule id => exact h.netAt_markModule id code
  | clearMarks => exact netAt_mapNets s .clearMarks code
  | setVisible there visible => exact netAt_modifyNet_asked s there (.setVisible visible) code

theorem netAt_run (h : s.Files options items) {past : List Net.Operation}
    (hpast : s.netAt code = Net.run (Net.empty options.strategy) past)
    (history : List Operation) :
    (s.run history).netAt code =
      Net.run (Net.empty options.strategy) (netHistoryFrom code s past history) := by
  induction history generalizing s items past with
  | nil => exact hpast
  | cons op rest ih =>
    refine ih (h.apply op) ?_
    rw [h.netAt_apply, hpast, Net.run_append]
    split <;> rfl

end Files

/-- Each net of a store is the run of its history. -/
theorem netAt_run (options : Options) (history : List Operation) (code : NetCode) :
    (run (empty options) history).netAt code =
      Net.run (Net.empty options.strategy) (netHistory options history code) :=
  (Files.empty options).netAt_run rfl history

end Store
end Unrouted
