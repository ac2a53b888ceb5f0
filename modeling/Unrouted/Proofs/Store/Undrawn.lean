import Unrouted.Proofs.Net.Undrawn
import Unrouted.Proofs.Store.Histories

/-!
What is drawn of a store never acts on what is computed.  Items are placed, moved and taken
out, modules change and nets are brought up to date as if no node was ever marked and no net
ever hidden, whenever that is done in a history.
-/

namespace Unrouted
namespace Store

variable {s : Store}

/-- The store without what is only drawn. -/
def undrawn (s : Store) : Store := { s with nets := s.nets.map Net.undrawn }

theorem undrawn_empty (options : Options) : (empty options).undrawn = empty options := by
  simp [undrawn, empty]

theorem undrawn_modifyNet {f g : Net → Net} (h : ∀ net, (f net).undrawn = g net.undrawn)
    (s : Store) (code : NetCode) :
    (s.modifyNet code f).undrawn = s.undrawn.modifyNet code g := by
  refine ext_nets rfl fun i => ?_
  show ((s.modifyNet code f).nets.map Net.undrawn)[i]? = _
  rw [Array.getElem?_map, getElem?_modifyNet, getElem?_modifyNet, undrawn, Array.getElem?_map]
  cases s.nets[i]? with
  | none => simp
  | some net =>
    split
    · exact congrArg some (h net)
    · rfl

theorem reach?_undrawn (s : Store) (code : NetCode) :
    s.undrawn.reach? code = (s.reach? code).map undrawn := by
  have hsize : s.undrawn.nets.size = s.nets.size := Array.size_map
  have haccepts : s.undrawn.accepts code = s.accepts code := rfl
  simp only [reach?, hsize, haccepts]
  split
  · simp only [undrawn, Option.map_some, Array.map_append, Array.map_replicate,
      Net.undrawn_empty]
  · rfl

/-! ## Operations that compute -/

theorem undrawn_remove (s : Store) (id : ItemId) : (s.remove id).undrawn = s.undrawn.remove id := by
  have hitemNet : s.undrawn.itemNet? id = s.itemNet? id := rfl
  cases hid : s.itemNet? id with
  | none =>
    rw [Files.remove_of_itemNet?_eq_none hid, Files.remove_of_itemNet?_eq_none (hitemNet.trans hid)]
  | some code =>
    rw [Files.remove_of_itemNet?_eq_some hid, Files.remove_of_itemNet?_eq_some (hitemNet.trans hid),
      undrawn_modifyNet (g := fun net => net.remove id) fun net => Net.undrawn_remove net id]
    rfl

theorem undrawn_foldl_remove (s : Store) (ids : List ItemId) :
    (ids.foldl remove s).undrawn = ids.foldl remove s.undrawn :=
  (List.foldl_hom undrawn fun s id => (undrawn_remove s id).symm).symm

theorem undrawn_vacated (s : Store) (item : Item) :
    (s.vacated item).undrawn = s.undrawn.vacated item := by
  unfold vacated
  rw [apply_ite undrawn, undrawn_remove]
  rfl

theorem undrawn_add (s : Store) (item : Item) : (s.add item).undrawn = s.undrawn.add item := by
  rw [add_eq, add_eq, ← undrawn_vacated]
  generalize s.vacated item = t
  split
  · rfl
  · rw [reach?_undrawn]
    cases t.reach? item.net with
    | none => rfl
    | some u =>
      have hadded := undrawn_modifyNet (f := fun net => net.add item)
        (g := fun net => net.add item) (fun net => Net.undrawn_add net item) u item.net
      simp only [Option.map_some, ← hadded]
      rfl

theorem undrawn_foldl_add (s : Store) (items : List Item) :
    (items.foldl add s).undrawn = items.foldl add s.undrawn :=
  (List.foldl_hom undrawn fun s item => (undrawn_add s item).symm).symm

theorem undrawn_update (s : Store) (item : Item) :
    (s.update item).undrawn = s.undrawn.update item := by
  rw [update, undrawn_add, undrawn_remove, update]

theorem undrawn_opened (s : Store) (board : Board) :
    (s.opened board).undrawn = s.undrawn.opened board := by
  let top := if board.maxNet ≤ s.options.maxNet then board.maxNet else s.options.maxNet
  have hopened : (((empty s.options).reach? top).getD (empty s.options)).undrawn =
      ((empty s.options).reach? top).getD (empty s.options) := by
    have hcommutes := reach?_undrawn (empty s.options) top
    rw [undrawn_empty] at hcommutes
    cases h : (empty s.options).reach? top with
    | none => exact undrawn_empty s.options
    | some t =>
      rw [h, Option.map_some, Option.some.injEq] at hcommutes
      exact hcommutes.symm
  let listing (t : Store) : Store := { t with
    modules := board.modules.foldl (fun t m => t.insert m.id (m.pads.map Pad.id)) t.modules }
  exact congrArg listing hopened

theorem undrawn_load (s : Store) (board : Board) :
    (s.load board).undrawn = s.undrawn.load board := by
  rw [load_eq, load_eq, undrawn_foldl_add, undrawn_opened]

theorem undrawn_updateModule (s : Store) (m : Module) :
    (s.updateModule m).undrawn = s.undrawn.updateModule m := by
  rw [updateModule_eq, updateModule_eq,
    ← List.foldl_hom undrawn fun s item => (undrawn_update s item).symm, undrawn_foldl_remove]
  rfl

theorem undrawn_removeModule (s : Store) (id : ModuleId) :
    (s.removeModule id).undrawn = s.undrawn.removeModule id := by
  have hmodules : s.undrawn.modules = s.modules := rfl
  simp only [removeModule, hmodules]
  cases s.modules.get? id with
  | none => rfl
  | some pads =>
    dsimp only
    rw [← List.foldl_map (f := ItemId.pad) (g := remove), undrawn_foldl_remove, List.foldl_map]
    rfl

theorem undrawn_recalculate (s : Store) (net : Option NetCode) :
    (s.recalculate net).undrawn = s.undrawn.recalculate net := by
  cases net with
  | some code => exact undrawn_modifyNet Net.undrawn_update s code
  | none =>
    simp only [recalculate_none, undrawn, Array.map_map, Function.comp_def, Net.undrawn_update]

/-! ## Operations that draw -/

/-- A change of one net that is gone once the net is undrawn. -/
theorem undrawn_modifyNet_of_drawing {f : Net → Net} (hf : ∀ net, (f net).undrawn = net.undrawn)
    (s : Store) (code : NetCode) : (s.modifyNet code f).undrawn = s.undrawn :=
  (undrawn_modifyNet (g := fun net => net) hf s code).trans (modifyNet_self s.undrawn code)

theorem undrawn_mark (s : Store) (id : ItemId) : (s.mark id).undrawn = s.undrawn := by
  unfold mark
  split
  · rfl
  · refine undrawn_modifyNet_of_drawing (fun net => ?_) s _
    exact List.foldlRecOn (motive := fun net' : Net => net'.undrawn = net.undrawn) _ _ rfl
      fun net' h n _ => (Net.undrawn_mark net' n).trans h

theorem undrawn_markModule (s : Store) (id : ModuleId) : (s.markModule id).undrawn = s.undrawn :=
  List.foldlRecOn (motive := fun s' : Store => s'.undrawn = s.undrawn) _ _ rfl
    fun s' h p _ => (undrawn_mark s' (.pad p)).trans h

theorem undrawn_clearMarks (s : Store) : s.clearMarks.undrawn = s.undrawn := by
  simp only [clearMarks, undrawn, Array.map_map, Function.comp_def, Net.undrawn_clearMarks]

/-! ## Histories -/

/-- Marks nodes, unmarks them, or shows or hides a net. -/
def Operation.isDrawing : Operation → Bool
  | .mark _ | .markModule _ | .clearMarks | .setVisible _ _ => true
  | _ => false

theorem undrawn_apply_of_drawing {op : Operation} (h : op.isDrawing = true) (s : Store) :
    (s.apply op).undrawn = s.undrawn := by
  cases op with
  | mark id => exact undrawn_mark s id
  | markModule id => exact undrawn_markModule s id
  | clearMarks => exact undrawn_clearMarks s
  | setVisible code visible =>
    exact undrawn_modifyNet_of_drawing (fun net => Net.undrawn_setVisible net visible) s code
  | _ => exact absurd h Bool.false_ne_true

theorem undrawn_apply {op : Operation} (h : op.isDrawing = false) (s : Store) :
    (s.apply op).undrawn = s.undrawn.apply op := by
  cases op with
  | load board => exact undrawn_load s board
  | add item => exact undrawn_add s item
  | update item => exact undrawn_update s item
  | remove id => exact undrawn_remove s id
  | updateModule m => exact undrawn_updateModule s m
  | removeModule id => exact undrawn_removeModule s id
  | recalculate net => exact undrawn_recalculate s net
  | _ => exact absurd h.symm Bool.false_ne_true

/-- Undrawn, a run is the run of the operations that compute. -/
theorem undrawn_run (s : Store) (history : List Operation) :
    (run s history).undrawn = run s.undrawn (history.filter fun op => !op.isDrawing) := by
  induction history generalizing s with
  | nil => rfl
  | cons op rest ih =>
    rw [run, List.foldl_cons]
    refine (ih (s.apply op)).trans ?_
    cases hop : op.isDrawing with
    | true => rw [undrawn_apply_of_drawing hop, List.filter_cons_of_neg (by simp [hop])]
    | false =>
      rw [undrawn_apply hop, List.filter_cons_of_pos (by simp [hop])]
      rfl

/-- What is left of a history computes the same when only drawing operations are left out. -/
theorem filter_isDrawing_kept {chosen : List (Operation × Bool)}
    (h : ∀ e ∈ chosen, e.2 = false → e.1.isDrawing = true) :
    ((chosen.filter Prod.snd).map Prod.fst).filter (fun op => !op.isDrawing) =
      (chosen.map Prod.fst).filter fun op => !op.isDrawing := by
  rw [List.filter_map, List.filter_filter, List.filter_map]
  congr 1
  apply List.filter_congr
  rintro ⟨op, kept⟩ hmem
  cases kept with
  | true => simp
  | false => simp [h _ hmem rfl]

/-- Any of the drawing operations of a history may be left out, the ones with `false` beside
them.  At every point the two stores differ at most in flags, marks and visibility. -/
theorem undrawn_run_kept (s : Store) (chosen : List (Operation × Bool))
    (h : ∀ e ∈ chosen, e.2 = false → e.1.isDrawing = true) (k : Nat) :
    (run s ((chosen.take k).map Prod.fst)).undrawn =
      (run s (((chosen.take k).filter Prod.snd).map Prod.fst)).undrawn := by
  rw [undrawn_run, undrawn_run, filter_isDrawing_kept fun e he => h e (List.mem_of_mem_take he)]

/-- Pads are moved while they are marked, into slots of nodes that were flagged; two of the
marks stay, and what else is drawn is left out. -/
def dragged : List (Operation × Bool) :=
  [(.add (.pad { id := 1, net := 1, position := ⟨0, 0⟩ }), true),
    (.updateModule
      { id := 4,
        pads := [{ id := 2, net := 1, position := ⟨3, 4⟩ },
          { id := 3, net := 1, position := ⟨9, 9⟩ }] }, true),
    (.recalculate none, true),
    (.mark (.pad 1), false), (.markModule 4, true), (.setVisible 1 false, false),
    (.update (.pad { id := 1, net := 1, position := ⟨5, 5⟩ }), true),
    (.mark (.pad 1), false),
    (.add (.zone { id := 1, net := 1, outlines := [[⟨0, 0⟩, ⟨4, 0⟩, ⟨4, 4⟩, ⟨0, 4⟩]] }), true),
    (.update (.pad { id := 2, net := 1, position := ⟨5, 5⟩ }), true),
    (.clearMarks, false), (.recalculate (some 1), true), (.markModule 4, true)]

theorem undrawn_dragged :
    let options : Options := { parallelThreshold := 4, strategy := .everyPair, maxNet := 9 }
    let s := run (empty options) (dragged.map Prod.fst)
    let s' := run (empty options) ((dragged.filter Prod.snd).map Prod.fst)
    (∀ e ∈ dragged, e.2 = false → e.1.isDrawing = true) ∧
      (s.netAt 1).marked ≠ (s'.netAt 1).marked ∧ (s.netAt 1).visible ≠ (s'.netAt 1).visible ∧
      s.undrawn = s'.undrawn := by
  have hdrawing : ∀ e ∈ dragged, e.2 = false → e.1.isDrawing = true := by decide
  have hsame := undrawn_run_kept
    (empty { parallelThreshold := 4, strategy := .everyPair, maxNet := 9 }) dragged hdrawing
    dragged.length
  rw [List.take_length] at hsame
  exact ⟨hdrawing, by decide +kernel, by decide +kernel, hsame⟩

end Store
end Unrouted
