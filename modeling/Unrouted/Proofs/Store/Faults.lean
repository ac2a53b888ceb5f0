import Unrouted.Proofs.Net.Faults
import Unrouted.Proofs.Store.Files

/-!
The operations of a store reach its nets through their own operations.  Tried as operations
that stop at the first fault, they give the same store after every history.
-/

namespace Unrouted
namespace Store

variable {options : Options} {s : Store} {items : Table ItemId Item}

/-! ## Operations that stop at a fault -/

def tryModifyNet (s : Store) (code : NetCode) (f : Net → Except Fault Net) :
    Except Fault Store :=
  match s.net? code with
  | none => .ok s
  | some net => do
    let net ← f net
    return s.modifyNet code fun _ => net

def tryAdd (s : Store) (item : Item) : Except Fault Store :=
  let moved := (s.itemNet? item.id).any fun code => decide (code ≠ item.net)
  let s := if moved then s.remove item.id else s
  if item.net = noNet then .ok s
  else
    match s.reach? item.net with
    | none => .ok s
    | some s => do
      let filed ← s.tryModifyNet item.net fun net => net.tryAdd item
      return { filed with itemNets := s.itemNets.insert item.id item.net }

def tryUpdate (s : Store) (item : Item) : Except Fault Store := (s.remove item.id).tryAdd item

def tryUpdateModule (s : Store) (m : Module) : Except Fault Store :=
  (m.pads.map Item.pad).foldlM tryUpdate
    (((s.dropped m).map ItemId.pad).foldl remove (s.listed m))

def tryRecalculate (s : Store) : Option NetCode → Except Fault Store
  | some code => s.tryModifyNet code Net.tryUpdate
  | none => do
    let nets ← s.nets.mapM Net.tryUpdate
    return { s with nets }

def tryApply (s : Store) : Operation → Except Fault Store
  | .load board => board.items.foldlM tryAdd (s.opened board)
  | .add item => s.tryAdd item
  | .update item => s.tryUpdate item
  | .remove id => .ok (s.remove id)
  | .updateModule m => s.tryUpdateModule m
  | .removeModule id => .ok (s.removeModule id)
  | .recalculate net => s.tryRecalculate net
  | .mark id => .ok (s.mark id)
  | .markModule id => .ok (s.markModule id)
  | .clearMarks => .ok s.clearMarks
  | .setVisible net visible => .ok (s.setVisible net visible)

/-! ## No fault happens -/

theorem tryModifyNet_eq {code : NetCode} {f : Net → Except Fault Net} {g : Net → Net}
    (hf : ∀ net, s.net? code = some net → f net = .ok (g net)) :
    s.tryModifyNet code f = .ok (s.modifyNet code g) := by
  cases hnet : s.net? code with
  | none =>
    have hsame : s.modifyNet code g = s.modifyNet code fun net => net :=
      modifyNet_congr fun net hthere => absurd (hnet.symm.trans hthere) (by simp)
    rw [hsame, modifyNet_self]
    simp only [tryModifyNet, hnet]
  | some net =>
    have hconst : (s.modifyNet code fun _ => g net) = s.modifyNet code g :=
      modifyNet_congr fun net' hthere => by rw [Option.some.inj (hnet.symm.trans hthere)]
    simp only [tryModifyNet, hnet, hf net hnet, ← hconst]
    rfl

theorem mapM_eq_ok {α β : Type} {f : α → Except Fault β} {g : α → β} {xs : List α}
    (h : ∀ x ∈ xs, f x = .ok (g x)) : xs.mapM f = .ok (xs.map g) := by
  induction xs with
  | nil => rfl
  | cons x rest ih =>
    rw [List.mapM_cons, h x List.mem_cons_self, ih fun y hy => h y (List.mem_cons_of_mem _ hy)]
    rfl

namespace Files

/-- The nets of a store meet no fault, because net operations made them. -/
theorem tryApply_net (h : s.Files options items) {i : Nat} {net : Net}
    (hnet : s.nets[i]? = some net) (op : Net.Operation) : net.tryApply op = .ok (net.apply op) := by
  obtain ⟨history, rfl, -⟩ := h.nets i net hnet
  exact (Net.sound_run _ history).tryApply_eq (Net.anchored_run _ history) op

theorem tryAdd_eq (h : s.Files options items) (item : Item) :
    s.tryAdd item = .ok (s.add item) := by
  obtain ⟨kept, hkept, -, -⟩ := h.vacated item
  unfold Store.vacated at hkept
  simp only [tryAdd, Store.add]
  generalize (if (s.itemNet? item.id).any fun code => decide (code ≠ item.net) then
    s.remove item.id else s) = s₁ at hkept
  split
  · rfl
  · cases hreach : s₁.reach? item.net with
    | none => rfl
    | some s₂ =>
      have hfiled : s₂.tryModifyNet item.net (fun net => net.tryAdd item) =
          .ok (s₂.modifyNet item.net fun net => net.add item) :=
        tryModifyNet_eq fun net hnet => (hkept.reach hreach).1.tryApply_net hnet (.add item)
      simp only [hfiled]
      rfl

theorem tryUpdate_eq (h : s.Files options items) (item : Item) :
    s.tryUpdate item = .ok (s.update item) :=
  (h.remove item.id).tryAdd_eq item

/-- Placing items one after another meets no fault when placing one does not. -/
theorem foldlM_eq {attempt : Store → Item → Except Fault Store} {step : Store → Item → Store}
    (hattempt : ∀ {s : Store} {items : Table ItemId Item}, s.Files options items →
      ∀ item, attempt s item = .ok (step s item))
    (hstep : ∀ {s : Store} {items : Table ItemId Item}, s.Files options items →
      ∀ item, (step s item).Files options ((Event.place item).track options items))
    (h : s.Files options items) (placed : List Item) :
    placed.foldlM attempt s = .ok (placed.foldl step s) := by
  induction placed generalizing s items with
  | nil => rfl
  | cons item rest ih =>
    rw [List.foldlM_cons, hattempt h item]
    exact ih (hstep h item)

theorem tryRecalculate_eq (h : s.Files options items) (net : Option NetCode) :
    s.tryRecalculate net = .ok (s.recalculate net) := by
  cases net with
  | some code => exact tryModifyNet_eq fun net hnet => h.tryApply_net hnet .update
  | none =>
    have hnets : s.nets.toList.mapM Net.tryUpdate = .ok (s.nets.toList.map Net.update) := by
      refine mapM_eq_ok fun net hnet => ?_
      obtain ⟨i, hi⟩ := List.mem_iff_getElem?.1 hnet
      rw [Array.getElem?_toList] at hi
      exact h.tryApply_net hi .update
    simp only [tryRecalculate, Array.mapM_eq_mapM_toList, hnets, recalculate_none]
    rw [← Array.toList_map]
    rfl

theorem tryApply_eq (h : s.Files options items) (op : Operation) :
    s.tryApply op = .ok (s.apply op) := by
  cases op with
  | load board => exact foldlM_eq tryAdd_eq add (h.opened board) board.items
  | add item => exact h.tryAdd_eq item
  | update item => exact h.tryUpdate_eq item
  | updateModule m =>
    rw [Store.apply, updateModule_eq]
    exact foldlM_eq tryUpdate_eq update (h.relisted m) (m.pads.map Item.pad)
  | recalculate net => exact h.tryRecalculate_eq net
  | remove id => rfl
  | removeModule id => rfl
  | mark id => rfl
  | markModule id => rfl
  | clearMarks => rfl
  | setVisible net visible => rfl

end Files

/-- After every history of a net, and in every net of a store after every history of the
store, no connection is loose, and the operation that comes next meets no fault. -/
theorem intact_run :
    (∀ (strategy : Strategy) (history : List Net.Operation),
      let net := Net.run (Net.empty strategy) history
      net.Intact ∧ ∀ op, net.tryApply op = .ok (net.apply op)) ∧
    ∀ (options : Options) (history : List Operation),
      let s := run (empty options) history
      (∀ code net, s.net? code = some net → net.Intact) ∧
        ∀ op, s.tryApply op = .ok (s.apply op) := by
  have intact (strategy : Strategy) (history : List Net.Operation) :
      (Net.run (Net.empty strategy) history).Intact :=
    (Net.sound_run strategy history).intact (Net.anchored_run strategy history)
  refine ⟨fun strategy history => ⟨intact strategy history, fun op => ?_⟩,
    fun options history => ⟨fun code net hnet => ?_, fun op => ?_⟩⟩
  · exact (Net.sound_run strategy history).tryApply_eq (Net.anchored_run strategy history) op
  · obtain ⟨ops, rfl, -⟩ := (files_run options history).nets code.toNat net hnet
    exact intact options.strategy ops
  · exact (files_run options history).tryApply_eq op

end Store
end Unrouted
