import Unrouted.Store.Airwires

/-!
Histories of a store: what can be done to it from outside, one step after another.
-/

namespace Unrouted
namespace Store

inductive Operation where
  | load (board : Board)
  | add (item : Item)
  | update (item : Item)
  | remove (id : ItemId)
  | updateModule (m : Module)
  | removeModule (id : ModuleId)
  | recalculate (net : Option NetCode)
  | mark (id : ItemId)
  | markModule (id : ModuleId)
  | clearMarks
  | setVisible (net : NetCode) (visible : Bool)
deriving DecidableEq

def apply (s : Store) : Operation → Store
  | .load board => s.load board
  | .add item => s.add item
  | .update item => s.update item
  | .remove id => s.remove id
  | .updateModule m => s.updateModule m
  | .removeModule id => s.removeModule id
  | .recalculate net => s.recalculate net
  | .mark id => s.mark id
  | .markModule id => s.markModule id
  | .clearMarks => s.clearMarks
  | .setVisible net visible => s.setVisible net visible

def run (s : Store) (history : List Operation) : Store := history.foldl apply s

/-- A store that some history leads to from an empty one. -/
def Reachable (s : Store) : Prop := ∃ options history, run (empty options) history = s

theorem reachable_empty (options : Options) : Reachable (empty options) :=
  ⟨options, [], rfl⟩

theorem Reachable.apply {s : Store} (h : s.Reachable) (op : Operation) :
    (s.apply op).Reachable := by
  obtain ⟨options, history, rfl⟩ := h
  exact ⟨options, history ++ [op], by simp [run, List.foldl_append]⟩

end Store
end Unrouted
