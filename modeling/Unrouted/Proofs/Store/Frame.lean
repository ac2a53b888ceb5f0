import Unrouted.Proofs.Store.NetHistories

/-!
What taking out and placing an item changes of a store: the entry of the item in its table, and
the nets that the item leaves and comes to.  The options and the modules stay as they are.
-/

namespace Unrouted
namespace Store

variable {s : Store} {item : Item} {id l : ItemId} {code : NetCode}

/-! ## Taking out -/

theorem options_remove (s : Store) (id : ItemId) : (s.remove id).options = s.options := by
  unfold remove
  split <;> rfl

theorem modules_remove (s : Store) (id : ItemId) : (s.remove id).modules = s.modules := by
  unfold remove
  split <;> rfl

theorem itemNet?_remove (s : Store) (id l : ItemId) :
    (s.remove id).itemNet? l = if l = id then none else s.itemNet? l := by
  cases hid : s.itemNet? id with
  | none =>
    rw [Files.remove_of_itemNet?_eq_none hid]
    split
    · rename_i hl
      rw [hl, hid]
    · rfl
  | some code =>
    rw [Files.remove_of_itemNet?_eq_some hid]
    exact Table.get?_erase s.itemNets id l

/-- Only the net that the item was on is changed. -/
theorem net?_remove_of_ne (h : s.itemNet? id ≠ some code) :
    (s.remove id).net? code = s.net? code := by
  cases hid : s.itemNet? id with
  | none => rw [Files.remove_of_itemNet?_eq_none hid]
  | some there =>
    have hother : there ≠ code := fun hthere => h (hid.trans (congrArg some hthere))
    rw [Files.remove_of_itemNet?_eq_some hid, net?_modifyNet, if_neg hother]
    rfl

theorem modules_foldl_remove (s : Store) (ids : List ItemId) :
    (ids.foldl remove s).modules = s.modules :=
  List.foldlRecOn (motive := fun t : Store => t.modules = s.modules) ids _ rfl
    fun t ht id _ => (modules_remove t id).trans ht

theorem options_foldl_remove (s : Store) (ids : List ItemId) :
    (ids.foldl remove s).options = s.options :=
  List.foldlRecOn (motive := fun t : Store => t.options = s.options) ids _ rfl
    fun t ht id _ => (options_remove t id).trans ht

theorem itemNet?_foldl_remove (s : Store) (ids : List ItemId) (l : ItemId) :
    (ids.foldl remove s).itemNet? l = if l ∈ ids then none else s.itemNet? l := by
  induction ids generalizing s with
  | nil => simp
  | cons id rest ih =>
    rw [List.foldl_cons, ih, itemNet?_remove]
    by_cases hrest : l ∈ rest
    · simp [hrest]
    · simp [hrest]

theorem net?_foldl_remove {ids : List ItemId} (h : ∀ id ∈ ids, s.itemNet? id ≠ some code) :
    (ids.foldl remove s).net? code = s.net? code := by
  induction ids generalizing s with
  | nil => rfl
  | cons id rest ih =>
    rw [List.foldl_cons, ih fun l hl => ?_, net?_remove_of_ne (h id List.mem_cons_self)]
    rw [itemNet?_remove]
    split
    · exact (Option.some_ne_none code).symm
    · exact h l (List.mem_cons_of_mem id hl)

/-! ## Placing -/

theorem modules_add (s : Store) (item : Item) : (s.add item).modules = s.modules := by
  have hvacated : (s.vacated item).modules = s.modules := by
    unfold vacated
    split
    · exact modules_remove s item.id
    · rfl
  rcases Files.add_cases s item with ⟨-, hadd⟩ | ⟨-, t, hreach, hadd⟩
  · rw [hadd, hvacated]
  · obtain ⟨-, -, rfl⟩ := Files.reach?_eq_some_iff.1 hreach
    rw [hadd]
    exact hvacated

theorem options_add (s : Store) (item : Item) : (s.add item).options = s.options := by
  rcases Files.add_cases s item with ⟨-, hadd⟩ | ⟨-, t, hreach, hadd⟩
  · rw [hadd, Files.options_vacated]
  · obtain ⟨-, -, rfl⟩ := Files.reach?_eq_some_iff.1 hreach
    rw [hadd]
    exact Files.options_vacated s item

theorem itemNet?_add (h : s.itemNet? item.id = none) (l : ItemId) :
    (s.add item).itemNet? l =
      if l = item.id ∧ s.options.Routes item.net then some item.net else s.itemNet? l := by
  have hvacated : s.vacated item = s := by simp [vacated, h]
  rcases Files.add_cases s item with ⟨hroutes, hadd⟩ | ⟨hroutes, t, hreach, hadd⟩
  · rw [hadd, hvacated, if_neg fun h => hroutes h.2]
  · rw [hvacated] at hreach
    obtain ⟨-, -, rfl⟩ := Files.reach?_eq_some_iff.1 hreach
    have hinserted := Table.get?_insert s.itemNets item.id l item.net
    rw [hadd]
    simp only [hroutes, and_true]
    exact hinserted

theorem modules_update (s : Store) (item : Item) : (s.update item).modules = s.modules :=
  (modules_add _ item).trans (modules_remove s item.id)

/-- The item is on its net if items can be tracked there, and nowhere otherwise. -/
theorem itemNet?_update (s : Store) (item : Item) (l : ItemId) :
    (s.update item).itemNet? l =
      if l = item.id then if s.options.Routes item.net then some item.net else none
      else s.itemNet? l := by
  have hgone : (s.remove item.id).itemNet? item.id = none := by
    rw [itemNet?_remove, if_pos rfl]
  rw [update, itemNet?_add hgone, options_remove, itemNet?_remove]
  by_cases hl : l = item.id
  · simp [hl]
  · simp [hl]

theorem modules_foldl_add (s : Store) (items : List Item) :
    (items.foldl add s).modules = s.modules :=
  List.foldlRecOn (motive := fun t : Store => t.modules = s.modules) items _ rfl
    fun t ht item _ => (modules_add t item).trans ht

theorem modules_foldl_update (s : Store) (items : List Item) :
    (items.foldl update s).modules = s.modules :=
  List.foldlRecOn (motive := fun t : Store => t.modules = s.modules) items _ rfl
    fun t ht item _ => (modules_update t item).trans ht

end Store
end Unrouted
