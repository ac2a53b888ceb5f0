import Unrouted.Table
import Mathlib.Data.List.Nodup
import Mathlib.Data.List.Perm.Basic

/-!
The values of a table as a multiset.  What is collected over the values is determined,
up to order, by what the keys resolve to.
-/

namespace Unrouted

theorem eq_none_of_isSome_eq {α β : Type} {x : Option α} {y : Option β}
    (h : x.isSome = y.isSome) (hy : y = none) : x = none := by
  rw [hy] at h
  exact Option.isNone_iff_eq_none.1 (Option.isSome_eq_false_iff.1 h)

namespace Table

open scoped List

variable {κ ν ω β : Type}

theorem nodup_entries (t : Table κ ν) : t.entries.Nodup := List.Nodup.of_map Prod.fst t.nodup_keys

/-- What is filtered out of each list is filtered out of all of them. -/
theorem flatten_values_filter (t : Table κ (List β)) (f : β → Bool) :
    (t.mapValues fun _ vs => vs.filter f).values.flatten = t.values.flatten.filter f := by
  rw [List.filter_flatten, values, values, List.map_map]
  simp only [mapValues, List.map_map]
  rfl

variable [DecidableEq κ] {t : Table κ ν} {u : Table κ ω} {k : κ} {v : ν}

theorem isSome_get?_iff : (t.get? k).isSome = true ↔ k ∈ t.keys := by
  rw [mem_keys, Option.isSome_iff_exists]

theorem values_eq_nil (h : ∀ k, t.get? k = none) : t.values = [] := by
  apply List.eq_nil_iff_forall_not_mem.2
  intro v hv
  obtain ⟨k, hk⟩ := mem_values.1 hv
  rw [h k] at hk
  exact Option.some_ne_none v hk.symm

/-- Two tables hold the same entries when they answer alike. -/
theorem entries_perm_iff {t u : Table κ ν} :
    t.entries.Perm u.entries ↔ ∀ k, t.get? k = u.get? k := by
  rw [List.perm_ext_iff_of_nodup t.nodup_entries u.nodup_entries]
  constructor
  · intro h k
    apply Option.ext
    intro v
    rw [get?_eq_some_iff, get?_eq_some_iff]
    exact h (k, v)
  · intro h e
    rw [← get?_eq_some_iff, ← get?_eq_some_iff, h]

/-- A key that is there stands first, with its value, in some order of the entries. -/
theorem entries_perm_erase (h : t.get? k = some v) :
    t.entries.Perm ((k, v) :: (t.erase k).entries) := by
  have hnew : (k, v) ∉ (t.erase k).entries := by
    rw [← get?_eq_some_iff, get?_erase_self]
    exact Option.some_ne_none v ∘ Eq.symm
  rw [List.perm_ext_iff_of_nodup t.nodup_entries
    (List.nodup_cons.2 ⟨hnew, (t.erase k).nodup_entries⟩)]
  rintro ⟨l, w⟩
  rw [List.mem_cons, ← get?_eq_some_iff, ← get?_eq_some_iff, get?_erase, Prod.mk.injEq]
  by_cases hl : l = k
  · subst hl
    rw [h]
    simp [eq_comm]
  · simp [hl]

theorem values_perm_erase (h : t.get? k = some v) : t.values.Perm (v :: (t.erase k).values) :=
  (entries_perm_erase h).map Prod.snd

theorem values_insert (t : Table κ ν) (k : κ) (v : ν) :
    (t.insert k v).values = (t.erase k).values ++ [v] := by
  simp [values, insert]

theorem values_insert_of_get?_eq_none (h : t.get? k = none) (v : ν) :
    (t.insert k v).values = t.values ++ [v] := by
  rw [values_insert, erase_of_get?_eq_none h]

/-- More entries for the list under one key. -/
theorem flatten_values_insert_append (t : Table κ (List β)) (k : κ) (vs : List β) :
    (t.insert k ((t.get? k).getD [] ++ vs)).values.flatten.Perm (vs ++ t.values.flatten) := by
  rw [values_insert, List.flatten_append, List.flatten_singleton]
  cases h : t.get? k with
  | none =>
    rw [erase_of_get?_eq_none h]
    exact List.perm_append_comm
  | some old =>
    have hold : t.values.flatten.Perm (old ++ (t.erase k).values.flatten) :=
      (values_perm_erase h).flatten
    show ((t.erase k).values.flatten ++ (old ++ vs)).Perm (vs ++ t.values.flatten)
    calc (t.erase k).values.flatten ++ (old ++ vs)
      _ = ((t.erase k).values.flatten ++ old) ++ vs := (List.append_assoc _ _ _).symm
      _ ~ (old ++ (t.erase k).values.flatten) ++ vs := List.perm_append_comm.append_right vs
      _ ~ vs ++ (old ++ (t.erase k).values.flatten) := List.perm_append_comm
      _ ~ vs ++ t.values.flatten := hold.symm.append_left vs

theorem flatten_values_erase_subset (t : Table κ (List β)) (k : κ) :
    (t.erase k).values.flatten ⊆ t.values.flatten := by
  have hvalues : (t.erase k).values.Sublist t.values := List.filter_sublist.map Prod.snd
  intro x hx
  obtain ⟨vs, hvs, hx⟩ := List.mem_flatten.1 hx
  exact List.mem_flatten.2 ⟨vs, hvalues.subset hvs, hx⟩

theorem values_flatMap (t : Table κ ν) (f : ν → List β) :
    t.values.flatMap f = t.keys.flatMap fun k => ((t.get? k).map f).getD [] := by
  simp only [values, keys, List.flatMap_map]
  apply List.flatMap_congr
  rintro ⟨k, v⟩ he
  rw [get?_eq_some_iff.2 he, Option.map_some, Option.getD_some]

/-- Two tables with related values under the same keys: what is collected from one agrees
with what is collected from the other. -/
theorem values_flatMap_perm {f : ν → List β} {g : ω → List β}
    (hsome : ∀ k, (t.get? k).isSome = (u.get? k).isSome)
    (hperm : ∀ k v w, t.get? k = some v → u.get? k = some w → (f v).Perm (g w)) :
    (t.values.flatMap f).Perm (u.values.flatMap g) := by
  have hkeys : t.keys.Perm u.keys := by
    refine (List.perm_ext_iff_of_nodup t.nodup_keys u.nodup_keys).2 fun k => ?_
    show k ∈ t.keys ↔ k ∈ u.keys
    rw [← isSome_get?_iff, ← isSome_get?_iff, hsome]
  rw [values_flatMap, values_flatMap]
  refine (List.Perm.flatMap_right _ hkeys).trans (List.Perm.flatMap_left _ fun k hk => ?_)
  obtain ⟨w, hw⟩ := mem_keys.1 hk
  obtain ⟨v, hv⟩ := Option.isSome_iff_exists.1 ((hsome k).trans (Option.isSome_of_eq_some hw))
  rw [hv, hw]
  exact hperm k v w hv hw

end Table
end Unrouted
