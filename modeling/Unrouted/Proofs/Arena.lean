import Unrouted.Arena
import Mathlib.Data.List.Nodup
import Mathlib.Data.List.Perm.Basic

/-!
What the operations of an arena do to its handles.  A handle resolves to the value
put there under it, and to nothing else, whatever happens to the other handles.
-/

namespace Unrouted
namespace Arena

variable {α : Type} {a : Arena α} {h k : Handle α} {v : α}

/-! ## Handles and entries -/

theorem get?_eq_some_iff :
    a.get? h = some v ↔
      a.slots[h.index]? = some { generation := h.generation, value := some v } := by
  unfold get?
  split
  · rename_i hs
    simp [hs]
  · rename_i s hs
    obtain ⟨g, w⟩ := s
    rw [hs]
    by_cases hg : g = h.generation
    · simp [hg]
    · simp [hg]

theorem live_iff : a.live h = true ↔ ∃ v, a.get? h = some v := by
  simp [live, Option.isSome_iff_exists]

theorem mem_entries : (h, v) ∈ a.entries ↔ a.get? h = some v := by
  rw [get?_eq_some_iff]
  simp only [entries, List.mem_filterMap, Option.map_eq_some_iff, Prod.mk.injEq]
  constructor
  · rintro ⟨⟨s, i⟩, hs, w, hw, rfl, rfl⟩
    rw [List.mk_mem_zipIdx_iff_getElem?, Array.getElem?_toList] at hs
    rw [hs, ← hw]
  · intro hs
    refine ⟨({ generation := h.generation, value := some v }, h.index), ?_, v, rfl, rfl, rfl⟩
    rw [List.mk_mem_zipIdx_iff_getElem?, Array.getElem?_toList, hs]

theorem mem_handles : h ∈ a.handles ↔ a.live h = true := by
  simp only [handles, List.mem_map, live_iff]
  constructor
  · rintro ⟨⟨k, v⟩, he, rfl⟩
    exact ⟨v, mem_entries.1 he⟩
  · rintro ⟨v, hv⟩
    exact ⟨(h, v), mem_entries.2 hv, rfl⟩

/-- The entries stand in the order of their slots, and a slot yields at most one. -/
theorem pairwise_entries (a : Arena α) :
    a.entries.Pairwise fun e e' => e.1.index < e'.1.index := by
  have hslots : a.slots.toList.zipIdx.Pairwise fun x y => x.2 < y.2 := by
    have hrange : (a.slots.toList.zipIdx.map Prod.snd).Pairwise (· < ·) := by
      rw [List.zipIdx_map_snd]
      exact List.pairwise_lt_range'
    exact List.pairwise_map.1 hrange
  refine List.Pairwise.filterMap _ ?_ hslots
  rintro ⟨s, i⟩ ⟨t, j⟩ hij b hb c hc
  obtain ⟨v, -, rfl⟩ := Option.map_eq_some_iff.1 hb
  obtain ⟨w, -, rfl⟩ := Option.map_eq_some_iff.1 hc
  exact hij

/-- No handle is listed twice. -/
theorem nodup_handles (a : Arena α) : a.handles.Nodup := by
  refine List.pairwise_map.2 (a.pairwise_entries.imp fun hlt heq => ?_)
  rw [heq] at hlt
  exact Nat.lt_irrefl _ hlt

theorem nodup_entries (a : Arena α) : a.entries.Nodup :=
  List.Nodup.of_map Prod.fst a.nodup_handles

/-- A handle more, and the entries are those of the smaller arena and one more. -/
theorem entries_perm_cons {b : Arena α} (hv : b.get? h = some v) (hnone : a.get? h = none)
    (hget : ∀ k, k ≠ h → b.get? k = a.get? k) : b.entries.Perm ((h, v) :: a.entries) := by
  have hnew : (h, v) ∉ a.entries := by
    rw [mem_entries, hnone]
    exact Option.some_ne_none v ∘ Eq.symm
  rw [List.perm_ext_iff_of_nodup b.nodup_entries (List.nodup_cons.2 ⟨hnew, a.nodup_entries⟩)]
  rintro ⟨k, w⟩
  rw [List.mem_cons, mem_entries, mem_entries, Prod.mk.injEq]
  by_cases hk : k = h
  · subst hk
    rw [hv, hnone]
    simp [eq_comm]
  · rw [hget k hk]
    simp [hk]

/-! ## Free slots -/

/-- The free list holds every empty slot once and no other, and the full slots are
counted. -/
structure WellFormed (a : Arena α) : Prop where
  nodup_free : a.free.Nodup
  mem_free : ∀ i, i ∈ a.free ↔ ∃ g, a.slots[i]? = some { generation := g, value := none }
  size_eq : a.size = a.entries.length

theorem wellFormed_empty : (empty : Arena α).WellFormed where
  nodup_free := List.nodup_nil
  mem_free := by simp [empty]
  size_eq := rfl

@[simp]
theorem get?_empty (h : Handle α) : (empty : Arena α).get? h = none := by
  simp [get?, empty]

/-- The slot an insertion fills resolves to nothing before. -/
theorem get?_insert_fst (ha : a.WellFormed) (v : α) : a.get? (a.insert v).1 = none := by
  unfold insert
  split
  · simp [get?]
  · rename_i i rest hfree
    have hi : i ∈ a.free := by simp [hfree]
    obtain ⟨g, hg⟩ := (ha.mem_free i).1 hi
    simp [get?, hg]

theorem get?_insert_self (ha : a.WellFormed) (v : α) :
    (a.insert v).2.get? (a.insert v).1 = some v := by
  unfold insert
  split
  · simp [get?]
  · rename_i i rest hfree
    have hi : i ∈ a.free := by simp [hfree]
    obtain ⟨g, hg⟩ := (ha.mem_free i).1 hi
    have hlt : i < a.slots.size := (Array.getElem?_eq_some_iff.1 hg).1
    simp [get?, hlt]

theorem get?_insert_of_ne (ha : a.WellFormed) (v : α) (hk : k ≠ (a.insert v).1) :
    (a.insert v).2.get? k = a.get? k := by
  obtain ⟨j, g⟩ := k
  cases hfree : a.free with
  | nil =>
    simp only [insert, hfree, ne_eq, Handle.mk.injEq, not_and] at hk ⊢
    by_cases hj : j = a.slots.size
    · subst hj
      have hg : (0 : UInt32) ≠ g := fun e => hk rfl e.symm
      simp [get?, hg]
    · simp [get?, Array.getElem?_push, hj]
  | cons i rest =>
    have hi : i ∈ a.free := by simp [hfree]
    obtain ⟨old, hold⟩ := (ha.mem_free i).1 hi
    obtain ⟨hlt, hslot⟩ := Array.getElem?_eq_some_iff.1 hold
    simp only [insert, hfree, ne_eq, Handle.mk.injEq, not_and] at hk ⊢
    by_cases hj : j = i
    · subst hj
      have hg : a.generation j + 1 ≠ g := fun e => hk rfl e.symm
      simp [get?, hlt, hg, hslot]
    · simp [get?, Array.getElem?_setIfInBounds_ne (Ne.symm hj)]

theorem get?_insert (ha : a.WellFormed) (v : α) (k : Handle α) :
    (a.insert v).2.get? k = if k = (a.insert v).1 then some v else a.get? k := by
  split
  · rename_i hk
    rw [hk, get?_insert_self ha]
  · rename_i hk
    exact get?_insert_of_ne ha v hk

theorem entries_insert_perm (ha : a.WellFormed) (v : α) :
    (a.insert v).2.entries.Perm (((a.insert v).1, v) :: a.entries) :=
  entries_perm_cons (get?_insert_self ha v) (get?_insert_fst ha v)
    fun _ hk => get?_insert_of_ne ha v hk

theorem WellFormed.insert (ha : a.WellFormed) (v : α) : (a.insert v).2.WellFormed where
  nodup_free := by
    unfold Arena.insert
    split
    · exact List.nodup_nil
    · rename_i i rest hfree
      have := ha.nodup_free
      rw [hfree] at this
      exact this.of_cons
  mem_free := by
    intro j
    have hj := ha.mem_free j
    unfold Arena.insert
    split
    · rename_i hfree
      rw [hfree] at hj
      rw [Array.getElem?_push]
      split
      · simp
      · exact hj
    · rename_i i rest hfree
      have hi : i ∈ a.free := by simp [hfree]
      obtain ⟨g, hg⟩ := (ha.mem_free i).1 hi
      have hlt : i < a.slots.size := (Array.getElem?_eq_some_iff.1 hg).1
      have hrest : i ∉ rest := by
        have := ha.nodup_free
        rw [hfree] at this
        exact (List.nodup_cons.1 this).1
      by_cases hji : j = i
      · subst hji
        simp [hlt, hrest]
      · rw [Array.getElem?_setIfInBounds_ne (Ne.symm hji), ← hj, hfree]
        simp [hji]
  size_eq := by
    rw [(entries_insert_perm ha v).length_eq, List.length_cons, ← ha.size_eq]
    unfold Arena.insert
    split <;> rfl

/-! ## Emptying a slot -/

theorem erase_of_get?_eq_none (hnone : a.get? h = none) : a.erase h = a := by
  simp [erase, live, hnone]

theorem get?_erase (a : Arena α) (h k : Handle α) :
    (a.erase h).get? k = if k = h then none else a.get? k := by
  cases hv : a.get? h with
  | none =>
    rw [erase_of_get?_eq_none hv]
    split
    · rename_i hk
      rw [hk, hv]
    · rfl
  | some v =>
    obtain ⟨hlt, hslot⟩ := Array.getElem?_eq_some_iff.1 (get?_eq_some_iff.1 hv)
    have hlive : a.live h = true := live_iff.2 ⟨v, hv⟩
    obtain ⟨i, g⟩ := h
    obtain ⟨j, g'⟩ := k
    simp only [erase, hlive, if_true, Handle.mk.injEq] at hslot hlt ⊢
    by_cases hj : j = i
    · subst hj
      by_cases hg : g' = g
      · simp [get?, hlt, hg]
      · simp [get?, hlt, hg, hslot, Ne.symm hg]
    · simp [get?, Array.getElem?_setIfInBounds_ne (Ne.symm hj), hj]

@[simp]
theorem get?_erase_self (a : Arena α) (h : Handle α) : (a.erase h).get? h = none := by
  simp [get?_erase]

theorem entries_perm_erase (hv : a.get? h = some v) :
    a.entries.Perm ((h, v) :: (a.erase h).entries) :=
  entries_perm_cons hv (get?_erase_self a h) fun k hk => by rw [get?_erase, if_neg hk]

theorem WellFormed.erase (ha : a.WellFormed) (h : Handle α) : (a.erase h).WellFormed := by
  cases hv : a.get? h with
  | none => rwa [erase_of_get?_eq_none hv]
  | some v =>
    have hslot := get?_eq_some_iff.1 hv
    have hlt : h.index < a.slots.size := (Array.getElem?_eq_some_iff.1 hslot).1
    have hlive : a.live h = true := live_iff.2 ⟨v, hv⟩
    have hfull : h.index ∉ a.free := by
      rw [ha.mem_free, hslot]
      simp
    have hsize := (entries_perm_erase hv).length_eq
    constructor
    · simpa [Arena.erase, hlive, hfull] using ha.nodup_free
    · intro j
      simp only [Arena.erase, hlive, if_true, List.mem_cons]
      by_cases hj : j = h.index
      · subst hj
        simp [hlt]
      · rw [Array.getElem?_setIfInBounds_ne (Ne.symm hj), ← ha.mem_free]
        simp [hj]
    · rw [List.length_cons] at hsize
      have : (a.erase h).size = a.size - 1 := by simp [Arena.erase, hlive]
      rw [this, ha.size_eq]
      omega

theorem get?_foldl_erase (hs : List (Handle α)) (a : Arena α) (k : Handle α) :
    (hs.foldl erase a).get? k = if k ∈ hs then none else a.get? k := by
  induction hs generalizing a with
  | nil => simp
  | cons h rest ih =>
    rw [List.foldl_cons, ih, get?_erase]
    by_cases hk : k = h
    · simp [hk]
    · simp [hk]

theorem WellFormed.foldl_erase (ha : a.WellFormed) (hs : List (Handle α)) :
    (hs.foldl Arena.erase a).WellFormed := by
  induction hs generalizing a with
  | nil => exact ha
  | cons h rest ih => exact ih (ha.erase h)

/-! ## Changing a value in its place -/

theorem get?_modify (a : Arena α) (h k : Handle α) (f : α → α) :
    (a.modify h f).get? k = if k = h then (a.get? h).map f else a.get? k := by
  cases hv : a.get? h with
  | none =>
    simp only [modify, hv, Option.map_none]
    split
    · rename_i hk
      rw [hk, hv]
    · rfl
  | some v =>
    obtain ⟨hlt, hslot⟩ := Array.getElem?_eq_some_iff.1 (get?_eq_some_iff.1 hv)
    simp only [modify, hv, Option.map_some]
    obtain ⟨i, g⟩ := h
    obtain ⟨j, g'⟩ := k
    simp only [Handle.mk.injEq] at hslot hlt ⊢
    by_cases hj : j = i
    · subst hj
      by_cases hg : g' = g
      · simp [get?, hlt, hg]
      · simp [get?, hlt, hg, hslot, Ne.symm hg]
    · simp [get?, Array.getElem?_setIfInBounds_ne (Ne.symm hj), hj]

/-- The slots in use and their generations do not change with a value. -/
theorem handles_modify (a : Arena α) (h : Handle α) (f : α → α) :
    (a.modify h f).handles = a.handles := by
  let shape (s : Slot α) : UInt32 × Bool := (s.generation, s.value.isSome)
  have handles_eq (b : Arena α) : b.handles = (b.slots.toList.map shape).zipIdx.filterMap
      fun x => if x.1.2 then some { index := x.2, generation := x.1.1 } else none := by
    rw [handles, entries, List.map_filterMap, List.zipIdx_map, List.filterMap_map]
    apply List.filterMap_congr
    rintro ⟨⟨g, w⟩, i⟩ -
    cases w <;> simp [shape]
  suffices (a.modify h f).slots.toList.map shape = a.slots.toList.map shape by
    rw [handles_eq, handles_eq, this]
  cases hv : a.get? h with
  | none => simp [modify, hv]
  | some v =>
    obtain ⟨hlt, hslot⟩ := Array.getElem?_eq_some_iff.1 (get?_eq_some_iff.1 hv)
    have hlt' : h.index < (a.slots.toList.map shape).length := by simpa using hlt
    have hshape : shape { generation := h.generation, value := some (f v) } =
        (a.slots.toList.map shape)[h.index] := by
      simp [shape, hslot]
    simp only [modify, hv, Array.toList_setIfInBounds, List.map_set]
    rw [hshape, List.set_getElem_self]

theorem WellFormed.modify (ha : a.WellFormed) (h : Handle α) (f : α → α) :
    (a.modify h f).WellFormed := by
  cases hv : a.get? h with
  | none =>
    rw [show a.modify h f = a by simp [Arena.modify, hv]]
    exact ha
  | some v =>
    have hslot := get?_eq_some_iff.1 hv
    have hlt : h.index < a.slots.size := (Array.getElem?_eq_some_iff.1 hslot).1
    constructor
    · simpa [Arena.modify, hv] using ha.nodup_free
    · intro i
      have hi := ha.mem_free i
      simp only [Arena.modify, hv]
      by_cases hih : i = h.index
      · subst hih
        rw [hi, hslot]
        simp [hlt]
      · rw [Array.getElem?_setIfInBounds_ne (Ne.symm hih)]
        exact hi
    · have hlength := congrArg List.length (handles_modify a h f)
      simp only [handles, List.length_map] at hlength
      rw [hlength, ← ha.size_eq]
      simp [Arena.modify, hv]

/-! ## Generations -/

/-- A handle that resolves is of the generation that its slot is in. -/
theorem generation_of_get? (hv : a.get? h = some v) :
    a.generation h.index = h.generation ∧ h.index < a.slots.size := by
  have hslot := get?_eq_some_iff.1 hv
  exact ⟨by simp [generation, hslot], (Array.getElem?_eq_some_iff.1 hslot).1⟩

/-- The slot that is filled next: the one emptied last, or a new one. -/
theorem index_insert (a : Arena α) (v : α) :
    (a.insert v).1.index = a.free.head?.getD a.slots.size := by
  unfold insert
  split <;> simp [*]

theorem free_insert (a : Arena α) (v : α) : (a.insert v).2.free = a.free.tail := by
  unfold insert
  split <;> simp [*]

/-- A slot that is filled again enters its next generation, and a new one its first. -/
theorem generation_insert (ha : a.WellFormed) (v : α) (i : Nat) :
    (a.insert v).2.generation i =
      if a.free.head? = some i then a.generation i + 1 else a.generation i := by
  cases hfree : a.free with
  | nil =>
    simp only [insert, hfree, generation, Array.getElem?_push, List.head?_nil, reduceCtorEq,
      if_false]
    by_cases hi : i = a.slots.size
    · simp [hi]
    · simp [hi]
  | cons j rest =>
    obtain ⟨g, hg⟩ := (ha.mem_free j).1 (by simp [hfree])
    obtain ⟨hlt, hslot⟩ := Array.getElem?_eq_some_iff.1 hg
    simp only [insert, hfree, generation, List.head?_cons, Option.some.injEq]
    by_cases hij : j = i
    · subst hij
      simp [hlt]
    · simp [Array.getElem?_setIfInBounds_ne hij, hij]

theorem generation_set {g : UInt32} {w : Option α} (hv : a.get? h = some v)
    (hg : g = h.generation) (i : Nat) :
    ({ a with slots := a.slots.setIfInBounds h.index { generation := g, value := w } } :
      Arena α).generation i = a.generation i := by
  obtain ⟨hlt, hslot⟩ := Array.getElem?_eq_some_iff.1 (get?_eq_some_iff.1 hv)
  simp only [generation]
  by_cases hi : h.index = i
  · subst hi
    simp [hlt, hslot, hg]
  · rw [Array.getElem?_setIfInBounds_ne hi]

theorem generation_erase (a : Arena α) (h : Handle α) (i : Nat) :
    (a.erase h).generation i = a.generation i := by
  cases hv : a.get? h with
  | none => rw [erase_of_get?_eq_none hv]
  | some v =>
    have hlive : a.live h = true := live_iff.2 ⟨v, hv⟩
    simp only [erase, hlive, if_true]
    exact generation_set hv rfl i

theorem generation_modify (a : Arena α) (h : Handle α) (f : α → α) (i : Nat) :
    (a.modify h f).generation i = a.generation i := by
  cases hv : a.get? h with
  | none => simp only [modify, hv]
  | some v =>
    simp only [modify, hv]
    exact generation_set hv rfl i

theorem size_slots_erase (a : Arena α) (h : Handle α) :
    (a.erase h).slots.size = a.slots.size := by
  unfold erase
  split
  · exact Array.size_setIfInBounds
  · rfl

theorem size_slots_modify (a : Arena α) (h : Handle α) (f : α → α) :
    (a.modify h f).slots.size = a.slots.size := by
  unfold modify
  split
  · rfl
  · exact Array.size_setIfInBounds

theorem size_slots_insert (a : Arena α) (v : α) :
    a.slots.size ≤ (a.insert v).2.slots.size := by
  unfold insert
  split
  · simp
  · simp

/-! ## Arenas that answer alike -/

/-- A slot is told by its generation and by what its present handle finds. -/
theorem getElem?_slots (a : Arena α) (i : Nat) :
    a.slots[i]? =
      if i < a.slots.size then
        some { generation := a.generation i,
               value := a.get? { index := i, generation := a.generation i } }
      else none := by
  by_cases hi : i < a.slots.size
  · simp [get?, generation, hi]
  · simp [hi]

theorem ext_get? {b : Arena α} (hsize : a.slots.size = b.slots.size)
    (hgeneration : ∀ i, a.generation i = b.generation i) (hget : ∀ h, a.get? h = b.get? h)
    (hfree : a.free = b.free) (hfull : a.size = b.size) : a = b := by
  have hslots : a.slots = b.slots := by
    apply Array.ext_getElem?
    intro i
    rw [getElem?_slots, getElem?_slots, hsize, hgeneration, hget]
  obtain ⟨slots, free, size⟩ := a
  obtain ⟨slots', free', size'⟩ := b
  subst hslots hfree hfull
  rfl

theorem free_modify (a : Arena α) (h : Handle α) (f : α → α) : (a.modify h f).free = a.free := by
  unfold modify
  split <;> rfl

theorem size_modify (a : Arena α) (h : Handle α) (f : α → α) : (a.modify h f).size = a.size := by
  unfold modify
  split <;> rfl

theorem modify_eq_self {f : α → α} (hv : ∀ v, a.get? h = some v → f v = v) : a.modify h f = a := by
  refine ext_get? (size_slots_modify a h f) (generation_modify a h f) (fun k => ?_)
    (free_modify a h f) (size_modify a h f)
  rw [get?_modify]
  split
  · rename_i hk
    rw [hk]
    cases hfound : a.get? h with
    | none => rfl
    | some v => exact congrArg some (hv v hfound)
  · rfl

theorem modify_modify (a : Arena α) (h : Handle α) (f g : α → α) :
    (a.modify h f).modify h g = a.modify h (g ∘ f) := by
  apply ext_get?
  · simp only [size_slots_modify]
  · simp only [generation_modify, implies_true]
  · intro k
    rw [get?_modify, get?_modify, get?_modify, get?_modify]
    split
    · rw [if_pos rfl, Option.map_map]
    · rfl
  · simp only [free_modify]
  · simp only [size_modify]

/-- Changes that commute may be made in either order, also through one handle. -/
theorem modify_comm {f g : α → α} (hfg : ∀ v, f (g v) = g (f v)) (a : Arena α) (h k : Handle α) :
    (a.modify h f).modify k g = (a.modify k g).modify h f := by
  apply ext_get?
  · simp only [size_slots_modify]
  · simp only [generation_modify, implies_true]
  · intro l
    simp only [get?_modify]
    by_cases hl : l = h
    · by_cases hk : l = k
      · subst hl hk
        cases a.get? l with
        | none => simp
        | some v => simp [hfg]
      · subst hl
        simp [hk]
    · by_cases hk : l = k
      · subst hk
        simp [hl]
      · simp [hl, hk]
  · simp only [free_modify]
  · simp only [size_modify]

/-! ## Changing every value -/

/-- Every value is changed in its slot. -/
def map (f : α → α) (a : Arena α) : Arena α :=
  { a with slots := a.slots.map fun s => { s with value := s.value.map f } }

theorem get?_map (f : α → α) (a : Arena α) (h : Handle α) :
    (a.map f).get? h = (a.get? h).map f := by
  simp only [get?, map, Array.getElem?_map]
  cases a.slots[h.index]? with
  | none => rfl
  | some s =>
    simp only [Option.map_some]
    split <;> rfl

theorem live_map (f : α → α) (a : Arena α) (h : Handle α) : (a.map f).live h = a.live h := by
  rw [live, get?_map, Option.isSome_map, live]

theorem entries_map (f : α → α) (a : Arena α) :
    (a.map f).entries = a.entries.map fun e => (e.1, f e.2) := by
  simp only [entries, map, Array.toList_map, List.zipIdx_map, List.filterMap_map,
    List.map_filterMap]
  congr 1
  funext ⟨⟨g, v⟩, i⟩
  cases v <;> rfl

theorem handles_map (f : α → α) (a : Arena α) : (a.map f).handles = a.handles := by
  rw [handles, entries_map, List.map_map, handles]
  rfl

theorem generation_map (f : α → α) (a : Arena α) (i : Nat) :
    (a.map f).generation i = a.generation i := by
  simp only [generation, map, Array.getElem?_map]
  cases a.slots[i]? <;> rfl

theorem map_insert (f : α → α) (a : Arena α) (v : α) :
    (a.map f).insert (f v) = ((a.insert v).1, (a.insert v).2.map f) := by
  have hfree : (a.map f).free = a.free := rfl
  cases h : a.free with
  | nil => simp [insert, h, map]
  | cons i rest =>
    simp only [insert, hfree, h, generation_map]
    simp only [map, Array.map_setIfInBounds, Option.map_some]

theorem map_erase (f : α → α) (a : Arena α) (h : Handle α) :
    (a.erase h).map f = (a.map f).erase h := by
  simp only [erase, live_map]
  split
  · simp only [map, Array.map_setIfInBounds, Option.map_none]
  · rfl

theorem map_modify {f g g' : α → α} (hg : ∀ v, f (g v) = g' (f v)) (a : Arena α) (h : Handle α) :
    (a.modify h g).map f = (a.map f).modify h g' := by
  simp only [modify, get?_map]
  cases a.get? h with
  | none => rfl
  | some v => simp only [map, Option.map_some, Array.map_setIfInBounds, hg]

/-! ## Owners -/

/-- The listed handles are live, no other one is, and none is listed twice. -/
structure Owned (a : Arena α) (hs : List (Handle α)) : Prop where
  wellFormed : a.WellFormed
  perm : hs.Perm a.handles

namespace Owned

variable {hs gone kept : List (Handle α)}

theorem empty : (Arena.empty : Arena α).Owned [] := ⟨wellFormed_empty, List.Perm.refl _⟩

theorem congr {ks : List (Handle α)} (ha : a.Owned hs) (hperm : ks.Perm hs) : a.Owned ks :=
  ⟨ha.wellFormed, hperm.trans ha.perm⟩

theorem nodup (ha : a.Owned hs) : hs.Nodup := ha.perm.nodup_iff.2 a.nodup_handles

theorem mem (ha : a.Owned hs) : h ∈ hs ↔ ∃ v, a.get? h = some v := by
  rw [ha.perm.mem_iff, mem_handles, live_iff]

/-- The values of an arena in the order of an owner's list. -/
theorem entries_perm (ha : a.Owned hs) :
    (a.entries.map fun e => some e.2).Perm (hs.map a.get?) := by
  have hvalues : (a.entries.map fun e => some e.2) = a.handles.map a.get? := by
    rw [handles, List.map_map]
    apply List.map_congr_left
    intro e he
    exact (mem_entries.1 he).symm
  rw [hvalues]
  exact (ha.perm.map a.get?).symm

/-- The erased handles go, and the others keep their values. -/
theorem foldl_erase (ha : a.Owned (gone ++ kept)) : (gone.foldl Arena.erase a).Owned kept := by
  have hdisjoint := List.nodup_append.1 ha.nodup
  refine ⟨ha.wellFormed.foldl_erase gone, ?_⟩
  rw [List.perm_ext_iff_of_nodup hdisjoint.2.1 (nodup_handles _)]
  intro k
  have hk : k ∈ gone ++ kept ↔ ∃ v, a.get? k = some v := ha.mem
  rw [mem_handles, live_iff, get?_foldl_erase]
  rw [List.mem_append] at hk
  split
  · rename_i hgone
    have hnot : k ∉ kept := fun hkept => hdisjoint.2.2 k hgone k hkept rfl
    simp [hnot]
  · rename_i hgone
    rw [← hk]
    simp [hgone]

theorem get?_foldl_erase_of_mem (ha : a.Owned (gone ++ kept)) (hk : k ∈ kept) :
    (gone.foldl Arena.erase a).get? k = a.get? k := by
  rw [get?_foldl_erase, if_neg]
  intro hgone
  exact (List.nodup_append.1 ha.nodup).2.2 k hgone k hk rfl

theorem insert (ha : a.Owned hs) (v : α) : (a.insert v).2.Owned ((a.insert v).1 :: hs) := by
  refine ⟨ha.wellFormed.insert v, ?_⟩
  have hentries := (entries_insert_perm ha.wellFormed v).map Prod.fst
  exact (ha.perm.cons _).trans hentries.symm

theorem get?_insert_of_mem (ha : a.Owned hs) (v : α) (hk : k ∈ hs) :
    (a.insert v).2.get? k = a.get? k := by
  apply get?_insert_of_ne ha.wellFormed
  intro e
  obtain ⟨w, hw⟩ := ha.mem.1 hk
  rw [e, get?_insert_fst ha.wellFormed] at hw
  exact Option.some_ne_none w hw.symm

end Owned

end Arena
end Unrouted
