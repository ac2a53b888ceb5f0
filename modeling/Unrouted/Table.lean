/-!
Finite tables.  A table keeps its entries in the order in which their keys came,
and holds every key at most once.
-/

namespace Unrouted

structure Table (κ ν : Type) where
  entries : List (κ × ν)
  nodup_keys : (entries.map Prod.fst).Nodup
deriving DecidableEq

namespace Table

variable {κ ν : Type}

def empty : Table κ ν := { entries := [], nodup_keys := List.nodup_nil }

instance : Inhabited (Table κ ν) := ⟨empty⟩

def keys (t : Table κ ν) : List κ := t.entries.map Prod.fst

def values (t : Table κ ν) : List ν := t.entries.map Prod.snd

/-- Changes every value; the keys stay in their places. -/
def mapValues (t : Table κ ν) (f : κ → ν → ν) : Table κ ν :=
  { entries := t.entries.map fun e => (e.1, f e.1 e.2),
    nodup_keys := by
      simpa [List.map_map, Function.comp_def] using t.nodup_keys }

variable [DecidableEq κ]

def get? (t : Table κ ν) (k : κ) : Option ν :=
  (t.entries.find? fun e => decide (e.1 = k)).map Prod.snd

def contains (t : Table κ ν) (k : κ) : Bool := (t.get? k).isSome

/-- Takes a key out; the others keep their order. -/
def erase (t : Table κ ν) (k : κ) : Table κ ν :=
  { entries := t.entries.filter fun e => decide (e.1 ≠ k),
    nodup_keys := List.Nodup.sublist (List.Sublist.map Prod.fst List.filter_sublist) t.nodup_keys }

/-- Gives a key a value and the last place. -/
def insert (t : Table κ ν) (k : κ) (v : ν) : Table κ ν :=
  { entries := (t.erase k).entries ++ [(k, v)],
    nodup_keys := by
      rw [List.map_append, List.nodup_append]
      refine ⟨(t.erase k).nodup_keys, by simp, ?_⟩
      intro a ha b hb
      simp only [List.map_cons, List.map_nil, List.mem_singleton] at hb
      subst hb
      simp only [erase, List.mem_map, List.mem_filter] at ha
      obtain ⟨e, ⟨_, he⟩, rfl⟩ := ha
      simpa using he }

/- Looking up is decided by membership, because a key stands in a table once. -/
theorem get?_eq_some_iff {t : Table κ ν} {k : κ} {v : ν} :
    t.get? k = some v ↔ (k, v) ∈ t.entries := by
  obtain ⟨entries, nodup⟩ := t
  simp only [get?]
  induction entries with
  | nil => simp
  | cons e rest ih =>
    simp only [List.map_cons, List.nodup_cons] at nodup
    by_cases h : e.1 = k
    · subst h
      have : ∀ w, (e.1, w) ∉ rest := fun w hw =>
        nodup.1 (List.mem_map.2 ⟨(e.1, w), hw, rfl⟩)
      simp only [List.find?_cons, decide_true, Option.map_some, Option.some.injEq,
        List.mem_cons, this, or_false]
      constructor
      · rintro rfl; rfl
      · intro hv; rw [← hv]
    · have hne : (k, v) ≠ e := fun hv => h (by rw [← hv])
      simp only [List.find?_cons, h, decide_false, List.mem_cons, hne, false_or]
      exact ih nodup.2

@[simp]
theorem get?_empty (k : κ) : (empty : Table κ ν).get? k = none := rfl

@[simp]
theorem get?_erase_self (t : Table κ ν) (k : κ) : (t.erase k).get? k = none := by
  apply Option.eq_none_iff_forall_ne_some.2
  intro v hv
  rw [get?_eq_some_iff] at hv
  simp [erase] at hv

theorem get?_erase_of_ne (t : Table κ ν) {k l : κ} (h : l ≠ k) :
    (t.erase k).get? l = t.get? l := by
  apply Option.ext
  intro v
  rw [get?_eq_some_iff, get?_eq_some_iff]
  simp [erase, h]

@[simp]
theorem get?_insert_self (t : Table κ ν) (k : κ) (v : ν) : (t.insert k v).get? k = some v := by
  rw [get?_eq_some_iff]
  simp [insert]

theorem get?_insert_of_ne (t : Table κ ν) {k l : κ} (v : ν) (h : l ≠ k) :
    (t.insert k v).get? l = t.get? l := by
  apply Option.ext
  intro w
  rw [get?_eq_some_iff, get?_eq_some_iff]
  simp [insert, erase, h]

theorem get?_erase (t : Table κ ν) (k l : κ) :
    (t.erase k).get? l = if l = k then none else t.get? l := by
  split
  · rename_i h
    rw [h, get?_erase_self]
  · rename_i h
    exact get?_erase_of_ne t h

theorem get?_insert (t : Table κ ν) (k l : κ) (v : ν) :
    (t.insert k v).get? l = if l = k then some v else t.get? l := by
  split
  · rename_i h
    rw [h, get?_insert_self]
  · rename_i h
    exact get?_insert_of_ne t v h

theorem mem_keys {t : Table κ ν} {k : κ} : k ∈ t.keys ↔ ∃ v, t.get? k = some v := by
  simp only [keys, List.mem_map, get?_eq_some_iff]
  constructor
  · rintro ⟨⟨_, v⟩, he, rfl⟩
    exact ⟨v, he⟩
  · rintro ⟨v, hv⟩
    exact ⟨(k, v), hv, rfl⟩

theorem mem_values {t : Table κ ν} {v : ν} : v ∈ t.values ↔ ∃ k, t.get? k = some v := by
  simp only [values, List.mem_map, get?_eq_some_iff]
  constructor
  · rintro ⟨⟨k, _⟩, he, rfl⟩
    exact ⟨k, he⟩
  · rintro ⟨k, hv⟩
    exact ⟨(k, v), hv, rfl⟩

theorem get?_mapValues (t : Table κ ν) (f : κ → ν → ν) (k : κ) :
    (t.mapValues f).get? k = (t.get? k).map (f k) := by
  apply Option.ext
  intro w
  rw [get?_eq_some_iff]
  simp only [mapValues, List.mem_map, Prod.mk.injEq, Option.map_eq_some_iff, get?_eq_some_iff]
  constructor
  · rintro ⟨⟨l, v⟩, he, rfl, rfl⟩
    exact ⟨v, he, rfl⟩
  · rintro ⟨v, he, rfl⟩
    exact ⟨(k, v), he, rfl, rfl⟩

theorem erase_of_get?_eq_none {t : Table κ ν} {k : κ} (h : t.get? k = none) : t.erase k = t := by
  obtain ⟨entries, nodup⟩ := t
  simp only [erase, mk.injEq, List.filter_eq_self, decide_eq_true_eq]
  rintro ⟨l, v⟩ he rfl
  have hv : get? ⟨entries, nodup⟩ l = some v := get?_eq_some_iff.2 he
  rw [h] at hv
  exact Option.some_ne_none v hv.symm

/-- Only the place of a key is lost when its old value is taken out first. -/
theorem insert_erase (t : Table κ ν) (k : κ) (v : ν) : (t.erase k).insert k v = t.insert k v := by
  rw [insert, insert, mk.injEq, erase_of_get?_eq_none (get?_erase_self t k)]

end Table

end Unrouted
