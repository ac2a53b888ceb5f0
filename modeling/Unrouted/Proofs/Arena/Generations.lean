import Mathlib.Algebra.Group.Nat.Defs
import Unrouted.Proofs.Arena

/-!
What a handle is worth over the life of an arena.  A slot enters its next generation each time
it is filled again, so its generation counts the refills, until the `2 ^ 32` generations have
gone round once.  A handle therefore finds the value that was put there under it as long as it
is not erased, and nothing after that, except when its slot comes back to its generation.
-/

namespace Unrouted
namespace Arena

variable {α : Type} {a : Arena α} {h : Handle α} {v : α} {i : Nat}

/-! ## Histories -/

/-- What can be done to an arena.  A handle may be live or stale, or come from elsewhere. -/
inductive Operation (α : Type) where
  | insert (v : α)
  | erase (h : Handle α)
  | modify (h : Handle α) (f : α → α)

def apply (a : Arena α) : Operation α → Arena α
  | .insert v => (a.insert v).2
  | .erase h => a.erase h
  | .modify h f => a.modify h f

def run (a : Arena α) (history : List (Operation α)) : Arena α := history.foldl apply a

/-- How often an operation fills a slot, which is once or not at all. -/
def fills (a : Arena α) (i : Nat) : Operation α → Nat
  | .insert v => if (a.insert v).1.index = i then 1 else 0
  | .erase _ | .modify _ _ => 0

/-- How often a slot is filled while an arena takes some operations. -/
def refills (a : Arena α) (i : Nat) : List (Operation α) → Nat
  | [] => 0
  | op :: rest => a.fills i op + (a.apply op).refills i rest

/-- What becomes of the value under a handle: it changes through this handle only. -/
def Operation.change (h : Handle α) : Operation α → α → α
  | .modify k f, v => if k = h then f v else v
  | .insert _, v | .erase _, v => v

/-- What the value under a handle has become after some operations. -/
def changed (h : Handle α) (v : α) (history : List (Operation α)) : α :=
  history.foldl (fun v op => op.change h v) v

theorem WellFormed.apply (ha : a.WellFormed) (op : Operation α) : (a.apply op).WellFormed := by
  cases op with
  | insert v => exact ha.insert v
  | erase h => exact ha.erase h
  | modify h f => exact ha.modify h f

theorem WellFormed.run (ha : a.WellFormed) (history : List (Operation α)) :
    (a.run history).WellFormed :=
  List.foldlRecOn (motive := WellFormed) history _ ha fun _ hb op _ => hb.apply op

/-! ## Refills and generations -/

theorem refills_append (a : Arena α) (i : Nat) (history later : List (Operation α)) :
    a.refills i (history ++ later) = a.refills i history + (a.run history).refills i later := by
  induction history generalizing a with
  | nil => exact (Nat.zero_add _).symm
  | cons op rest ih =>
    show a.fills i op + (a.apply op).refills i (rest ++ later) = _
    rw [ih, refills, Nat.add_assoc]
    rfl

theorem size_slots_apply (a : Arena α) (op : Operation α) :
    a.slots.size ≤ (a.apply op).slots.size := by
  cases op with
  | insert v => exact size_slots_insert a v
  | erase h => exact Nat.le_of_eq (size_slots_erase a h).symm
  | modify h f => exact Nat.le_of_eq (size_slots_modify a h f).symm

/-- A slot that is there is filled when it is the one emptied last. -/
theorem index_insert_eq_iff (hi : i < a.slots.size) (v : α) :
    (a.insert v).1.index = i ↔ a.free.head? = some i := by
  rw [index_insert]
  cases a.free.head? with
  | none =>
    show a.slots.size = i ↔ none = some i
    simp
    omega
  | some j => simp

theorem generation_apply (ha : a.WellFormed) (hi : i < a.slots.size) (op : Operation α) :
    (a.apply op).generation i = a.generation i + UInt32.ofNat (a.fills i op) := by
  cases op with
  | insert v =>
    show (a.insert v).2.generation i = _
    rw [generation_insert ha, fills]
    by_cases hfree : a.free.head? = some i
    · rw [if_pos hfree, if_pos ((index_insert_eq_iff hi v).2 hfree)]
      rfl
    · rw [if_neg hfree, if_neg (hfree ∘ (index_insert_eq_iff hi v).1)]
      exact (UInt32.add_zero _).symm
  | erase h => exact (generation_erase a h i).trans (UInt32.add_zero _).symm
  | modify h f => exact (generation_modify a h f i).trans (UInt32.add_zero _).symm

/-- The generation of a slot counts how often it was filled again. -/
theorem generation_run (ha : a.WellFormed) (hi : i < a.slots.size)
    (history : List (Operation α)) :
    (a.run history).generation i = a.generation i + UInt32.ofNat (a.refills i history) := by
  induction history generalizing a with
  | nil => exact (UInt32.add_zero _).symm
  | cons op rest ih =>
    have hsize := Nat.lt_of_lt_of_le hi (size_slots_apply a op)
    show ((a.apply op).run rest).generation i = _
    rw [ih (ha.apply op) hsize, generation_apply ha hi, refills, UInt32.ofNat_add,
      UInt32.add_assoc]

/-- A slot is in the same generation again only after full turns. -/
theorem dvd_refills_of_generation_eq (ha : a.WellFormed) (hi : i < a.slots.size)
    {history : List (Operation α)} (hsame : (a.run history).generation i = a.generation i) :
    2 ^ 32 ∣ a.refills i history := by
  have hturn := congrArg UInt32.toNat ((generation_run ha hi history).symm.trans hsame)
  rw [UInt32.toNat_add, UInt32.toNat_ofNat'] at hturn
  have hlt := (a.generation i).toNat_lt
  omega

/-! ## Values and handles -/

/-- A value stays under its handle until that handle is erased. -/
theorem get?_apply_of_some (ha : a.WellFormed) (hv : a.get? h = some v) {op : Operation α}
    (hop : op ≠ .erase h) : (a.apply op).get? h = some (op.change h v) := by
  cases op with
  | insert w =>
    have hother : h ≠ (a.insert w).1 := by
      intro heq
      rw [heq, get?_insert_fst ha] at hv
      exact Option.some_ne_none v hv.symm
    exact (get?_insert_of_ne ha w hother).trans hv
  | erase k =>
    have hother : h ≠ k := fun heq => hop (congrArg Operation.erase heq.symm)
    exact (get?_erase a k h).trans ((if_neg hother).trans hv)
  | modify k f =>
    show (a.modify k f).get? h = some (if k = h then f v else v)
    rw [get?_modify]
    by_cases hk : h = k
    · subst hk
      simp [hv]
    · simp [hk, Ne.symm hk, hv]

theorem get?_run_of_some (ha : a.WellFormed) (hv : a.get? h = some v)
    {history : List (Operation α)} (hkept : ∀ op ∈ history, op ≠ .erase h) :
    (a.run history).get? h = some (changed h v history) := by
  induction history generalizing a v with
  | nil => exact hv
  | cons op rest ih =>
    have hop := get?_apply_of_some ha hv (hkept op List.mem_cons_self)
    exact ih (ha.apply op) hop fun op' hop' => hkept op' (List.mem_cons_of_mem op hop')

/-- A handle that finds nothing finds nothing until its slot is filled. -/
theorem get?_apply_of_none (ha : a.WellFormed) (hnone : a.get? h = none) {op : Operation α}
    (hfills : a.fills h.index op = 0) : (a.apply op).get? h = none := by
  cases op with
  | insert w =>
    have hother : h ≠ (a.insert w).1 := by
      rintro rfl
      simp [fills] at hfills
    exact (get?_insert_of_ne ha w hother).trans hnone
  | erase k =>
    show (a.erase k).get? h = none
    rw [get?_erase, hnone, ite_self]
  | modify k f =>
    show (a.modify k f).get? h = none
    rw [get?_modify]
    split
    · rename_i hk
      rw [← hk, hnone]
      rfl
    · exact hnone

theorem get?_run_of_none (ha : a.WellFormed) (hnone : a.get? h = none)
    {history : List (Operation α)} (hrefills : a.refills h.index history = 0) :
    (a.run history).get? h = none := by
  induction history generalizing a with
  | nil => exact hnone
  | cons op rest ih =>
    obtain ⟨hfirst, hrest⟩ := Nat.add_eq_zero_iff.1 hrefills
    exact ih (ha.apply op) (get?_apply_of_none ha hnone hfirst) hrest

/-- A slot that is not in the generation of a handle keeps nothing for it. -/
theorem get?_run_of_refills (ha : a.WellFormed) (hi : h.index < a.slots.size)
    (hgen : a.generation h.index = h.generation) {history : List (Operation α)}
    (hturns : ¬2 ^ 32 ∣ a.refills h.index history) : (a.run history).get? h = none := by
  cases hv : (a.run history).get? h with
  | none => rfl
  | some v =>
    have hsame := (generation_of_get? hv).1.trans hgen.symm
    exact absurd (dvd_refills_of_generation_eq ha hi hsame) hturns

/-- An erased handle finds nothing, whether its slot is still empty or in another generation. -/
theorem get?_run_erase (ha : a.WellFormed) (hlive : a.live h = true)
    {history : List (Operation α)}
    (hturns : (a.erase h).refills h.index history = 0 ∨
      ¬2 ^ 32 ∣ (a.erase h).refills h.index history) :
    ((a.erase h).run history).get? h = none := by
  obtain ⟨v, hv⟩ := live_iff.1 hlive
  obtain ⟨hgen, hi⟩ := generation_of_get? hv
  rcases hturns with hempty | hturns
  · exact get?_run_of_none (ha.erase h) (get?_erase_self a h) hempty
  · refine get?_run_of_refills (ha.erase h) ?_ ?_ hturns
    · rwa [size_slots_erase]
    · rwa [generation_erase]

/-- A handle is given out again only after a full turn of the generations of its slot. -/
theorem insert_run_ne (ha : a.WellFormed) (v : α) (history : List (Operation α)) (w : α)
    (hturn : (a.insert v).2.refills (a.insert v).1.index (history ++ [.insert w]) < 2 ^ 32) :
    (((a.insert v).2.run history).insert w).1 ≠ (a.insert v).1 := by
  have hinserted : (a.insert v).2.WellFormed := ha.insert v
  obtain ⟨hgen, hi⟩ := generation_of_get? (get?_insert_self ha v)
  generalize (a.insert v).1 = h at hturn hgen hi
  generalize (a.insert v).2 = b at hturn hgen hi hinserted
  intro hagain
  have hlast : (b.run (history ++ [.insert w])).generation h.index = h.generation := by
    have hfound := get?_insert_self (hinserted.run history) w
    rw [hagain] at hfound
    rw [run, List.foldl_append]
    exact (generation_of_get? hfound).1
  have hturns := dvd_refills_of_generation_eq hinserted hi (hlast.trans hgen.symm)
  -- The last insertion fills the slot, so the turn is not an empty one.
  have hfilled : 0 < b.refills h.index (history ++ [.insert w]) := by
    have hfills : (b.run history).refills h.index [.insert w] = 1 := by
      rw [refills, fills, if_pos (congrArg Handle.index hagain), refills]
    rw [refills_append]
    omega
  exact absurd (Nat.le_of_dvd hfilled hturns) (Nat.not_le.2 hturn)

/-! ## Arenas after a history -/

/-- What an arena keeps to, whatever is done to it next. -/
structure Dependable (a : Arena α) : Prop where
  size_eq : a.size = a.slots.toList.countP fun s => s.value.isSome
  nodup_free : a.free.Nodup
  mem_free : ∀ i, i ∈ a.free ↔ ∃ g, a.slots[i]? = some { generation := g, value := none }
  /-- The value that is put there stays under its handle until that is erased, and changes only
  through it. -/
  kept : ∀ v later, (∀ op ∈ later, op ≠ .erase (a.insert v).1) →
    ((a.insert v).2.run later).get? (a.insert v).1 = some (changed (a.insert v).1 v later)
  /-- An erased handle finds nothing, and nothing can be erased through it, unless its slot has
  gone through all generations. -/
  gone : ∀ h later, a.live h = true →
    (a.erase h).refills h.index later = 0 ∨ ¬2 ^ 32 ∣ (a.erase h).refills h.index later →
    ((a.erase h).run later).get? h = none ∧
      ((a.erase h).run later).erase h = (a.erase h).run later
  /-- No handle is given out while it is live. -/
  fresh : ∀ v h, a.live h = true → (a.insert v).1 ≠ h
  /-- Nor is it given out again within one turn of the generations of its slot. -/
  apart : ∀ v later w,
    (a.insert v).2.refills (a.insert v).1.index (later ++ [.insert w]) < 2 ^ 32 →
    (((a.insert v).2.run later).insert w).1 ≠ (a.insert v).1

/-- As many slots are full as there are entries. -/
theorem length_entries (a : Arena α) :
    a.entries.length = a.slots.toList.countP fun s => s.value.isSome := by
  rw [entries, List.length_filterMap_eq_countP]
  simp only [Option.isSome_map]
  show List.countP ((fun s : Slot α => s.value.isSome) ∘ Prod.fst) a.slots.toList.zipIdx = _
  rw [← List.countP_map, List.zipIdx_map_fst]

theorem dependable_run (history : List (Operation α)) : (run empty history).Dependable := by
  have ha : (run (empty : Arena α) history).WellFormed := wellFormed_empty.run history
  generalize run empty history = a at ha
  refine ⟨ha.size_eq.trans (length_entries a), ha.nodup_free, ha.mem_free, ?_, ?_, ?_, ?_⟩
  · intro v later hkept
    exact get?_run_of_some (ha.insert v) (get?_insert_self ha v) hkept
  · intro h later hlive hturns
    have hnone := get?_run_erase ha hlive hturns
    exact ⟨hnone, erase_of_get?_eq_none hnone⟩
  · rintro v h hlive rfl
    obtain ⟨w, hw⟩ := live_iff.1 hlive
    rw [get?_insert_fst ha] at hw
    exact Option.some_ne_none w hw.symm
  · exact insert_run_ne ha

/-- A slot is filled again: the handle that was erased finds nothing and erases nothing, and the
one that is given out for the slot now is another. -/
theorem dependable_slotReused :
    let a : Arena Nat := run empty [.insert 5, .insert 7]
    let h : Handle Nat := { index := 0, generation := 0 }
    let later : List (Operation Nat) := [.insert 8, .erase h, .erase { index := 9, generation := 4 }]
    (a.live h = true ∧ (a.erase h).refills h.index later = 1) ∧
      ((a.erase h).run later).get? h = none ∧
      ((a.erase h).run later).erase h = (a.erase h).run later ∧
      (((a.insert 6).2.run (.erase h :: later)).insert 3).1 ≠ (a.insert 6).1 := by
  have hkeeps := dependable_run [.insert 5, .insert (7 : Nat)]
  have hrefilled := hkeeps.gone { index := 0, generation := 0 }
    [.insert 8, .erase { index := 0, generation := 0 }, .erase { index := 9, generation := 4 }]
    (by decide) (.inr (by decide))
  exact ⟨by decide, hrefilled.1, hrefilled.2, hkeeps.apart 6 _ 3 (by decide)⟩

end Arena
end Unrouted
