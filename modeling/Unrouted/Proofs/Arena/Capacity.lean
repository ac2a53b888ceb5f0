import Mathlib.Data.List.Infix
import Unrouted.Proofs.Arena.Generations

/-!
How many slots an arena comes to have.  A new slot is added only when all the others are full,
so there are as many slots as there were values at once.  An index is a natural number; it is
also the number that 32 bits keep of it, as of a generation, while there were never more than
`2 ^ 32` values at once.
-/

namespace Unrouted

/-- What is left of a handle when its index is kept in 32 bits. -/
def Handle.narrow {α : Type} (h : Handle α) : Handle α :=
  { h with index := (UInt32.ofNat h.index).toNat }

theorem Handle.narrow_eq_self {α : Type} {h : Handle α} (hindex : h.index < 2 ^ 32) :
    h.narrow = h := by
  rw [narrow, UInt32.toNat_ofNat_of_lt' hindex]

namespace Arena

variable {α : Type} {a b : Arena α} {h : Handle α}

/-! ## Slots and values -/

theorem WellFormed.size_le (ha : a.WellFormed) : a.size ≤ a.slots.size := by
  rw [ha.size_eq, length_entries, ← Array.length_toList]
  exact List.countP_le_length

theorem WellFormed.size_eq_of_full (ha : a.WellFormed) (hfull : a.free = []) :
    a.size = a.slots.size := by
  rw [ha.size_eq, length_entries, ← Array.length_toList, List.countP_eq_length]
  rintro ⟨g, value⟩ hs
  obtain ⟨i, hi⟩ := List.mem_iff_getElem?.1 hs
  rw [Array.getElem?_toList] at hi
  cases value with
  | none =>
    have hempty := (ha.mem_free i).2 ⟨g, hi⟩
    rw [hfull] at hempty
    exact absurd hempty List.not_mem_nil
  | some v => rfl

/-- A new slot is added only when all are full, and it is filled at once. -/
theorem WellFormed.size_slots_apply_eq (ha : a.WellFormed) (op : Operation α) :
    (a.apply op).slots.size = max a.slots.size (a.apply op).size := by
  have hle := (ha.apply op).size_le
  have same (hsize : (a.apply op).slots.size = a.slots.size) :
      (a.apply op).slots.size = max a.slots.size (a.apply op).size := by omega
  cases op with
  | insert v =>
    cases hfree : a.free with
    | nil =>
      have hfull := ha.size_eq_of_full hfree
      simp only [Arena.apply, Arena.insert, hfree, Array.size_push]
      omega
    | cons i rest =>
      refine same ?_
      simp only [Arena.apply, Arena.insert, hfree, Array.size_setIfInBounds]
  | erase h => exact same (size_slots_erase a h)
  | modify h f => exact same (size_slots_modify a h f)

/-- At most one operation makes the one arena into the other. -/
def Next (a b : Arena α) : Prop := b = a ∨ ∃ op, b = a.apply op

theorem Next.wellFormed (h : a.Next b) (ha : a.WellFormed) : b.WellFormed := by
  rcases h with rfl | ⟨op, rfl⟩
  · exact ha
  · exact ha.apply op

theorem Next.size_slots (h : a.Next b) (ha : a.WellFormed) :
    b.slots.size = max a.slots.size b.size := by
  rcases h with rfl | ⟨op, rfl⟩
  · exact (Nat.max_eq_left ha.size_le).symm
  · exact ha.size_slots_apply_eq op

/-! ## The most values at once -/

section Peak

variable {σ ω : Type} (step : σ → ω → σ) (arena : σ → Arena α) {s : σ}

theorem wellFormed_foldl (hstep : ∀ s op, (arena s).Next (arena (step s op)))
    (hs : (arena s).WellFormed) (history : List ω) : (arena (history.foldl step s)).WellFormed :=
  List.foldlRecOn (motive := fun t => (arena t).WellFormed) history step hs
    fun t ht op _ => (hstep t op).wellFormed ht

/-- Where an arena changes step by step from an empty one, all of its slots were full at some
time. -/
theorem exists_full_foldl (hstep : ∀ s op, (arena s).Next (arena (step s op)))
    (hs : arena s = empty) (history : List ω) :
    ∃ part, part <+: history ∧
      (arena (part.foldl step s)).size = (arena (history.foldl step s)).slots.size := by
  have hwell : (arena s).WellFormed := by
    rw [hs]
    exact wellFormed_empty
  induction history using List.reverseRecOn with
  | nil => exact ⟨[], List.nil_prefix, by rw [List.foldl_nil, hs]; rfl⟩
  | append_singleton history op ih =>
    obtain ⟨part, hpart, hfull⟩ := ih
    have hslots := (hstep (history.foldl step s) op).size_slots
      (wellFormed_foldl step arena hstep hwell history)
    rw [← List.foldl_concat step] at hslots
    rcases Nat.le_total (arena ((history ++ [op]).foldl step s)).size
        (arena (history.foldl step s)).slots.size with hle | hle
    · rw [Nat.max_eq_left hle] at hslots
      exact ⟨part, hpart.trans (List.prefix_append history [op]), hfull.trans hslots.symm⟩
    · rw [Nat.max_eq_right hle] at hslots
      exact ⟨history ++ [op], List.prefix_refl _, hslots.symm⟩

end Peak

/-- An arena has as many slots as it once had values. -/
theorem exists_full_run (history : List (Operation α)) :
    ∃ part, part <+: history ∧ (run empty part).size = (run (empty : Arena α) history).slots.size :=
  exists_full_foldl apply id (fun _ op => .inr ⟨op, rfl⟩) rfl history

/-! ## Indices of 32 bits -/

theorem narrow_of_live (hroom : a.slots.size ≤ 2 ^ 32) (hlive : a.live h = true) :
    h.narrow = h := by
  obtain ⟨v, hv⟩ := live_iff.1 hlive
  exact Handle.narrow_eq_self (Nat.lt_of_lt_of_le (generation_of_get? hv).2 hroom)

/-- Every handle is given out live, so it is whole as long as there are never too many values. -/
theorem narrow_run (history : List (Operation α))
    (hpeak : ∀ part, part <+: history → (run (empty : Arena α) part).size ≤ 2 ^ 32)
    (hlive : (run empty history).live h = true) : h.narrow = h := by
  obtain ⟨part, hpart, hfull⟩ := exists_full_run history
  exact narrow_of_live (hfull ▸ hpeak part hpart) hlive

end Arena
end Unrouted
