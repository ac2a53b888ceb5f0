import Unrouted.Spanning.Partition
import Mathlib.Data.Fintype.Card
import Mathlib.Data.Setoid.Basic
import Mathlib.Logic.Relation
import Mathlib.SetTheory.Cardinal.NatCard
import Mathlib.Data.Set.Card

/-!
Merging pairs generates the least equivalence that joins them, and the count of a partition
is the number of its classes.  A coarser partition has fewer classes, and as many only when
it is the same.
-/

namespace Unrouted
namespace Partition

variable {n : Nat} {p q r : Partition n} {a b x y : Fin n} {pairs more : List (Fin n × Fin n)}

/-- What `p` joins, `q` joins. -/
def Refines (p q : Partition n) : Prop := ∀ a b, p.joined a b = true → q.joined a b = true

theorem Refines.refl (p : Partition n) : p.Refines p := fun _ _ h => h

theorem Refines.trans (h : p.Refines q) (h' : q.Refines r) : p.Refines r :=
  fun a b hab => h' a b (h a b hab)

theorem joined_symm (h : p.joined a b = true) : p.joined b a = true := by
  rw [joined_comm]
  exact h

/-- The label that a number carries. -/
def labelOf (p : Partition n) (i : Fin n) : Fin n := p.label.get i

theorem joined_eq (p : Partition n) (a b : Fin n) :
    p.joined a b = (p.labelOf a == p.labelOf b) := rfl

/-- The partition as an equivalence. -/
def setoid (p : Partition n) : Setoid (Fin n) := Setoid.ker p.labelOf

theorem joined_iff : p.joined a b = true ↔ p.setoid a b := by
  rw [joined_eq, beq_iff_eq]
  exact Iff.rfl

/-! ## Merging -/

theorem merge_of_joined (h : p.joined a b = true) : p.merge a b = p := by
  rw [merge, if_pos h]

theorem refines_merge (p : Partition n) (a b : Fin n) : p.Refines (p.merge a b) :=
  fun _ _ h => joined_merge.2 (.inl h)

theorem joined_merge_ends (p : Partition n) (a b : Fin n) : (p.merge a b).joined a b = true :=
  joined_merge.2 (.inr (.inl ⟨joined_self p a, joined_self p b⟩))

/-- An equivalence that holds wherever `p` joins, and between `a` and `b`, holds wherever the
merged partition joins. -/
theorem merge_le {e : Setoid (Fin n)} (hp : ∀ x y, p.joined x y = true → e x y) (hab : e a b)
    (h : (p.merge a b).joined x y = true) : e x y := by
  rcases joined_merge.1 h with h | h | h
  · exact hp x y h
  · exact e.trans (e.trans (hp _ _ h.1) hab) (hp _ _ h.2)
  · exact e.trans (e.trans (hp _ _ h.1) (e.symm hab)) (hp _ _ h.2)

theorem Refines.merge_left (h : p.Refines q) (hab : q.joined a b = true) :
    (p.merge a b).Refines q :=
  fun _ _ hxy =>
    joined_iff.2 (merge_le (fun x y hp => joined_iff.1 (h x y hp)) (joined_iff.1 hab) hxy)

theorem Refines.merge (h : p.Refines q) (a b : Fin n) : (p.merge a b).Refines (q.merge a b) :=
  (h.trans (refines_merge q a b)).merge_left (joined_merge_ends q a b)

theorem mergeAll_append (p : Partition n) (pairs more : List (Fin n × Fin n)) :
    p.mergeAll (pairs ++ more) = (p.mergeAll pairs).mergeAll more :=
  List.foldl_append

theorem refines_mergeAll (p : Partition n) (pairs : List (Fin n × Fin n)) :
    p.Refines (p.mergeAll pairs) := by
  induction pairs generalizing p with
  | nil => exact Refines.refl p
  | cons s rest ih => exact (refines_merge p s.1 s.2).trans (ih _)

theorem joined_mergeAll_of_mem (p : Partition n) (h : (a, b) ∈ pairs) :
    (p.mergeAll pairs).joined a b = true := by
  induction pairs generalizing p with
  | nil => exact absurd h List.not_mem_nil
  | cons s rest ih =>
    rcases List.mem_cons.1 h with h | h
    · subst h
      exact refines_mergeAll _ rest a b (joined_merge_ends p a b)
    · exact ih _ h

theorem mergeAll_le {e : Setoid (Fin n)} (hp : ∀ x y, p.joined x y = true → e x y)
    (hpairs : ∀ s ∈ pairs, e s.1 s.2) : ∀ x y, (p.mergeAll pairs).joined x y = true → e x y := by
  induction pairs generalizing p with
  | nil => exact hp
  | cons s rest ih =>
    have hs : e s.1 s.2 := hpairs s List.mem_cons_self
    exact ih (fun x y => merge_le hp hs) fun t ht => hpairs t (List.mem_cons_of_mem _ ht)

/-- The merged partition is the finest one above `p` that joins the pairs. -/
theorem Refines.mergeAll_left (h : p.Refines q) (hpairs : ∀ s ∈ pairs, q.joined s.1 s.2 = true) :
    (p.mergeAll pairs).Refines q := by
  intro x y hxy
  refine joined_iff.2 (mergeAll_le (fun x y hp => joined_iff.1 (h x y hp)) (fun s hs => ?_) x y hxy)
  exact joined_iff.1 (hpairs s hs)

/-- Over single numbers, merging joins what the equivalence generated by the pairs does. -/
theorem joined_mergeAll_discrete :
    ((discrete n).mergeAll pairs).joined a b = true ↔
      Relation.EqvGen (fun x y => (x, y) ∈ pairs) a b := by
  constructor
  · let e : Setoid (Fin n) := Relation.EqvGen.setoid fun x y => (x, y) ∈ pairs
    refine mergeAll_le (e := e) (fun x y hxy => ?_) (fun s hs => .rel s.1 s.2 hs) a b
    rw [joined_discrete.1 hxy]
  · intro h
    induction h with
    | rel x y hxy => exact joined_mergeAll_of_mem _ hxy
    | refl x => exact joined_self _ x
    | symm x y _ ih => exact joined_symm ih
    | trans x y z _ _ hxy hyz => exact joined_trans hxy hyz

/-! ## Counting classes -/

/-- The count is the number of classes. -/
def Counted (p : Partition n) : Prop := p.count = Nat.card (Quotient p.setoid)

theorem card_eq_card_range (p : Partition n) :
    Nat.card (Quotient p.setoid) = Nat.card (Set.range p.labelOf) :=
  Nat.card_congr (Setoid.quotientKerEquivRange _)

theorem counted_discrete (n : Nat) : (discrete n).Counted := by
  have hrange : Set.range (discrete n).labelOf = Set.univ := by
    rw [Set.eq_univ_iff_forall]
    intro i
    exact ⟨i, Vector.getElem_ofFn i.isLt⟩
  rw [Counted, card_eq_card_range, hrange]
  simp [discrete]

theorem labelOf_merge (hab : p.joined a b = false) (i : Fin n) :
    (p.merge a b).labelOf i = if p.labelOf i = p.labelOf b then p.labelOf a else p.labelOf i := by
  rw [merge, if_neg (by simp [hab])]
  exact Vector.getElem_map _ i.isLt

/-- A merge of two classes drops the label of one of them. -/
theorem range_labelOf_merge (hab : p.joined a b = false) :
    Set.range (p.merge a b).labelOf = Set.range p.labelOf \ {p.labelOf b} := by
  have hne : p.labelOf a ≠ p.labelOf b := by simpa [joined_eq] using hab
  ext l
  rw [Set.mem_sdiff, Set.mem_singleton_iff]
  constructor
  · intro hl
    obtain ⟨i, rfl⟩ := hl
    rw [labelOf_merge hab]
    split
    · exact ⟨⟨a, rfl⟩, hne⟩
    · rename_i hi
      exact ⟨⟨i, rfl⟩, hi⟩
  · intro hl
    obtain ⟨⟨i, rfl⟩, hi⟩ := hl
    exact ⟨i, by rw [labelOf_merge hab, if_neg hi]⟩

theorem Counted.merge (h : p.Counted) (a b : Fin n) : (p.merge a b).Counted := by
  cases hab : p.joined a b with
  | true =>
    rw [merge_of_joined hab]
    exact h
  | false =>
    have hcount : (p.merge a b).count = p.count - 1 := by simp [Partition.merge, hab]
    have hmem : p.labelOf b ∈ Set.range p.labelOf := ⟨b, rfl⟩
    rw [Counted, card_eq_card_range, range_labelOf_merge hab, Nat.card_coe_set_eq,
      Set.ncard_sdiff_singleton_of_mem hmem, ← Nat.card_coe_set_eq, ← card_eq_card_range, ← h,
      hcount]

theorem Counted.mergeAll (h : p.Counted) (pairs : List (Fin n × Fin n)) :
    (p.mergeAll pairs).Counted := by
  induction pairs generalizing p with
  | nil => exact h
  | cons s rest ih => exact ih (h.merge s.1 s.2)

/-- The classes of a partition, each sent to the class of a coarser one that holds it. -/
def Refines.classMap (h : p.Refines q) : Quotient p.setoid → Quotient q.setoid :=
  Quotient.map' id fun a b hab => joined_iff.1 (h a b (joined_iff.2 hab))

theorem Refines.classMap_surjective (h : p.Refines q) : Function.Surjective h.classMap := by
  intro c
  induction c using Quotient.inductionOn with
  | h i => exact ⟨⟦i⟧, rfl⟩

theorem Refines.count_le (h : p.Refines q) (hp : p.Counted) (hq : q.Counted) :
    q.count ≤ p.count := by
  rw [hp, hq]
  exact Nat.card_le_card_of_surjective _ h.classMap_surjective

/-- A coarser partition with as many classes is the same. -/
theorem Refines.of_count_le (h : p.Refines q) (hp : p.Counted) (hq : q.Counted)
    (hcount : p.count ≤ q.count) : q.Refines p := by
  intro a b hab
  rw [hp, hq] at hcount
  have hinjective : Function.Injective h.classMap :=
    (h.classMap_surjective.bijective_of_nat_card_le hcount).1
  have hclass : h.classMap ⟦a⟧ = h.classMap ⟦b⟧ := Quotient.sound (joined_iff.1 hab)
  exact joined_iff.2 (Quotient.exact (hinjective hclass))

theorem Counted.count_pos (h : p.Counted) (a : Fin n) : 0 < p.count := by
  have hclass : Nonempty (Quotient p.setoid) := ⟨⟦a⟧⟩
  rw [h]
  exact Nat.card_pos

theorem Counted.joined_of_count_le_one (h : p.Counted) (hcount : p.count ≤ 1) (a b : Fin n) :
    p.joined a b = true := by
  rw [h] at hcount
  have hsub : Subsingleton (Quotient p.setoid) := Finite.card_le_one_iff_subsingleton.1 hcount
  exact joined_iff.2 (Quotient.exact (Subsingleton.elim ⟦a⟧ ⟦b⟧))

theorem Counted.count_le_one (h : p.Counted) (hjoined : ∀ a b, p.joined a b = true) :
    p.count ≤ 1 := by
  rw [h]
  refine Finite.card_le_one_iff_subsingleton.2 ⟨fun c d => ?_⟩
  induction c, d using Quotient.inductionOn₂ with
  | h a b => exact Quotient.sound (joined_iff.1 (hjoined a b))

end Partition
end Unrouted
