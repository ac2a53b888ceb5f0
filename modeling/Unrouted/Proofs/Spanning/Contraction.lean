import Unrouted.Proofs.Spanning.Scan

/-!
A link laid in copper.  Once the two classes of a link are one, the completion needs one link
less.  Over every pair it finds the same links without that one: a coarser partition leaves
no candidate fresh that was not, and the count of the classes says how many are left.
-/

namespace Unrouted
namespace Forest

open Candidate Unrouted.Partition

variable {n : Nat} {points : Vector Point n} {p q r : Partition n} {c : Candidate n}
  {cs ds before after : List (Candidate n)}

/-- Candidates that are joined already have no part in what is fresh. -/
theorem fresh_filter (hrp : r.Refines p) (s : List (Candidate n)) :
    fresh p (s.filter fun c => !r.joined c.a c.b) = fresh p s := by
  induction s generalizing p with
  | nil => rfl
  | cons c rest ih =>
    cases hr : r.joined c.a c.b with
    | true =>
      have hp : p.joined c.a c.b = true := hrp _ _ hr
      rw [List.filter_cons_of_neg (by simp [hr]), fresh_cons, if_pos hp, merge_of_joined hp, ih hrp]
    | false =>
      rw [List.filter_cons_of_pos (by simp [hr]), fresh_cons, fresh_cons,
        ih (hrp.trans (refines_merge p c.a c.b))]

/-- What is fresh over a coarser partition is fresh over a finer one. -/
theorem fresh_sublist (hpq : p.Refines q) (s : List (Candidate n)) :
    (fresh q s).Sublist (fresh p s) := by
  induction s generalizing p q with
  | nil => exact List.Sublist.refl _
  | cons c rest ih =>
    have hrest := ih (hpq.merge c.a c.b)
    rw [fresh_cons, fresh_cons]
    cases hq : q.joined c.a c.b with
    | true =>
      rw [if_pos rfl]
      split
      · exact hrest
      · exact hrest.cons c
    | false =>
      have hp : p.joined c.a c.b = false := by
        rw [← Bool.not_eq_true] at hq ⊢
        exact fun h => hq (hpq _ _ h)
      rw [if_neg Bool.false_ne_true, hp, if_neg Bool.false_ne_true]
      exact hrest.cons_cons c

/-! ## Every pair -/

theorem joined_everyPair (points : Vector Point n) (p : Partition n) (a b : Fin n) :
    (p.mergeAll ((everyPair points p).map pair)).joined a b = true := by
  have ascending {x y : Fin n} (hxy : x < y) :
      (p.mergeAll ((everyPair points p).map pair)).joined x y = true := by
    cases hjoined : p.joined x y with
    | true => exact refines_mergeAll p _ _ _ hjoined
    | false =>
      exact joined_mergeAll_of_mem p (List.mem_map_of_mem (mem_everyPair points hxy hjoined))
  rcases lt_trichotomy a b with hab | hab | hba
  · exact ascending hab
  · rw [hab]
    exact joined_self _ b
  · exact joined_symm (ascending hba)

theorem everyPair_filter (points : Vector Point n) (hpq : p.Refines q) :
    everyPair points q = (everyPair points p).filter fun c => !q.joined c.a c.b := by
  rw [everyPair, everyPair, List.filter_flatMap]
  apply List.flatMap_congr
  intro a _
  rw [List.filter_map, List.filter_filter]
  congr 1
  apply List.filter_congr
  intro b _
  have hab := hpq a b
  cases hq : q.joined a b <;> cases hp : p.joined a b <;> simp_all [between]

/-- The candidates over every pair join all classes, so no second scan follows the first. -/
theorem complete_everyPair (points : Vector Point n) (hp : p.Counted) :
    complete points p (everyPair points p) = fresh p (byWeight (everyPair points p)) := by
  rw [complete_eq_greedy hp (joined_everyPair points p), greedy_eq hp]

/-- The completion over every pair takes what is fresh of all pairs in their order. -/
theorem complete_everyPair_of_refines (points : Vector Point n) (hpq : p.Refines q)
    (hq : q.Counted) :
    complete points q (everyPair points q) = fresh q (byWeight (everyPair points p)) := by
  rw [complete_everyPair points hq, everyPair_filter points hpq, byWeight_filter,
    fresh_filter (Refines.refl q)]

/-! ## One link less -/

theorem Acyclic.not_joined_of_mem (h : Acyclic p cs) (hc : c ∈ cs) : p.joined c.a c.b = false := by
  obtain ⟨before, after, rfl⟩ := List.append_of_mem hc
  have hbefore := h.not_joined
  rw [← Bool.not_eq_true] at hbefore ⊢
  exact fun hjoined => hbefore (refines_mergeAll p _ _ _ hjoined)

/-- With the classes of one of its links merged, a completion is one link shorter. -/
theorem Completes.length_merge (h : Completes points p cs) (hc : c ∈ cs)
    (h' : Completes points (p.merge c.a c.b) ds) : ds.length + 1 = cs.length := by
  have hlength := h.length
  have hlength' := h'.length
  have hcount : (p.merge c.a c.b).count = p.count - 1 := by
    simp [Partition.merge, h.acyclic.not_joined_of_mem hc]
  have hpos := List.length_pos_of_mem hc
  omega

/-- Over every pair, the other links are found again. -/
theorem complete_merge (hp : p.Counted)
    (h : complete points p (everyPair points p) = before ++ c :: after) :
    complete points (p.merge c.a c.b) (everyPair points (p.merge c.a c.b)) = before ++ after := by
  have hq : (p.merge c.a c.b).Counted := hp.merge c.a c.b
  have hrefines : p.Refines (p.merge c.a c.b) := refines_merge p c.a c.b
  have hcompletes := completes_everyPair points hp
  have hcompletes' := completes_everyPair points hq
  rw [h] at hcompletes
  have hlength := hcompletes.length_merge (List.mem_append_right _ List.mem_cons_self) hcompletes'
  have hsublist : (complete points (p.merge c.a c.b) (everyPair points (p.merge c.a c.b))).Sublist
      (before ++ c :: after) := by
    rw [← h, complete_everyPair_of_refines points hrefines hq,
      complete_everyPair_of_refines points (Refines.refl p) hp]
    exact fresh_sublist hrefines _
  -- The link itself joins nothing any more, so the others are all that can be left.
  have hkept : (complete points (p.merge c.a c.b) (everyPair points (p.merge c.a c.b))).filter
      (fun d => decide (d ≠ c)) =
        complete points (p.merge c.a c.b) (everyPair points (p.merge c.a c.b)) := by
    rw [List.filter_eq_self]
    intro d hd
    have hjoined := hcompletes'.acyclic.not_joined_of_mem hd
    apply decide_eq_true
    intro hdc
    rw [hdc, joined_merge_ends] at hjoined
    exact Bool.noConfusion hjoined
  have hothers := hsublist.filter fun d => decide (d ≠ c)
  rw [hkept, List.filter_append, List.filter_cons_of_neg (by simp), ← List.filter_append] at hothers
  refine (hothers.trans List.filter_sublist).eq_of_length ?_
  rw [List.length_append, List.length_cons] at hlength
  rw [List.length_append]
  omega

/-! ## A link laid -/

section Laid

variable {copper : List (Fin n × Fin n)}

theorem mergeAll_concat (copper : List (Fin n × Fin n)) (c : Candidate n) :
    (discrete n).mergeAll (copper ++ [c.pair]) = ((discrete n).mergeAll copper).merge c.a c.b := by
  rw [mergeAll_append]
  rfl

theorem length_spanning_concat {strategy : Strategy} (hc : c ∈ spanning strategy points copper) :
    (spanning strategy points (copper ++ [c.pair])).length + 1 =
      (spanning strategy points copper).length := by
  have hlaid := completes_spanning strategy points (copper ++ [c.pair])
  rw [mergeAll_concat] at hlaid
  exact (completes_spanning strategy points copper).length_merge hc hlaid

theorem spanning_everyPair_concat (h : spanning .everyPair points copper = before ++ c :: after) :
    spanning .everyPair points (copper ++ [c.pair]) = before ++ after := by
  have hp : ((discrete n).mergeAll copper).Counted := (counted_discrete n).mergeAll copper
  show complete points _ (everyPair points _) = before ++ after
  rw [mergeAll_concat]
  exact complete_merge hp h

end Laid

end Forest
end Unrouted
