import Unrouted.Proofs.Spanning.Minimal
import Mathlib.Algebra.Order.BigOperators.Group.List

/-!
The forest over every pair against all others.  At each weight it joins whatever any tree of
straight links joins there, so it has at least as many links up to that weight.  Put in
ascending order, its links are one by one no longer than those of the other tree.
-/

namespace Unrouted

/-- Of two ascending lists, the one that has more numbers up to every bound has no greater
number at any place. -/
theorem forall₂_le_of_countP_le {xs ys : List Nat} (hxs : xs.Pairwise (· ≤ ·))
    (hys : ys.Pairwise (· ≤ ·)) (hlength : xs.length = ys.length)
    (h : ∀ w, ys.countP (fun v => decide (v ≤ w)) ≤ xs.countP (fun v => decide (v ≤ w))) :
    List.Forall₂ (· ≤ ·) xs ys := by
  induction xs generalizing ys with
  | nil =>
    obtain rfl : ys = [] := List.eq_nil_of_length_eq_zero hlength.symm
    exact .nil
  | cons x xs ih =>
    cases ys with
    | nil => exact absurd hlength (by simp)
    | cons y ys =>
      obtain ⟨hx, hxs⟩ := List.pairwise_cons.1 hxs
      obtain ⟨hy, hys⟩ := List.pairwise_cons.1 hys
      have hxy : x ≤ y := by
        have hpos : 0 < (x :: xs).countP fun v => decide (v ≤ y) :=
          Nat.lt_of_lt_of_le (List.countP_pos_iff.2 ⟨y, List.mem_cons_self, by simp⟩) (h y)
        obtain ⟨v, hv, hvy⟩ := List.countP_pos_iff.1 hpos
        have hvy : v ≤ y := of_decide_eq_true hvy
        rcases List.mem_cons.1 hv with rfl | hv
        · exact hvy
        · exact Nat.le_trans (hx v hv) hvy
      refine .cons hxy (ih hxs hys (Nat.succ.inj hlength) fun w => ?_)
      by_cases hw : y ≤ w
      · have hcount := h w
        have hxw : x ≤ w := Nat.le_trans hxy hw
        simpa [List.countP_cons, hw, hxw] using hcount
      · -- No number of an ascending list is below its first one.
        have hnone : ys.countP (fun v => decide (v ≤ w)) = 0 := by
          rw [List.countP_eq_zero]
          intro v hv hvw
          have hyv := hy v hv
          have hvw : v ≤ w := of_decide_eq_true hvw
          omega
        rw [hnone]
        exact Nat.zero_le _

namespace Forest

open Candidate Unrouted.Partition

variable {n : Nat} {points : Vector Point n} {p : Partition n} {cs : List (Candidate n)}

/-- The sum of the weights. -/
def total (cs : List (Candidate n)) : Nat := (cs.map fun c => c.weight.units).sum

theorem sum_weights (cs : List (Candidate n)) : (weights cs).sum = total cs :=
  (weights_perm cs).sum_eq

/-- Up to a weight, a forest of straight links has no more links than the one over every
pair. -/
theorem Acyclic.length_upTo_le (h : Acyclic p cs) (hp : p.Counted)
    (hstraight : ∀ c ∈ cs, c.Straight points) (w : Length) :
    (Forest.upTo w cs).length ≤
      (Forest.upTo w (complete points p (everyPair points p))).length := by
  have hcounted (ds : List (Candidate n)) : (p.mergeAll (ds.map pair)).Counted :=
    hp.mergeAll (ds.map pair)
  have hcount := (refines_everyPair hp hstraight w).count_le (hcounted _) (hcounted _)
  have hcs := h.count_upTo hp w
  have hevery := (completes_everyPair points hp).acyclic.count_upTo hp w
  omega

/-- No tree of the classes has a link, at its place in ascending order, that is shorter than
the one over every pair has. -/
theorem Completes.weights_le (h : Completes points p cs) (hp : p.Counted) :
    List.Forall₂ (· ≤ ·) (weights (complete points p (everyPair points p))) (weights cs) := by
  have hevery := completes_everyPair points hp
  have hlength : (weights (complete points p (everyPair points p))).length =
      (weights cs).length := by
    rw [(weights_perm _).length_eq, (weights_perm _).length_eq, List.length_map,
      List.length_map, hevery.length, h.length]
  refine forall₂_le_of_countP_le (sorted_weights _) (sorted_weights _) hlength fun w => ?_
  have hupTo := h.acyclic.length_upTo_le hp h.straight ⟨w⟩
  rw [length_upTo, length_upTo] at hupTo
  rw [(weights_perm _).countP_eq, (weights_perm _).countP_eq]
  exact hupTo

theorem Completes.total_le (h : Completes points p cs) (hp : p.Counted) :
    total (complete points p (everyPair points p)) ≤ total cs := by
  rw [← sum_weights, ← sum_weights]
  exact (h.weights_le hp).sum_le_sum

/-- Straight links that join everything have a tree among them: a scan accepts it. -/
theorem exists_completes (hp : p.Counted) (hstraight : ∀ c ∈ cs, c.Straight points)
    (hjoins : ∀ a b, (p.mergeAll (cs.map pair)).joined a b = true) :
    ∃ ds, ds.Sublist cs ∧ Completes points p ds := by
  have haccepted := accept_spec hp cs
  refine ⟨(accept p cs).2, haccepted.sublist, haccepted.acyclic.completes hp (fun a b => ?_)
    fun c hc => hstraight c (haccepted.sublist.subset hc)⟩
  have hrefines : (p.mergeAll (cs.map pair)).Refines (p.mergeAll ((accept p cs).2.map pair)) := by
    refine (refines_mergeAll p _).mergeAll_left fun s hs => ?_
    obtain ⟨c, hc, rfl⟩ := List.mem_map.1 hs
    rw [← haccepted.merged]
    exact haccepted.joins c hc
  exact hrefines a b (hjoins a b)

/-- Whatever straight links join everything, those over every pair weigh no more in all. -/
theorem total_everyPair_le (hp : p.Counted) (hstraight : ∀ c ∈ cs, c.Straight points)
    (hjoins : ∀ a b, (p.mergeAll (cs.map pair)).joined a b = true) :
    total (complete points p (everyPair points p)) ≤ total cs := by
  obtain ⟨ds, hsublist, hcompletes⟩ := exists_completes hp hstraight hjoins
  exact Nat.le_trans (hcompletes.total_le hp) ((hsublist.map _).sum_le_sum fun _ _ => Nat.zero_le _)

end Forest
end Unrouted
