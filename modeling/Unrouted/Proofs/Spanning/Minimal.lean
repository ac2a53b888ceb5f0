import Unrouted.Proofs.Spanning.Greedy

/-!
When two forests over the same classes weigh the same.  A forest is cut at every weight: the
number of links up to a weight is the number of classes that these links take away, so the
weights of a forest are known from what its links up to each weight join.  The links over
every pair of points join as much as can be joined at each weight.  Another forest has their
weights exactly when it joins every two points by links no longer than the two are apart.
-/

namespace Unrouted
namespace Forest

open Candidate Unrouted.Partition

variable {n : Nat} {points : Vector Point n} {p q : Partition n} {cs ds : List (Candidate n)}
  {w : Length} {a b : Fin n}

/-- The weights in ascending order. -/
def weights (cs : List (Candidate n)) : List Nat :=
  (cs.map fun c => c.weight.units).mergeSort fun v w => decide (v ≤ w)

def upTo (w : Length) (cs : List (Candidate n)) : List (Candidate n) :=
  cs.filter fun c => decide (c.weight ≤ w)

/-- Two points are joined by copper and by candidates no longer than a length. -/
def Linked (copper : List (Fin n × Fin n)) (cs : List (Candidate n)) (w : Length) :
    Fin n → Fin n → Prop :=
  Relation.EqvGen fun x y => (x, y) ∈ copper ∨ ∃ c ∈ cs, c.weight ≤ w ∧ c.a = x ∧ c.b = y

theorem mem_upTo {c : Candidate n} : c ∈ upTo w cs ↔ c ∈ cs ∧ c.weight ≤ w := by
  rw [upTo, List.mem_filter, decide_eq_true_eq]

/-- What candidates up to a weight join stays joined at every greater one. -/
theorem refines_upTo {v : Length} (p : Partition n) (cs : List (Candidate n)) (h : v ≤ w) :
    (p.mergeAll ((upTo v cs).map pair)).Refines (p.mergeAll ((upTo w cs).map pair)) := by
  refine (refines_mergeAll p _).mergeAll_left fun s hs => ?_
  obtain ⟨c, hc, rfl⟩ := List.mem_map.1 hs
  obtain ⟨hmem, hv⟩ := mem_upTo.1 hc
  exact joined_mergeAll_of_mem p (List.mem_map_of_mem (mem_upTo.2 ⟨hmem, Nat.le_trans hv h⟩))

theorem joined_of_upTo (h : (p.mergeAll ((upTo w cs).map pair)).joined a b = true) :
    (p.mergeAll (cs.map pair)).joined a b = true := by
  refine (refines_mergeAll p _).mergeAll_left (fun s hs => ?_) a b h
  obtain ⟨c, hc, rfl⟩ := List.mem_map.1 hs
  exact joined_mergeAll_of_mem p (List.mem_map_of_mem (mem_upTo.1 hc).1)

theorem linked_iff {copper : List (Fin n × Fin n)} :
    Linked copper cs w a b ↔
      (((discrete n).mergeAll copper).mergeAll ((upTo w cs).map pair)).joined a b = true := by
  have hrel : (fun x y => (x, y) ∈ copper ∨ ∃ c ∈ cs, c.weight ≤ w ∧ c.a = x ∧ c.b = y) =
      fun x y => (x, y) ∈ copper ++ (upTo w cs).map pair := by
    funext x y
    simp only [List.mem_append, List.mem_map, mem_upTo, pair, Prod.mk.injEq, and_assoc]
  rw [← mergeAll_append, joined_mergeAll_discrete, Linked, hrel]

/-! ## Weights and classes -/

/-- Numbers that are as often at most each bound are the same numbers. -/
theorem perm_of_countP_le {xs ys : List Nat}
    (h : ∀ w, xs.countP (fun v => decide (v ≤ w)) = ys.countP (fun v => decide (v ≤ w))) :
    xs.Perm ys := by
  have hcount (zs : List Nat) (v : Nat) : zs.countP (fun u => decide (u ≤ v + 1)) =
      zs.countP (fun u => decide (u ≤ v)) + zs.count (v + 1) := by
    induction zs with
    | nil => rfl
    | cons u rest ih =>
      simp only [List.countP_cons, List.count_cons, decide_eq_true_eq, beq_iff_eq]
      split <;> split <;> split <;> omega
  have hzero (zs : List Nat) : zs.count 0 = zs.countP fun u => decide (u ≤ 0) := by
    rw [List.count]
    apply List.countP_congr
    intro u _
    simp
  rw [List.perm_iff_count]
  intro v
  cases v with
  | zero => rw [hzero, hzero, h]
  | succ v =>
    have hx := hcount xs v
    have hy := hcount ys v
    have hv := h v
    have hv' := h (v + 1)
    omega

theorem sorted_weights (cs : List (Candidate n)) : (weights cs).Pairwise (· ≤ ·) := by
  have hsorted : (weights cs).Pairwise fun v w => decide (v ≤ w) = true := by
    refine List.pairwise_mergeSort (fun u v w huv hvw => ?_) (fun u v => ?_) _
    · simp only [decide_eq_true_eq] at *
      omega
    · simp only [Bool.or_eq_true, decide_eq_true_eq]
      omega
  exact hsorted.imp of_decide_eq_true

theorem weights_perm (cs : List (Candidate n)) :
    (weights cs).Perm (cs.map fun c => c.weight.units) :=
  List.mergeSort_perm _ _

theorem weights_eq_iff_perm :
    weights cs = weights ds ↔
      (cs.map fun c => c.weight.units).Perm (ds.map fun c => c.weight.units) := by
  constructor
  · intro h
    have hcs := weights_perm cs
    rw [h] at hcs
    exact hcs.symm.trans (weights_perm ds)
  · intro h
    refine List.Perm.eq_of_pairwise (fun u v _ _ huv hvu => Nat.le_antisymm huv hvu)
      (sorted_weights cs) (sorted_weights ds) ?_
    exact (weights_perm cs).trans (h.trans (weights_perm ds).symm)

theorem length_upTo (w : Length) (cs : List (Candidate n)) :
    (upTo w cs).length = (cs.map fun c => c.weight.units).countP fun v => decide (v ≤ w.units) := by
  rw [upTo, ← List.countP_eq_length_filter, List.countP_map]
  rfl

theorem weights_eq_iff_length : weights cs = weights ds ↔
    ∀ w, (upTo w cs).length = (upTo w ds).length := by
  rw [weights_eq_iff_perm]
  constructor
  · intro h w
    rw [length_upTo, length_upTo, h.countP_eq]
  · intro h
    refine perm_of_countP_le fun w => ?_
    have hw := h ⟨w⟩
    rwa [length_upTo, length_upTo] at hw

theorem Acyclic.upTo (h : Acyclic p cs) (w : Length) : Acyclic p (Forest.upTo w cs) :=
  h.sublist List.filter_sublist

/-- The links up to a weight are as many as the classes that they take away. -/
theorem Acyclic.count_upTo (h : Acyclic p cs) (hp : p.Counted) (w : Length) :
    (p.mergeAll ((Forest.upTo w cs).map pair)).count + (Forest.upTo w cs).length = p.count :=
  (h.upTo w).count_add_length hp

/-! ## The scan at each weight -/

/-- A scan in ascending order joins, at each weight, what was offered up to that weight. -/
theorem accept_upTo (hp : p.Counted) (hsorted : cs.Pairwise fun c d => c.weight ≤ d.weight)
    {c : Candidate n} (hc : c ∈ upTo w cs) :
    (p.mergeAll ((upTo w (accept p cs).2).map pair)).joined c.a c.b = true := by
  induction cs generalizing p with
  | nil => exact absurd hc List.not_mem_nil
  | cons d rest ih =>
    obtain ⟨hd, hrest⟩ := List.pairwise_cons.1 hsorted
    obtain ⟨hmem, hw⟩ := mem_upTo.1 hc
    by_cases hcount : p.count ≤ 1
    · exact refines_mergeAll p _ _ _ (hp.joined_of_count_le_one hcount c.a c.b)
    · cases hjoined : p.joined d.a d.b with
      | true =>
        rw [accept_cons_of_joined hcount hjoined]
        rcases List.mem_cons.1 hmem with hcd | hmem
        · rw [hcd]
          exact refines_mergeAll p _ _ _ hjoined
        · exact ih hp hrest (mem_upTo.2 ⟨hmem, hw⟩)
      | false =>
        -- The first one is at most as heavy as `c`, so it is kept at this weight.
        have hdw : d.weight ≤ w := by
          rcases List.mem_cons.1 hmem with hcd | hmem
          · rw [← hcd]
            exact hw
          · exact Nat.le_trans (hd c hmem) hw
        have hkept : upTo w (d :: (accept (p.merge d.a d.b) rest).2) =
            d :: upTo w (accept (p.merge d.a d.b) rest).2 :=
          List.filter_cons_of_pos (decide_eq_true hdw)
        rw [accept_cons_of_not_joined hcount hjoined, hkept, mergeAll_cons]
        rcases List.mem_cons.1 hmem with hcd | hmem
        · rw [hcd]
          exact refines_mergeAll _ _ _ _ (joined_merge_ends p d.a d.b)
        · exact ih (hp.merge d.a d.b) hrest (mem_upTo.2 ⟨hmem, hw⟩)

theorem sorted_byWeight (cs : List (Candidate n)) :
    (byWeight cs).Pairwise fun c d => c.weight ≤ d.weight := by
  have hsorted : (byWeight cs).Pairwise fun c d => decide (c.weight ≤ d.weight) = true :=
    List.pairwise_mergeSort (size_le_trans fun c : Candidate n => c.weight.units)
      (size_le_total fun c : Candidate n => c.weight.units) cs
  exact hsorted.imp of_decide_eq_true

theorem greedy_upTo (hp : p.Counted) {c : Candidate n} (hc : c ∈ cs) (hw : c.weight ≤ w) :
    (p.mergeAll ((upTo w (greedy p cs).2).map pair)).joined c.a c.b = true :=
  accept_upTo hp (sorted_byWeight cs) (mem_upTo.2 ⟨mem_byWeight.2 hc, hw⟩)

/-- The scan leaves as many links at each weight as the offer takes classes away there. -/
theorem count_upTo_greedy (hp : p.Counted) (cs : List (Candidate n)) (w : Length) :
    (p.mergeAll ((upTo w cs).map pair)).count + (upTo w (greedy p cs).2).length = p.count := by
  have hgreedy := greedy_spec hp cs
  have hkept : (p.mergeAll ((upTo w cs).map pair)).Refines
      (p.mergeAll ((upTo w (greedy p cs).2).map pair)) := by
    refine (refines_mergeAll p _).mergeAll_left fun s hs => ?_
    obtain ⟨c, hc, rfl⟩ := List.mem_map.1 hs
    obtain ⟨hmem, hw⟩ := mem_upTo.1 hc
    exact greedy_upTo hp hmem hw
  have hoffered : (p.mergeAll ((upTo w (greedy p cs).2).map pair)).Refines
      (p.mergeAll ((upTo w cs).map pair)) := by
    refine (refines_mergeAll p _).mergeAll_left fun s hs => ?_
    obtain ⟨c, hc, rfl⟩ := List.mem_map.1 hs
    obtain ⟨hmem, hw⟩ := mem_upTo.1 hc
    have hcs : c ∈ cs := mem_byWeight.1 (hgreedy.sublist.subset hmem)
    exact joined_mergeAll_of_mem p (List.mem_map_of_mem (mem_upTo.2 ⟨hcs, hw⟩))
  have hlength := hgreedy.acyclic.count_upTo hp w
  have hle := hkept.count_le (hp.mergeAll _) (hp.mergeAll _)
  have hge := hoffered.count_le (hp.mergeAll _) (hp.mergeAll _)
  omega

theorem refines_upTo_of_joined
    (h : ∀ c ∈ cs, (p.mergeAll ((upTo c.weight ds).map pair)).joined c.a c.b = true)
    (w : Length) :
    (p.mergeAll ((upTo w cs).map pair)).Refines (p.mergeAll ((upTo w ds).map pair)) := by
  refine (refines_mergeAll p _).mergeAll_left fun s hs => ?_
  obtain ⟨c, hc, rfl⟩ := List.mem_map.1 hs
  obtain ⟨hmem, hw⟩ := mem_upTo.1 hc
  exact refines_upTo p ds hw _ _ (h c hmem)

/-- Offers that join the same at each weight have forests of the same weights. -/
theorem weights_greedy_eq (hp : p.Counted)
    (hcs : ∀ c ∈ cs, (p.mergeAll ((upTo c.weight ds).map pair)).joined c.a c.b = true)
    (hds : ∀ c ∈ ds, (p.mergeAll ((upTo c.weight cs).map pair)).joined c.a c.b = true) :
    weights (greedy p cs).2 = weights (greedy p ds).2 := by
  rw [weights_eq_iff_length]
  intro w
  have hle := (refines_upTo_of_joined hcs w).count_le (hp.mergeAll _) (hp.mergeAll _)
  have hge := (refines_upTo_of_joined hds w).count_le (hp.mergeAll _) (hp.mergeAll _)
  have hcslength := count_upTo_greedy hp cs w
  have hdslength := count_upTo_greedy hp ds w
  omega

/-- The completion takes what the scan over the proposed candidates accepts. -/
theorem complete_upTo (hp : p.Counted) {c : Candidate n} (hc : c ∈ cs) (hw : c.weight ≤ w) :
    (p.mergeAll ((upTo w (complete points p cs)).map pair)).joined c.a c.b = true := by
  have hgreedy := greedy_upTo hp hc hw
  unfold complete
  split
  · rename_i hcount
    exact refines_mergeAll p _ _ _ (hp.joined_of_count_le_one hcount c.a c.b)
  · show (p.mergeAll ((upTo w (if (greedy p cs).1.count ≤ 1 then (greedy p cs).2
      else (greedy p cs).2 ++
        (greedy (greedy p cs).1 (nearestPairs points (greedy p cs).1)).2)).map pair)).joined
          c.a c.b = true
    split
    · exact hgreedy
    · rw [upTo, List.filter_append, List.map_append, mergeAll_append]
      exact refines_mergeAll _ _ _ _ hgreedy

/-! ## Every pair -/

theorem completes_everyPair (points : Vector Point n) (hp : p.Counted) :
    Completes points p (complete points p (everyPair points p)) :=
  complete_spec hp fun _ hc => straight_of_mem_everyPair hc

theorem mem_everyPair (points : Vector Point n) (hab : a < b) (h : p.joined a b = false) :
    between points a b ∈ everyPair points p := by
  refine List.mem_flatMap.2 ⟨a, List.mem_finRange a, List.mem_map_of_mem ?_⟩
  simp [hab, h]

/-- The completion over every pair joins, at each weight, all points that are no further
apart. -/
theorem everyPair_upTo (hp : p.Counted) (hw : (points.get a).distance (points.get b) ≤ w) :
    (p.mergeAll ((upTo w (complete points p (everyPair points p))).map pair)).joined a b =
      true := by
  have ascending {x y : Fin n} (hxy : x < y) (hw : (points.get x).distance (points.get y) ≤ w) :
      (p.mergeAll ((upTo w (complete points p (everyPair points p))).map pair)).joined x y =
        true := by
    cases hjoined : p.joined x y with
    | true => exact refines_mergeAll p _ _ _ hjoined
    | false => exact complete_upTo hp (mem_everyPair points hxy hjoined) hw
  rcases Nat.lt_trichotomy a.1 b.1 with hlt | heq | hgt
  · exact ascending hlt hw
  · rw [Fin.ext heq]
    exact joined_self _ b
  · rw [Point.distance_comm] at hw
    exact joined_symm (ascending hgt hw)

/-- A forest of straight links joins no more at a weight than the one over every pair. -/
theorem refines_everyPair (hp : p.Counted) (hstraight : ∀ c ∈ cs, c.Straight points) (w : Length) :
    (p.mergeAll ((upTo w cs).map pair)).Refines
      (p.mergeAll ((upTo w (complete points p (everyPair points p))).map pair)) := by
  refine (refines_mergeAll p _).mergeAll_left fun s hs => ?_
  obtain ⟨c, hc, rfl⟩ := List.mem_map.1 hs
  obtain ⟨hmem, hw⟩ := mem_upTo.1 hc
  rw [(hstraight c hmem).weight_eq] at hw
  exact everyPair_upTo hp hw

/-- A forest of straight links has the weights of the one over every pair exactly when it
joins every two points by links no longer than these are apart. -/
theorem weights_eq_everyPair_iff (hp : p.Counted) (hacyclic : Acyclic p cs)
    (hstraight : ∀ c ∈ cs, c.Straight points) :
    weights cs = weights (complete points p (everyPair points p)) ↔
      ∀ a b, (p.mergeAll
        ((upTo ((points.get a).distance (points.get b)) cs).map pair)).joined a b = true := by
  have hevery := completes_everyPair points hp
  have hcs (w : Length) := hacyclic.count_upTo hp w
  have hall (w : Length) := hevery.acyclic.count_upTo hp w
  have hcounted (ds : List (Candidate n)) : (p.mergeAll (ds.map pair)).Counted :=
    hp.mergeAll (ds.map pair)
  rw [weights_eq_iff_length]
  constructor
  · intro h a b
    let w := (points.get a).distance (points.get b)
    have hcount : (p.mergeAll ((upTo w cs).map pair)).count ≤
        (p.mergeAll ((upTo w (complete points p (everyPair points p))).map pair)).count := by
      have h₁ := hcs w
      have h₂ := hall w
      have h₃ := h w
      omega
    exact (refines_everyPair hp hstraight w).of_count_le (hcounted _) (hcounted _) hcount a b
      (everyPair_upTo hp (Nat.le_refl _))
  · intro h w
    have hback : (p.mergeAll ((upTo w (complete points p (everyPair points p))).map pair)).Refines
        (p.mergeAll ((upTo w cs).map pair)) := by
      refine (refines_mergeAll p _).mergeAll_left fun s hs => ?_
      obtain ⟨c, hc, rfl⟩ := List.mem_map.1 hs
      obtain ⟨hmem, hw⟩ := mem_upTo.1 hc
      rw [(hevery.straight c hmem).weight_eq] at hw
      exact refines_upTo p cs hw _ _ (h c.a c.b)
    have hle := (refines_everyPair hp hstraight w).count_le (hcounted _) (hcounted _)
    have hge := hback.count_le (hcounted _) (hcounted _)
    have h₁ := hcs w
    have h₂ := hall w
    omega

/-! ## Completions against every pair -/

/-- Proposed candidates that join every two points by links no longer than these are apart
make a forest as light as the one over every pair. -/
theorem weights_complete_of_joined (hp : p.Counted) (hstraight : ∀ c ∈ cs, c.Straight points)
    (h : ∀ a b, (p.mergeAll
      ((upTo ((points.get a).distance (points.get b)) cs).map pair)).joined a b = true) :
    weights (complete points p cs) = weights (complete points p (everyPair points p)) := by
  have hcomplete := complete_spec hp hstraight
  rw [weights_eq_everyPair_iff hp hcomplete.acyclic hcomplete.straight]
  intro a b
  refine (refines_mergeAll p _).mergeAll_left (fun s hs => ?_) a b (h a b)
  obtain ⟨c, hc, rfl⟩ := List.mem_map.1 hs
  obtain ⟨hmem, hw⟩ := mem_upTo.1 hc
  exact complete_upTo hp hmem hw

/-- No third point is nearer to both points than they are to each other. -/
def Neighbors (points : Vector Point n) (a b : Fin n) : Prop :=
  ∀ r, ¬((points.get a).distance (points.get r) < (points.get a).distance (points.get b) ∧
    (points.get r).distance (points.get b) < (points.get a).distance (points.get b))

/-- Between two points that are no neighbors a third one is nearer to both, so the links
between neighbors are all that is needed. -/
theorem weights_complete_of_neighbors (hp : p.Counted) (hstraight : ∀ c ∈ cs, c.Straight points)
    (h : ∀ a b, Neighbors points a b →
      p.joined a b = true ∨ between points a b ∈ cs ∨ between points b a ∈ cs) :
    weights (complete points p cs) = weights (complete points p (everyPair points p)) := by
  refine weights_complete_of_joined hp hstraight fun a b => ?_
  generalize hunits : ((points.get a).distance (points.get b)).units = u
  induction u using Nat.strong_induction_on generalizing a b with
  | h u ih =>
    let w := (points.get a).distance (points.get b)
    have shorter {x y : Fin n} (hxy : (points.get x).distance (points.get y) < w) :
        (p.mergeAll ((upTo w cs).map pair)).joined x y = true :=
      refines_upTo p cs (Nat.le_of_lt hxy) x y (ih _ (hunits ▸ hxy) x y rfl)
    by_cases hthird : ∃ r, (points.get a).distance (points.get r) < w ∧
        (points.get r).distance (points.get b) < w
    · obtain ⟨r, har, hrb⟩ := hthird
      exact joined_trans (shorter har) (shorter hrb)
    · rcases h a b (not_exists.1 hthird) with hab | hab | hba
      · exact refines_mergeAll p _ a b hab
      · have hmem : between points a b ∈ upTo w cs := mem_upTo.2 ⟨hab, Nat.le_refl _⟩
        exact joined_mergeAll_of_mem p (List.mem_map_of_mem hmem)
      · have hw : (points.get b).distance (points.get a) ≤ w := by
          rw [Point.distance_comm]
          exact Nat.le_refl _
        have hmem : between points b a ∈ upTo w cs := mem_upTo.2 ⟨hba, hw⟩
        exact joined_symm (joined_mergeAll_of_mem p (List.mem_map_of_mem hmem))

theorem count_greedy_le_one (hp : p.Counted)
    (hall : ∀ a b, (p.mergeAll (cs.map pair)).joined a b = true) : (greedy p cs).1.count ≤ 1 := by
  have hgreedy := greedy_spec hp cs
  have hcounted : (greedy p cs).1.Counted := by
    rw [hgreedy.merged]
    exact hp.mergeAll _
  refine hcounted.count_le_one fun a b => ?_
  have hrefines : p.Refines (greedy p cs).1 := by
    rw [hgreedy.merged]
    exact refines_mergeAll p _
  refine hrefines.mergeAll_left (fun s hs => ?_) a b (hall a b)
  obtain ⟨c, hc, rfl⟩ := List.mem_map.1 hs
  exact hgreedy.joins c (mem_byWeight.2 hc)

/-- When the proposed candidates join all points, one scan is enough. -/
theorem complete_plan_eq_greedy (plan : Plan n) (hp : p.Counted)
    (hall : ∀ a b, (p.mergeAll (cs.map pair)).joined a b = true) :
    plan.complete p cs = (greedy p cs).2 := by
  unfold Plan.complete
  split
  · rename_i hone
    rw [greedy, accept_of_count_le hone]
  · exact if_pos (count_greedy_le_one hp hall)

theorem complete_eq_greedy (hp : p.Counted)
    (hall : ∀ a b, (p.mergeAll (cs.map pair)).joined a b = true) :
    complete points p cs = (greedy p cs).2 :=
  complete_plan_eq_greedy (Plan.ofPoints points) hp hall

theorem complete_subset (hp : p.Counted)
    (hall : ∀ a b, (p.mergeAll (cs.map pair)).joined a b = true) :
    complete points p cs ⊆ cs := by
  intro c hc
  rw [complete_eq_greedy hp hall] at hc
  exact mem_byWeight.1 ((greedy_spec hp cs).sublist.subset hc)

theorem weights_complete_iff (hp : p.Counted) (hstraight : ∀ c ∈ cs, c.Straight points)
    (hall : ∀ a b, (p.mergeAll (cs.map pair)).joined a b = true) :
    weights (complete points p cs) = weights (complete points p (everyPair points p)) ↔
      ∀ a b, (p.mergeAll
        ((upTo ((points.get a).distance (points.get b)) cs).map pair)).joined a b = true := by
  constructor
  · intro h a b
    have hcomplete := complete_spec hp hstraight
    have hjoined := (weights_eq_everyPair_iff hp hcomplete.acyclic hcomplete.straight).1 h a b
    refine (refines_mergeAll p _).mergeAll_left (fun s hs => ?_) a b hjoined
    obtain ⟨c, hc, rfl⟩ := List.mem_map.1 hs
    obtain ⟨hmem, hw⟩ := mem_upTo.1 hc
    have hoffered : c ∈ upTo ((points.get a).distance (points.get b)) cs :=
      mem_upTo.2 ⟨complete_subset hp hall hmem, hw⟩
    exact joined_mergeAll_of_mem p (List.mem_map_of_mem hoffered)
  · exact weights_complete_of_joined hp hstraight

end Forest
end Unrouted
