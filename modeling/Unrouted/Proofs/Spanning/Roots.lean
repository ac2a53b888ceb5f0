import Unrouted.Proofs.Spanning.Scan
import Unrouted.Proofs.Spanning.Strategies

/-!
Classes by their roots.  A search that goes through the numbers and puts each into the group of
its root finds the classes of the partition, in the order of their least members, whatever
members the roots are.  So the links depend on the copper only through what it joins.
-/

namespace Unrouted
namespace Partition

variable {n : Nat} {root : Fin n → Fin n} {p q : Partition n}

/-! ## Groups -/

/-- Puts a number into the group of a root, or into a new last one. -/
def addTo (r i : Fin n) : List (Fin n × List (Fin n)) → List (Fin n × List (Fin n))
  | [] => [(r, [i])]
  | g :: rest => if g.1 = r then (g.1, g.2 ++ [i]) :: rest else g :: addTo r i rest

/-- Groups numbers by their roots, in the order in which the roots come up. -/
def collect (root : Fin n → Fin n) (numbers : List (Fin n)) : List (Fin n × List (Fin n)) :=
  numbers.foldl (fun groups i => addTo (root i) i groups) []

theorem collect_concat (root : Fin n → Fin n) (numbers : List (Fin n)) (i : Fin n) :
    collect root (numbers ++ [i]) = addTo (root i) i (collect root numbers) := by
  rw [collect, List.foldl_append]
  rfl

theorem addTo_of_not_mem {r i : Fin n} {groups : List (Fin n × List (Fin n))}
    (h : r ∉ groups.map Prod.fst) : addTo r i groups = groups ++ [(r, [i])] := by
  induction groups with
  | nil => rfl
  | cons g rest ih =>
    simp only [List.map_cons, List.mem_cons, not_or] at h
    rw [addTo, if_neg (Ne.symm h.1), ih h.2, List.cons_append]

theorem addTo_of_mem {r i : Fin n} {groups : List (Fin n × List (Fin n))}
    (hnodup : (groups.map Prod.fst).Nodup) (h : r ∈ groups.map Prod.fst) :
    addTo r i groups = groups.map fun g => if g.1 = r then (g.1, g.2 ++ [i]) else g := by
  induction groups with
  | nil => exact absurd h List.not_mem_nil
  | cons g rest ih =>
    obtain ⟨hfirst, hrest⟩ := List.nodup_cons.1 hnodup
    rw [addTo, List.map_cons]
    split
    · rename_i hg
      have hsame : rest.map (fun g => if g.1 = r then (g.1, g.2 ++ [i]) else g) = rest := by
        refine (List.map_congr_left fun k hk => if_neg fun hkr => hfirst ?_).trans
          (List.map_id' rest)
        rw [hg, ← hkr]
        exact List.mem_map_of_mem hk
      rw [hsame]
    · rename_i hg
      rw [ih hrest ((List.mem_cons.1 h).resolve_left (Ne.symm hg))]

/-- The numbers whose root no smaller one has. -/
def firsts (root : Fin n → Fin n) (numbers : List (Fin n)) : List (Fin n) :=
  numbers.filter fun i => numbers.all fun j => !(decide (j < i) && decide (root j = root i))

theorem mem_firsts {numbers : List (Fin n)} {i : Fin n} :
    i ∈ firsts root numbers ↔ i ∈ numbers ∧ ∀ j ∈ numbers, j < i → root j ≠ root i := by
  simp only [firsts, List.mem_filter, List.all_eq_true, Bool.not_eq_true', Bool.and_eq_false_imp,
    decide_eq_true_eq, decide_eq_false_iff_not, ne_eq]

theorem nodup_map_firsts {numbers : List (Fin n)} (h : numbers.Pairwise (· < ·)) :
    ((firsts root numbers).map root).Nodup := by
  rw [List.Nodup, List.pairwise_map]
  refine (h.sublist List.filter_sublist).imp_of_mem fun {a b} ha hb hab => ?_
  exact (mem_firsts.1 hb).2 a (mem_firsts.1 ha).1 hab

/-- A greater number is a first one when its root is new. -/
theorem firsts_concat {numbers : List (Fin n)} {x : Fin n} (h : ∀ i ∈ numbers, i < x) :
    firsts root (numbers ++ [x]) =
      firsts root numbers ++ if root x ∈ numbers.map root then [] else [x] := by
  have hold : numbers.filter (fun i =>
      (numbers ++ [x]).all fun j => !(decide (j < i) && decide (root j = root i))) =
        firsts root numbers := by
    apply List.filter_congr
    intro i hi
    simp [Fin.lt_asymm (h i hi)]
  have hnew : ((numbers ++ [x]).all fun j => !(decide (j < x) && decide (root j = root x))) = true ↔
      root x ∉ numbers.map root := by
    simp only [List.all_append, List.all_eq_true, Bool.and_eq_true, Bool.not_eq_true',
      Bool.and_eq_false_imp, decide_eq_true_eq, decide_eq_false_iff_not, List.mem_singleton,
      List.mem_map, not_exists, not_and]
    constructor
    · intro hall i hi
      exact hall.1 i hi (h i hi)
    · intro hall
      refine ⟨fun i hi _ => hall i hi, fun i hi hlt => ?_⟩
      rw [hi] at hlt
      exact absurd hlt (Nat.lt_irrefl _)
  rw [firsts, List.filter_append, hold, List.filter_cons, List.filter_nil]
  congr 1
  by_cases hx : root x ∈ numbers.map root
  · rw [if_pos hx, if_neg fun hall => hnew.1 hall hx]
  · rw [if_neg hx, if_pos (hnew.2 hx)]

/-- Among ascending numbers, each root is the one of a first number. -/
theorem mem_map_firsts {numbers : List (Fin n)} (h : numbers.Pairwise (· < ·)) (r : Fin n) :
    r ∈ (firsts root numbers).map root ↔ r ∈ numbers.map root := by
  induction numbers using List.reverseRecOn with
  | nil => exact Iff.rfl
  | append_singleton numbers x ih =>
    obtain ⟨hnumbers, -, hlast⟩ := List.pairwise_append.1 h
    rw [firsts_concat fun i hi => hlast i hi x List.mem_cons_self, List.map_append, List.map_append,
      List.mem_append, List.mem_append, ih hnumbers]
    split
    · rename_i hx
      simp only [List.map_nil, List.not_mem_nil, or_false, List.map_cons, List.mem_singleton]
      exact ⟨.inl, fun hr => hr.elim id fun hr => hr ▸ hx⟩
    · exact Iff.rfl

/-- The groups of ascending numbers: one for each first number. -/
theorem collect_eq {numbers : List (Fin n)} (h : numbers.Pairwise (· < ·)) :
    collect root numbers = (firsts root numbers).map fun i =>
      (root i, numbers.filter fun j => decide (root i = root j)) := by
  induction numbers using List.reverseRecOn with
  | nil => rfl
  | append_singleton numbers x ih =>
    obtain ⟨hnumbers, -, hlast⟩ := List.pairwise_append.1 h
    have hroots : ((firsts root numbers).map fun i =>
        (root i, numbers.filter fun j => decide (root i = root j))).map Prod.fst =
          (firsts root numbers).map root := by
      rw [List.map_map]
      rfl
    rw [collect_concat, ih hnumbers, firsts_concat fun i hi => hlast i hi x List.mem_cons_self]
    split
    · rename_i hx
      have hmem := (mem_map_firsts hnumbers _).2 hx
      rw [← hroots] at hmem
      rw [addTo_of_mem (hroots ▸ nodup_map_firsts hnumbers) hmem, List.map_map, List.append_nil]
      apply List.map_congr_left
      intro i _
      rw [Function.comp_apply, List.filter_append, List.filter_singleton]
      by_cases hix : root i = root x <;> simp [hix]
    · rename_i hx
      have hnew : root x ∉ (firsts root numbers).map root := fun hmem =>
        hx ((mem_map_firsts hnumbers _).1 hmem)
      rw [addTo_of_not_mem (by rwa [hroots]), List.map_append, List.map_singleton]
      congr 1
      · apply List.map_congr_left
        intro i hi
        have hix : root i ≠ root x := fun hix => hnew (hix ▸ List.mem_map_of_mem hi)
        simp [hix]
      · have hothers : numbers.filter (fun j => decide (root x = root j)) = [] := by
          rw [List.filter_eq_nil_iff]
          intro j hj hxj
          exact hx (of_decide_eq_true hxj ▸ List.mem_map_of_mem hj)
        simp [hothers]

/-- Roots that tell classes apart. -/
def Roots (p : Partition n) (root : Fin n → Fin n) : Prop :=
  ∀ i j, root i = root j ↔ p.joined i j = true

theorem roots_labelOf (p : Partition n) : p.Roots p.labelOf := fun i j => by
  rw [joined_eq, beq_iff_eq]

/-- Whatever the roots are, the groups are the classes in the order of their least members. -/
theorem Roots.map_snd_collect (h : p.Roots root) :
    (collect root (List.finRange n)).map Prod.snd = p.components := by
  have hjoined (i j : Fin n) : decide (root i = root j) = p.joined i j := by
    rw [Bool.eq_iff_iff, decide_eq_true_eq]
    exact h i j
  have hfirsts : firsts root (List.finRange n) = p.leaders := by
    simp only [firsts, leaders, hjoined]
  rw [collect_eq (List.pairwise_lt_finRange n), List.map_map, hfirsts, components]
  simp only [Function.comp_def, hjoined]

/-- Lists of pairs that generate one equivalence merge to one partition, up to its labels. -/
theorem same_of_generated {copper copper' : List (Fin n × Fin n)}
    (h : generated copper = generated copper') :
    ((discrete n).mergeAll copper).Same ((discrete n).mergeAll copper') := by
  have hjoined (a b : Fin n) : ((discrete n).mergeAll copper).joined a b = true ↔
      ((discrete n).mergeAll copper').joined a b = true := by
    rw [joined_iff_generated, joined_iff_generated, h]
  exact ⟨fun a b => Bool.eq_iff_iff.2 (hjoined a b),
    ((counted_discrete n).mergeAll copper).count_eq_of_equiv ((counted_discrete n).mergeAll copper')
      (Equiv.refl (Fin n)) hjoined⟩

end Partition

/-! ## Links by roots -/

namespace Plan

variable {n : Nat} {p : Partition n} {root : Fin n → Fin n}

/-- One shortest candidate for every two groups of numbers with one root. -/
def nearestByRoot (plan : Plan n) (root : Fin n → Fin n) : List (Candidate n) :=
  (Candidate.choosePairs ((Partition.collect root (List.finRange n)).map Prod.snd)).filterMap
    fun s => plan.shortest? s.1 s.2

theorem nearestByRoot_eq (h : p.Roots root) (plan : Plan n) :
    plan.nearestByRoot root = plan.nearestPairs p := by
  rw [nearestByRoot, h.map_snd_collect, nearestPairs]

/-- The proposal when roots give the groups for the nearest pairs in the place of a mesh. -/
def proposeByRoot (plan : Plan n) (root : Fin n → Fin n) (strategy : Strategy)
    (p : Partition n) : List (Candidate n) :=
  match strategy, plan.sides with
  | .mesh, none => plan.nearestByRoot root
  | _, _ => plan.propose strategy p

theorem proposeByRoot_eq (h : p.Roots root) (plan : Plan n) (strategy : Strategy) :
    plan.proposeByRoot root strategy p = plan.propose strategy p := by
  cases strategy with
  | everyPair => rfl
  | mesh =>
    simp only [proposeByRoot, propose, nearestByRoot_eq h]
    cases plan.sides <;> rfl

/-- The links when roots give the groups of every search for nearest pairs. -/
def spanningByRoots (plan : Plan n) (roots : Partition n → Fin n → Fin n) (strategy : Strategy)
    (copper : List (Fin n × Fin n)) : List (Candidate n) :=
  let p := (Partition.discrete n).mergeAll copper
  if p.count ≤ 1 then [] else
    let (q, accepted) := Forest.greedy p (plan.proposeByRoot (roots p) strategy p)
    if q.count ≤ 1 then accepted
    else accepted ++ (Forest.greedy q (plan.nearestByRoot (roots q))).2

theorem spanningByRoots_eq {roots : Partition n → Fin n → Fin n}
    (h : ∀ q : Partition n, q.Roots (roots q)) (plan : Plan n) (strategy : Strategy)
    (copper : List (Fin n × Fin n)) :
    plan.spanningByRoots roots strategy copper = plan.spanning strategy copper := by
  simp only [spanningByRoots, proposeByRoot_eq (h _), nearestByRoot_eq (h _)]
  rfl

end Plan

namespace Forest

open Unrouted.Partition

variable {n : Nat}

/-- The links depend on the copper only through the equivalence that its pairs generate.  Other
pairs with the same equivalence, in any order, turned round or repeated, give the same links in
the same order.  They do so with any lengths and any sides of a mesh in the place of points, and
whatever members of the classes are their roots. -/
theorem spanning_of_generated (strategy : Strategy) (copper copper' : List (Fin n × Fin n))
    (h : generated copper = generated copper') :
    (∀ points : Vector Point n,
      spanning strategy points copper = spanning strategy points copper' ∧
        (Plan.ofPoints points).spanning strategy copper = spanning strategy points copper) ∧
    ∀ plan : Plan n, plan.spanning strategy copper = plan.spanning strategy copper' ∧
      ∀ roots : Partition n → Fin n → Fin n, (∀ q : Partition n, q.Roots (roots q)) →
        plan.spanningByRoots roots strategy copper' = plan.spanning strategy copper := by
  have hlinks (plan : Plan n) : plan.spanning strategy copper = plan.spanning strategy copper' :=
    Plan.spanning_of_same (same_of_generated h) plan strategy
  refine ⟨fun points => ⟨?_, Plan.spanning_ofPoints points strategy copper⟩, fun plan =>
    ⟨hlinks plan, fun roots hroots => ?_⟩⟩
  · rw [← Plan.spanning_ofPoints, ← Plan.spanning_ofPoints, hlinks]
  · rw [Plan.spanningByRoots_eq hroots, hlinks]

/-- The sides of the mesh leave a class apart, and the pairs of copper make other labels.  The
labels are roots. -/
theorem spanning_of_generated_farPoints :
    let p := (discrete 4).mergeAll [(0, 1)]
    let p' := (discrete 4).mergeAll [(1, 0), (2, 2), (0, 1)]
    p ≠ p' ∧
      (p.mergeAll ((Candidate.propose .mesh farPoints p).map Candidate.pair)).joined 2 3 = false ∧
      spanning .mesh farPoints [(0, 1)] = spanning .mesh farPoints [(1, 0), (2, 2), (0, 1)] ∧
      (Plan.ofPoints farPoints).spanningByRoots labelOf .mesh [(1, 0), (2, 2), (0, 1)] =
        spanning .mesh farPoints [(0, 1)] := by
  have hgenerated : generated (n := 4) [(0, 1)] = generated [(1, 0), (2, 2), (0, 1)] := by
    refine Setoid.ext fun a b => ?_
    rw [← joined_iff_generated, ← joined_iff_generated]
    revert a b
    decide +kernel
  obtain ⟨hpoints, hplan⟩ := spanning_of_generated .mesh _ _ hgenerated
  obtain ⟨hlinks, hofPoints⟩ := hpoints farPoints
  obtain ⟨-, hroots⟩ := hplan (Plan.ofPoints farPoints)
  exact ⟨by decide +kernel, by decide +kernel, hlinks,
    (hroots labelOf roots_labelOf).trans hofPoints⟩

end Forest
end Unrouted
