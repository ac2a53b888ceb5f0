import Unrouted.Proofs.Spanning.Renumbering

/-!
What the greedy scan selects.  The candidates stand in the one stable order by weight.  The
scan takes those that the pairs before it and the candidates before them, taken or not, leave
apart; where it ends early, nothing is left to take.
-/

namespace Unrouted

namespace Partition

variable {n : Nat}

/-- The least equivalence that joins the ends of every pair. -/
def generated (pairs : List (Fin n × Fin n)) : Setoid (Fin n) :=
  Relation.EqvGen.setoid fun x y => (x, y) ∈ pairs

theorem joined_iff_generated {pairs : List (Fin n × Fin n)} {a b : Fin n} :
    ((discrete n).mergeAll pairs).joined a b = true ↔ generated pairs a b :=
  joined_mergeAll_discrete

theorem joined_eq_false_iff {pairs : List (Fin n × Fin n)} {a b : Fin n} :
    ((discrete n).mergeAll pairs).joined a b = false ↔ ¬generated pairs a b := by
  rw [← joined_iff_generated, Bool.not_eq_true]

theorem Counted.count_eq {p : Partition n} {pairs : List (Fin n × Fin n)} (hp : p.Counted)
    (h : ∀ a b, p.joined a b = true ↔ generated pairs a b) :
    p.count = Nat.card (Quotient (generated pairs)) := by
  have hsame : p.setoid = generated pairs := Setoid.ext fun a b => joined_iff.symm.trans (h a b)
  rw [hp, hsame]

end Partition

namespace Forest

open Candidate Unrouted.Partition

variable {n : Nat} {p : Partition n} {cs s : List (Candidate n)} {w : Length}

/-! ## The order of the candidates -/

/-- The candidates in ascending order, those of one weight in the order in which they were
proposed. -/
structure Ordered (cs s : List (Candidate n)) : Prop where
  perm : s.Perm cs
  ascending : s.Pairwise fun c d => c.weight ≤ d.weight
  stable : ∀ w : Length, s.filter (fun c => decide (c.weight = w)) =
    cs.filter fun c => decide (c.weight = w)

theorem ordered_byWeight (cs : List (Candidate n)) : Ordered cs (byWeight cs) where
  perm := List.mergeSort_perm cs _
  ascending := sorted_byWeight cs
  stable w := by
    let alike (c : Candidate n) : Bool := decide (c.weight = w)
    have hascending :
        (cs.filter alike).Pairwise fun c d => decide (c.weight ≤ d.weight) = true := by
      refine List.pairwise_of_forall_mem_list fun c hc d hd => ?_
      have hcw : c.weight = w := of_decide_eq_true (List.mem_filter.1 hc).2
      have hdw : d.weight = w := of_decide_eq_true (List.mem_filter.1 hd).2
      simp [hcw, hdw, Length.le_iff]
    have hsublist : (cs.filter alike).Sublist (byWeight cs) :=
      List.sublist_mergeSort (size_le_trans fun c : Candidate n => c.weight.units)
        (size_le_total fun c : Candidate n => c.weight.units) hascending List.filter_sublist
    have hkept := hsublist.filter alike
    rw [List.filter_filter] at hkept
    simp only [Bool.and_self] at hkept
    exact (hkept.eq_of_length ((List.mergeSort_perm cs _).filter alike).length_eq.symm).symm

/-- There is one stable order. -/
theorem Ordered.eq_byWeight (h : Ordered cs s) : s = byWeight cs := by
  refine eq_of_filter_size (fun c : Candidate n => c.weight.units) h.ascending
    (sorted_byWeight cs) fun k => ?_
  have hsame (c : Candidate n) :
      decide (c.weight.units = k) = decide (c.weight = (⟨k⟩ : Length)) := by
    rw [decide_eq_decide]
    exact ⟨fun hk => by rw [← hk], fun hw => by rw [hw]⟩
  simp only [hsame]
  rw [h.stable, (ordered_byWeight cs).stable]

/-- Leaving candidates out does not change the order of the others. -/
theorem byWeight_filter (keep : Candidate n → Bool) (cs : List (Candidate n)) :
    byWeight (cs.filter keep) = (byWeight cs).filter keep := by
  have hordered : Ordered (cs.filter keep) ((byWeight cs).filter keep) := by
    refine ⟨(List.mergeSort_perm cs _).filter keep, (sorted_byWeight cs).filter keep,
      fun w => ?_⟩
    rw [List.filter_comm, (ordered_byWeight cs).stable, List.filter_comm]
  exact hordered.eq_byWeight.symm

/-! ## The scan -/

/-- The scan without its early end. -/
def acceptAll (p : Partition n) : List (Candidate n) → Partition n × List (Candidate n)
  | [] => (p, [])
  | c :: rest =>
    if p.joined c.a c.b then acceptAll p rest
    else
      let (q, accepted) := acceptAll (p.merge c.a c.b) rest
      (q, c :: accepted)

/-- The candidates of a list that `p` and the candidates before them leave apart. -/
def fresh (p : Partition n) (s : List (Candidate n)) : List (Candidate n) :=
  ((List.finRange s.length).filter fun i =>
    !(p.mergeAll ((s.take i.1).map pair)).joined (s.get i).a (s.get i).b).map s.get

theorem fresh_cons (p : Partition n) (c : Candidate n) (rest : List (Candidate n)) :
    fresh p (c :: rest) =
      if p.joined c.a c.b then fresh (p.merge c.a c.b) rest
      else c :: fresh (p.merge c.a c.b) rest := by
  have hrest : ((List.finRange rest.length).map Fin.succ).filter (fun i =>
        !(p.mergeAll (((c :: rest).take i.1).map pair)).joined
          ((c :: rest).get i).a ((c :: rest).get i).b) =
      ((List.finRange rest.length).filter fun i =>
        !((p.merge c.a c.b).mergeAll ((rest.take i.1).map pair)).joined
          (rest.get i).a (rest.get i).b).map Fin.succ := by
    rw [List.filter_map]
    rfl
  have hplaces : List.finRange (c :: rest).length = 0 :: (List.finRange rest.length).map Fin.succ :=
    List.finRange_succ
  rw [fresh, fresh, hplaces, List.filter_cons, hrest]
  cases hc : p.joined c.a c.b <;> simp [Partition.mergeAll, hc, Function.comp_def]

/-- The partition that the scan leaves is the one that all candidates make. -/
theorem acceptAll_eq (p : Partition n) (s : List (Candidate n)) :
    acceptAll p s = (p.mergeAll (s.map pair), fresh p s) := by
  induction s generalizing p with
  | nil => rfl
  | cons c rest ih =>
    rw [mergeAll_cons, fresh_cons, acceptAll]
    cases hc : p.joined c.a c.b with
    | true =>
      rw [if_pos rfl, if_pos rfl, merge_of_joined hc]
      exact ih p
    | false =>
      rw [if_neg Bool.false_ne_true, if_neg Bool.false_ne_true, ih]

theorem acceptAll_of_joined (h : ∀ a b, p.joined a b = true) (s : List (Candidate n)) :
    acceptAll p s = (p, []) := by
  induction s with
  | nil => rfl
  | cons c rest ih => rw [acceptAll, if_pos (h c.a c.b), ih]

/-- Nothing is left to take when one class is left, so the early end takes nothing away. -/
theorem accept_eq_acceptAll (hp : p.Counted) (s : List (Candidate n)) :
    accept p s = acceptAll p s := by
  induction s generalizing p with
  | nil => rfl
  | cons c rest ih =>
    by_cases hcount : p.count ≤ 1
    · rw [accept_of_count_le hcount, acceptAll_of_joined (hp.joined_of_count_le_one hcount)]
    · cases hc : p.joined c.a c.b with
      | true => rw [accept_cons_of_joined hcount hc, acceptAll, if_pos hc, ih hp]
      | false =>
        rw [accept_cons_of_not_joined hcount hc, acceptAll, if_neg (by simp [hc]),
          ih (hp.merge c.a c.b)]

theorem greedy_eq (hp : p.Counted) (cs : List (Candidate n)) :
    greedy p cs = (p.mergeAll ((byWeight cs).map pair), fresh p (byWeight cs)) := by
  rw [greedy, accept_eq_acceptAll hp, acceptAll_eq]

/-! ## Other weights in the same order -/

/-- The candidate with another weight. -/
def reweigh (f : Length → Length) (c : Candidate n) : Candidate n := { c with weight := f c.weight }

theorem byWeight_reweigh {f : Length → Length} (hf : ∀ v w, f v ≤ f w ↔ v ≤ w)
    (cs : List (Candidate n)) : byWeight (cs.map (reweigh f)) = (byWeight cs).map (reweigh f) := by
  refine (List.map_mergeSort fun c _ d _ => ?_).symm
  rw [decide_eq_decide]
  exact (hf c.weight d.weight).symm

theorem acceptAll_reweigh (f : Length → Length) (p : Partition n) (s : List (Candidate n)) :
    acceptAll p (s.map (reweigh f)) = ((acceptAll p s).1, (acceptAll p s).2.map (reweigh f)) := by
  induction s generalizing p with
  | nil => rfl
  | cons c rest ih =>
    rw [List.map_cons, acceptAll, acceptAll]
    by_cases hc : p.joined c.a c.b = true
    · rw [if_pos hc, if_pos (show p.joined (reweigh f c).a (reweigh f c).b = true from hc), ih]
    · rw [if_neg hc, if_neg (show ¬p.joined (reweigh f c).a (reweigh f c).b = true from hc)]
      show (_, _) = (_, _)
      rw [show p.merge (reweigh f c).a (reweigh f c).b = p.merge c.a c.b from rfl, ih,
        List.map_cons]

/-! ## The selection -/

/-- Neither some pairs nor the candidates before a place join the ends of the one there. -/
def Apart (pairs : List (Fin n × Fin n)) (s : List (Candidate n)) (i : Fin s.length) : Prop :=
  ¬generated (pairs ++ (s.take i.1).map pair) (s.get i).a (s.get i).b

open Classical in
/-- The candidates at such places. -/
noncomputable def selection (pairs : List (Fin n × Fin n)) (s : List (Candidate n)) :
    List (Candidate n) :=
  ((List.finRange s.length).filter fun i => decide (Apart pairs s i)).map s.get

theorem fresh_mergeAll (pairs : List (Fin n × Fin n)) (s : List (Candidate n)) :
    fresh ((discrete n).mergeAll pairs) s = selection pairs s := by
  classical
  rw [fresh, selection]
  congr 1
  apply List.filter_congr
  intro i _
  rw [← mergeAll_append, Bool.eq_iff_iff, Bool.not_eq_true', joined_eq_false_iff,
    decide_eq_true_iff, Apart]

/-- What the greedy scan makes of some pairs that are joined before it and of candidates in
their order `s`: it takes those that nothing before them joins.  These close no cycle and join
all that can be joined, those of one weight stay in the order of the proposal, the scan without
an early end gives the same, and the count is that of the classes that are left. -/
structure Selects (pairs : List (Fin n × Fin n)) (cs s : List (Candidate n))
    (out : Partition n × List (Candidate n)) : Prop where
  taken : out.2 = selection pairs s
  forest : ∀ before c after, out.2 = before ++ c :: after →
    ¬generated (pairs ++ before.map pair) c.a c.b
  spans : generated (pairs ++ out.2.map pair) = generated (pairs ++ cs.map pair)
  ties : ∀ w : Length, (out.2.filter fun c => decide (c.weight = w)).Sublist
    (cs.filter fun c => decide (c.weight = w))
  whole : out = acceptAll ((discrete n).mergeAll pairs) s
  joined : ∀ a b, out.1.joined a b = true ↔ generated (pairs ++ cs.map pair) a b
  count : out.1.count = Nat.card (Quotient (generated (pairs ++ cs.map pair)))

/-- The candidates have one stable order by weight, and the greedy forest is the selection from
it.  Of the weights only their order counts: a length is any whole number of units, so numbers
of units stand for whatever weights a list has, as long as these are totally ordered. -/
theorem greedy_selects (pairs : List (Fin n × Fin n)) (cs : List (Candidate n)) :
    let p := (discrete n).mergeAll pairs
    (∀ s, Ordered cs s ↔ s = byWeight cs) ∧ Selects pairs cs (byWeight cs) (greedy p cs) ∧
      ∀ f : Length → Length, (∀ v w, f v ≤ f w ↔ v ≤ w) →
        greedy p (cs.map (reweigh f)) = ((greedy p cs).1, (greedy p cs).2.map (reweigh f)) := by
  intro p
  have hp : p.Counted := (counted_discrete n).mergeAll pairs
  have hspec := greedy_spec hp cs
  have hgreedy := greedy_eq hp cs
  have hordered := ordered_byWeight cs
  have hall (a b : Fin n) : (greedy p cs).1.joined a b = true ↔
      generated (pairs ++ cs.map pair) a b := by
    have hsame : ((discrete n).mergeAll (pairs ++ (byWeight cs).map pair)).Same
        ((discrete n).mergeAll (pairs ++ cs.map pair)) := same_mergeAll fun a b => by
      simp only [List.mem_append, (hordered.perm.map pair).mem_iff]
    rw [hgreedy, ← mergeAll_append, hsame.joined, joined_iff_generated]
  refine ⟨fun s => ⟨fun h => h.eq_byWeight, fun h => h ▸ hordered⟩, ?_, fun f hf => ?_⟩
  · constructor
    · rw [hgreedy, fresh_mergeAll]
    · intro before c after hsplit
      have hc := acyclic_iff.1 hspec.acyclic before c after hsplit
      rwa [← mergeAll_append, joined_eq_false_iff] at hc
    · refine Setoid.ext fun a b => ?_
      rw [← hall, hspec.merged, ← mergeAll_append, joined_iff_generated]
    · intro w
      rw [← hordered.stable]
      exact hspec.sublist.filter _
    · exact accept_eq_acceptAll hp (byWeight cs)
    · exact hall
    · refine Counted.count_eq ?_ hall
      rw [hgreedy]
      exact hp.mergeAll _
  · rw [greedy, greedy, byWeight_reweigh hf, accept_eq_acceptAll hp, accept_eq_acceptAll hp,
      acceptAll_reweigh]

end Forest
end Unrouted
