import Unrouted.Proofs.Spanning.Minimal

/-!
What the search for links reads of a partition: which numbers it joins, and how many classes
it has.  So the links are the same however the classes are labelled and in whatever order the
pairs came.  Under other numbers of the same points the links over every pair may differ, but
their weights do not.
-/

namespace Unrouted

/-! ## Two numberings -/

section Numbered

variable {n m : Nat} {α : Type} {xs : Vector α n} {ys : Vector α m}

theorem mem_toList_iff_get {x : α} : x ∈ xs.toList ↔ ∃ i, xs.get i = x := by
  rw [List.mem_iff_get]
  constructor
  · intro h
    obtain ⟨⟨i, hi⟩, rfl⟩ := h
    exact ⟨⟨i, by simpa using hi⟩, by simp [Vector.get]⟩
  · intro h
    obtain ⟨i, rfl⟩ := h
    exact ⟨⟨i.1, by simp⟩, by simp [Vector.get]⟩

theorem get_injective (h : xs.toList.Nodup) : Function.Injective xs.get := by
  intro i j hij
  have hsame : (⟨i.1, by simp⟩ : Fin xs.toList.length) = ⟨j.1, by simp⟩ :=
    List.nodup_iff_injective_get.1 h (by simpa [Vector.get] using hij)
  exact Fin.ext (Fin.mk.inj hsame)

/-- Two orders of the same distinct things number them, one to one. -/
theorem exists_renumbering (hxs : xs.toList.Nodup) (hys : ys.toList.Nodup)
    (h : xs.toList.Perm ys.toList) : ∃ e : Fin n ≃ Fin m, ∀ i, ys.get (e i) = xs.get i := by
  have hthere (i : Fin n) : ∃ j, ys.get j = xs.get i :=
    mem_toList_iff_get.1 (h.mem_iff.1 (mem_toList_iff_get.2 ⟨i, rfl⟩))
  choose f hf using hthere
  refine ⟨Equiv.ofBijective f ⟨fun i j hij => ?_, fun j => ?_⟩, hf⟩
  · apply get_injective hxs
    rw [← hf, ← hf, hij]
  · obtain ⟨i, hi⟩ := mem_toList_iff_get.1 (h.mem_iff.2 (mem_toList_iff_get.2 ⟨j, rfl⟩))
    exact ⟨i, get_injective hys ((hf i).trans hi)⟩

end Numbered

namespace Partition

variable {n m : Nat} {p q : Partition n}

/-- Partitions that differ at most in the labels of their classes. -/
structure Same (p q : Partition n) : Prop where
  joined : ∀ a b, p.joined a b = q.joined a b
  count : p.count = q.count

theorem Same.merge (h : p.Same q) (a b : Fin n) : (p.merge a b).Same (q.merge a b) where
  joined x y := by
    rw [Bool.eq_iff_iff, joined_merge, joined_merge]
    simp only [h.joined]
  count := by
    have hab := h.joined a b
    cases hq : q.joined a b with
    | true =>
      rw [merge_of_joined hq, merge_of_joined (hab.trans hq)]
      exact h.count
    | false => simp [Partition.merge, hab, hq, h.count]

theorem Same.leaders (h : p.Same q) : p.leaders = q.leaders := by
  simp only [Partition.leaders, h.joined]

theorem Same.components (h : p.Same q) : p.components = q.components := by
  simp only [Partition.components, h.leaders, h.joined]

/-! ## Under other numbers -/

/-- What merging joins under one numbering, merging joins under another one. -/
theorem joined_mergeAll_map {p : Partition n} {q : Partition m} {f : Fin n → Fin m}
    {pairs : List (Fin n × Fin n)}
    (hp : ∀ x y, p.joined x y = true → q.joined (f x) (f y) = true)
    (hpairs : ∀ s ∈ pairs, q.joined (f s.1) (f s.2) = true) :
    ∀ x y, (p.mergeAll pairs).joined x y = true → q.joined (f x) (f y) = true := by
  intro x y hxy
  exact joined_iff.2 (mergeAll_le (e := Setoid.comap f q.setoid)
    (fun x y h => joined_iff.1 (hp x y h)) (fun s hs => joined_iff.1 (hpairs s hs)) x y hxy)

theorem joined_mergeAll_of_map {xs : List (Fin n × Fin n)} {ys : List (Fin m × Fin m)}
    {f : Fin n → Fin m} (h : ∀ s ∈ xs, (f s.1, f s.2) ∈ ys) :
    ∀ a b, ((discrete n).mergeAll xs).joined a b = true →
      ((discrete m).mergeAll ys).joined (f a) (f b) = true := by
  refine joined_mergeAll_map (fun x y hxy => ?_) fun s hs => joined_mergeAll_of_mem _ (h s hs)
  rw [joined_discrete.1 hxy]
  exact joined_self _ (f y)

theorem joined_mergeAll_of_equiv {xs : List (Fin n × Fin n)} {ys : List (Fin m × Fin m)}
    (e : Fin n ≃ Fin m) (h : ∀ a b, (a, b) ∈ xs ↔ (e a, e b) ∈ ys) (a b : Fin n) :
    ((discrete n).mergeAll xs).joined a b = true ↔
      ((discrete m).mergeAll ys).joined (e a) (e b) = true := by
  constructor
  · exact joined_mergeAll_of_map (fun s hs => (h s.1 s.2).1 hs) a b
  · intro hab
    -- The other direction is the same one, under the numbering that leads back.
    have hback := joined_mergeAll_of_map (f := e.symm)
      (fun s hs => (h _ _).2 (by simpa using hs)) (e a) (e b) hab
    simpa using hback

/-- Partitions that join the same under two numberings have as many classes. -/
theorem Counted.count_eq_of_equiv {p : Partition n} {q : Partition m} (hp : p.Counted)
    (hq : q.Counted) (e : Fin n ≃ Fin m)
    (h : ∀ a b, p.joined a b = true ↔ q.joined (e a) (e b) = true) : p.count = q.count := by
  rw [hp, hq]
  exact Nat.card_congr (Quotient.congr e fun a b =>
    joined_iff.symm.trans ((h a b).trans joined_iff))

/-- The order of the pairs has no part in what merging them joins. -/
theorem same_mergeAll {xs ys : List (Fin n × Fin n)} (h : ∀ a b, (a, b) ∈ xs ↔ (a, b) ∈ ys) :
    ((discrete n).mergeAll xs).Same ((discrete n).mergeAll ys) := by
  have hjoined := joined_mergeAll_of_equiv (Equiv.refl (Fin n)) h
  refine ⟨fun a b => Bool.eq_iff_iff.2 (hjoined a b), ?_⟩
  exact ((counted_discrete n).mergeAll xs).count_eq_of_equiv ((counted_discrete n).mergeAll ys)
    (Equiv.refl (Fin n)) hjoined

end Partition

namespace Forest

variable {n : Nat} {p q : Partition n}

theorem accept_congr (h : p.Same q) (cs : List (Candidate n)) :
    (accept p cs).1.Same (accept q cs).1 ∧ (accept p cs).2 = (accept q cs).2 := by
  induction cs generalizing p q with
  | nil => exact ⟨h, rfl⟩
  | cons c rest ih =>
    by_cases hcount : p.count ≤ 1
    · rw [accept_of_count_le hcount, accept_of_count_le (h.count ▸ hcount)]
      exact ⟨h, rfl⟩
    · have hcount' : ¬q.count ≤ 1 := h.count ▸ hcount
      have hc := h.joined c.a c.b
      cases hq : q.joined c.a c.b with
      | true =>
        rw [accept_cons_of_joined hcount (hc.trans hq), accept_cons_of_joined hcount' hq]
        exact ih h
      | false =>
        rw [accept_cons_of_not_joined hcount (hc.trans hq), accept_cons_of_not_joined hcount' hq]
        obtain ⟨hsame, hlinks⟩ := ih (h.merge c.a c.b)
        exact ⟨hsame, congrArg (c :: ·) hlinks⟩

theorem greedy_congr (h : p.Same q) (cs : List (Candidate n)) :
    (greedy p cs).1.Same (greedy q cs).1 ∧ (greedy p cs).2 = (greedy q cs).2 :=
  accept_congr h (byWeight cs)

end Forest

namespace Plan

open Forest

variable {n : Nat} {p q : Partition n}

theorem nearestPairs_congr (h : p.Same q) (plan : Plan n) :
    plan.nearestPairs p = plan.nearestPairs q := by
  rw [nearestPairs, nearestPairs, h.components]

theorem propose_congr (h : p.Same q) (plan : Plan n) (strategy : Strategy) :
    plan.propose strategy p = plan.propose strategy q := by
  cases strategy with
  | everyPair => simp only [propose, everyPair, h.joined]
  | mesh =>
    simp only [propose]
    cases plan.sides with
    | none => exact nearestPairs_congr h plan
    | some sides => simp only [ofSides, h.joined]

theorem complete_congr (h : p.Same q) (plan : Plan n) (cs : List (Candidate n)) :
    plan.complete p cs = plan.complete q cs := by
  obtain ⟨hsame, hlinks⟩ := greedy_congr h cs
  have hrest := (greedy_congr hsame (plan.nearestPairs (greedy q cs).1)).2
  simp only [complete, h.count, hlinks, hsame.count, nearestPairs_congr hsame plan, hrest]

/-- The links depend on the copper only through the classes that it makes. -/
theorem spanning_of_same {xs ys : List (Fin n × Fin n)}
    (h : ((Partition.discrete n).mergeAll xs).Same ((Partition.discrete n).mergeAll ys))
    (plan : Plan n) (strategy : Strategy) :
    plan.spanning strategy xs = plan.spanning strategy ys := by
  rw [spanning, spanning, propose_congr h]
  exact complete_congr h plan _

end Plan

namespace Forest

open Candidate Unrouted.Partition

variable {n m : Nat}

/-- The links are found from which pairs are joined, not from their order. -/
theorem spanning_congr (strategy : Strategy) (points : Vector Point n)
    {xs ys : List (Fin n × Fin n)} (h : ∀ a b, (a, b) ∈ xs ↔ (a, b) ∈ ys) :
    spanning strategy points xs = spanning strategy points ys := by
  rw [← Plan.spanning_ofPoints, ← Plan.spanning_ofPoints]
  exact Plan.spanning_of_same (same_mergeAll h) _ strategy

/-- The same for points that another list numbers, as long as the numbers are the same. -/
theorem map_spanning_congr {β : Type} (strategy : Strategy) (hnm : n = m)
    {points : Vector Point n} {points' : Vector Point m} {xs : List (Fin n × Fin n)}
    {ys : List (Fin m × Fin m)} {f : Candidate n → β} {g : Candidate m → β}
    (hpoints : ∀ i, points'.get (i.cast hnm) = points.get i)
    (hpairs : ∀ a b, (a, b) ∈ xs ↔ (a.cast hnm, b.cast hnm) ∈ ys)
    (hfg : ∀ c : Candidate n, f c = g ⟨c.a.cast hnm, c.b.cast hnm, c.weight⟩) :
    (spanning strategy points xs).map f = (spanning strategy points' ys).map g := by
  subst hnm
  have hsame : points = points' := Vector.ext fun i hi => (hpoints ⟨i, hi⟩).symm
  rw [hsame, spanning_congr strategy points' hpairs]
  exact List.map_congr_left fun c _ => hfg c

/-! ## The weights over every pair -/

section Weights

variable {p : Partition n} {q : Partition m} {points : Vector Point n} {points' : Vector Point m}

/-- What the forest over every pair joins at a weight, it joins under other numbers as well. -/
theorem joined_upTo_of_equiv (hp : p.Counted) (hq : q.Counted) (e : Fin n ≃ Fin m)
    (hpoints : ∀ i, points'.get (e i) = points.get i)
    (hjoined : ∀ a b, p.joined a b = true → q.joined (e a) (e b) = true) (w : Length) :
    ∀ a b, (p.mergeAll ((upTo w (complete points p (everyPair points p))).map pair)).joined a b =
        true →
      (q.mergeAll ((upTo w (complete points' q (everyPair points' q))).map pair)).joined
        (e a) (e b) = true := by
  refine joined_mergeAll_map (fun x y hxy => ?_) fun s hs => ?_
  · exact refines_mergeAll q _ _ _ (hjoined x y hxy)
  · obtain ⟨c, hc, rfl⟩ := List.mem_map.1 hs
    obtain ⟨hmem, hw⟩ := mem_upTo.1 hc
    have hstraight := (completes_everyPair points hp).straight c hmem
    rw [hstraight.weight_eq, ← hpoints, ← hpoints] at hw
    exact everyPair_upTo hq hw

theorem weights_everyPair_of_equiv (hp : p.Counted) (hq : q.Counted) (e : Fin n ≃ Fin m)
    (hpoints : ∀ i, points'.get (e i) = points.get i)
    (hjoined : ∀ a b, p.joined a b = true ↔ q.joined (e a) (e b) = true) :
    weights (complete points p (everyPair points p)) =
      weights (complete points' q (everyPair points' q)) := by
  obtain rfl : n = m := Fin.equiv_iff_eq.1 ⟨e⟩
  have hpoints' (i : Fin n) : points.get (e.symm i) = points'.get i := by
    rw [← hpoints, e.apply_symm_apply]
  have hjoined' (a b : Fin n) (hab : q.joined a b = true) :
      p.joined (e.symm a) (e.symm b) = true := by
    rw [hjoined, e.apply_symm_apply, e.apply_symm_apply]
    exact hab
  rw [weights_eq_iff_length]
  intro w
  have hclasses := (hp.mergeAll _).count_eq_of_equiv (hq.mergeAll _) e fun a b =>
    ⟨joined_upTo_of_equiv hp hq e hpoints (fun a b => (hjoined a b).1) w a b, fun hab => by
      have hback := joined_upTo_of_equiv hq hp e.symm hpoints' hjoined' w _ _ hab
      rwa [e.symm_apply_apply, e.symm_apply_apply] at hback⟩
  have hall := hp.count_eq_of_equiv hq e hjoined
  have hcount := (completes_everyPair points hp).acyclic.count_upTo hp w
  have hcount' := (completes_everyPair points' hq).acyclic.count_upTo hq w
  omega

end Weights

end Forest
end Unrouted
