import Unrouted.Proofs.Sorting
import Unrouted.Proofs.Spanning.Plan
import Unrouted.Proofs.Spanning.Partition

/-!
The greedy scan and its completion.  What the scan accepts closes no cycle and joins all that
was offered.  Between every two classes there is a nearest pair, so a second scan over these
joins whatever the first one has left apart, whatever the first one was offered.
-/

namespace Unrouted

namespace Candidate

variable {n : Nat} {points : Vector Point n} {p q r : Partition n} {a b : Fin n}

def pair (c : Candidate n) : Fin n × Fin n := (c.a, c.b)

/-- The candidate joins its two points by a straight line. -/
def Straight (points : Vector Point n) (c : Candidate n) : Prop := c = between points c.a c.b

theorem straight_between (points : Vector Point n) (a b : Fin n) :
    (between points a b).Straight points := rfl

theorem weight_between (points : Vector Point n) (a b : Fin n) :
    (between points a b).weight = (points.get a).distance (points.get b) := by
  rw [between]

theorem Straight.weight_eq {c : Candidate n} (h : c.Straight points) :
    c.weight = (points.get c.a).distance (points.get c.b) := by
  have hweight := congrArg weight h
  rw [weight_between] at hweight
  exact hweight

/-! ## Nearest pairs -/

theorem mem_choosePairs {α : Type} {l : List α} {x y : α} (hx : x ∈ l) (hy : y ∈ l) (hne : x ≠ y) :
    (x, y) ∈ choosePairs l ∨ (y, x) ∈ choosePairs l := by
  induction l with
  | nil => exact absurd hx List.not_mem_nil
  | cons z rest ih =>
    simp only [choosePairs, List.mem_append, List.mem_map, Prod.mk.injEq]
    rcases List.mem_cons.1 hx with hx | hx
    · rcases List.mem_cons.1 hy with hy | hy
      · exact absurd (hx.trans hy.symm) hne
      · exact .inl (.inl ⟨y, hy, hx.symm, rfl⟩)
    · rcases List.mem_cons.1 hy with hy | hy
      · exact .inr (.inl ⟨x, hx, hy.symm, rfl⟩)
      · rcases ih hx hy with h | h
        · exact .inl (.inr h)
        · exact .inr (.inr h)

theorem exists_of_shortest? {as bs : List (Fin n)} {c : Candidate n}
    (h : shortest? points as bs = some c) : ∃ a ∈ as, ∃ b ∈ bs, c = between points a b :=
  @Plan.exists_of_shortest? n (Plan.ofPoints points) as bs c h

theorem exists_shortest? (points : Vector Point n) {as bs : List (Fin n)} (ha : a ∈ as)
    (hb : b ∈ bs) : ∃ c, shortest? points as bs = some c :=
  (Plan.ofPoints points).exists_shortest? ha hb

theorem straight_of_mem_nearestPairs {c : Candidate n} (h : c ∈ nearestPairs points p) :
    c.Straight points := by
  obtain ⟨s, -, hs⟩ := List.mem_filterMap.1 h
  obtain ⟨a, -, b, -, rfl⟩ := exists_of_shortest? hs
  exact straight_between points a b

theorem straight_of_mem_ofSides {sides : Option (List (Nat × Nat))} {c : Candidate n}
    (h : c ∈ ofSides points p sides) : c.Straight points := by
  cases sides with
  | none => exact straight_of_mem_nearestPairs h
  | some sides =>
    obtain ⟨s, -, rfl⟩ := List.mem_map.1 h
    exact straight_between points s.1 s.2

theorem straight_of_mem_everyPair {c : Candidate n} (h : c ∈ everyPair points p) :
    c.Straight points := by
  obtain ⟨a, -, ha⟩ := List.mem_flatMap.1 h
  obtain ⟨b, -, rfl⟩ := List.mem_map.1 ha
  exact straight_between points a b

theorem straight_of_mem_propose {strategy : Strategy} {c : Candidate n}
    (h : c ∈ propose strategy points p) : c.Straight points := by
  cases strategy with
  | everyPair => exact straight_of_mem_everyPair h
  | mesh => exact straight_of_mem_ofSides h

/-- The least number of a class leads it. -/
theorem exists_leader (p : Partition n) (a : Fin n) : ∃ l ∈ p.leaders, p.joined l a = true := by
  obtain ⟨i, hi⟩ := a
  induction i using Nat.strong_induction_on with
  | h i ih =>
    by_cases hleads : (⟨i, hi⟩ : Fin n) ∈ p.leaders
    · exact ⟨⟨i, hi⟩, hleads, Partition.joined_self p _⟩
    · obtain ⟨j, hji, hjoined⟩ : ∃ j : Fin n, j < ⟨i, hi⟩ ∧ p.joined j ⟨i, hi⟩ = true := by
        simpa [Partition.leaders] using hleads
      obtain ⟨l, hl, hlj⟩ := ih j.1 hji j.2
      exact ⟨l, hl, Partition.joined_trans hlj hjoined⟩

/-- Nearest pairs join every two classes. -/
theorem joined_of_nearestPairs (points : Vector Point n) (hrefines : p.Refines q)
    (hpairs : ∀ c ∈ nearestPairs points p, q.joined c.a c.b = true) (a b : Fin n) :
    q.joined a b = true := by
  obtain ⟨l, hl, hla⟩ := exists_leader p a
  obtain ⟨m, hm, hmb⟩ := exists_leader p b
  let members (i : Fin n) : List (Fin n) := (List.finRange n).filter fun j => p.joined i j
  have hmembers {i j : Fin n} : j ∈ members i ↔ p.joined i j = true := by simp [members]
  by_cases hsame : members l = members m
  · have hlm : l ∈ members m := hsame ▸ hmembers.2 (Partition.joined_self p l)
    have hbl : p.joined b l = true :=
      Partition.joined_trans (Partition.joined_symm hmb) (hmembers.1 hlm)
    exact hrefines a b (Partition.joined_symm (Partition.joined_trans hbl hla))
  · have across {i j x y : Fin n} (hi : p.joined i x = true) (hj : p.joined j y = true)
        (hmem : (members i, members j) ∈ choosePairs p.components) : q.joined x y = true := by
      obtain ⟨c, hc⟩ := exists_shortest? points (hmembers.2 hi) (hmembers.2 hj)
      obtain ⟨u, hu, v, hv, rfl⟩ := exists_of_shortest? hc
      have huv : q.joined u v = true := hpairs _ (List.mem_filterMap.2 ⟨_, hmem, hc⟩)
      have hxu : p.joined x u = true :=
        Partition.joined_trans (Partition.joined_symm hi) (hmembers.1 hu)
      have hvy : p.joined v y = true :=
        Partition.joined_trans (Partition.joined_symm (hmembers.1 hv)) hj
      exact Partition.joined_trans (Partition.joined_trans (hrefines _ _ hxu) huv)
        (hrefines _ _ hvy)
    have hcl : members l ∈ p.components := List.mem_map_of_mem hl
    have hcm : members m ∈ p.components := List.mem_map_of_mem hm
    rcases mem_choosePairs hcl hcm hsame with hmem | hmem
    · exact across hla hmb hmem
    · exact Partition.joined_symm (across hmb hla hmem)

end Candidate

namespace Forest

open Candidate

variable {n : Nat} {points : Vector Point n} {p q : Partition n} {cs ds : List (Candidate n)}

/-- Each candidate joins two classes of what those before it leave. -/
def Acyclic (p : Partition n) : List (Candidate n) → Prop
  | [] => True
  | c :: rest => p.joined c.a c.b = false ∧ Acyclic (p.merge c.a c.b) rest

theorem mergeAll_cons (p : Partition n) (c : Candidate n) (cs : List (Candidate n)) :
    p.mergeAll ((c :: cs).map pair) = (p.merge c.a c.b).mergeAll (cs.map pair) := rfl

theorem acyclic_append :
    Acyclic p (cs ++ ds) ↔ Acyclic p cs ∧ Acyclic (p.mergeAll (cs.map pair)) ds := by
  induction cs generalizing p with
  | nil => exact (iff_of_eq (true_and _)).symm
  | cons c rest ih =>
    rw [List.cons_append, Acyclic, Acyclic, mergeAll_cons, ih, and_assoc]

/-- What closes no cycle over a coarser partition closes none over a finer one. -/
theorem Acyclic.of_refines (h : Acyclic q cs) (hpq : p.Refines q) : Acyclic p cs := by
  induction cs generalizing p q with
  | nil => trivial
  | cons c rest ih =>
    refine ⟨?_, ih h.2 (hpq.merge c.a c.b)⟩
    have hc := h.1
    cases hp : p.joined c.a c.b with
    | false => rfl
    | true => exact absurd (hpq _ _ hp) (by simp [hc])

theorem Acyclic.sublist (h : Acyclic p cs) (hsub : ds.Sublist cs) : Acyclic p ds := by
  induction hsub generalizing p with
  | slnil => trivial
  | cons c _ ih => exact ih (h.2.of_refines (Partition.refines_merge p c.a c.b))
  | cons_cons c _ ih => exact ⟨h.1, ih h.2⟩

theorem Acyclic.not_joined {c : Candidate n} {before after : List (Candidate n)}
    (h : Acyclic p (before ++ c :: after)) :
    (p.mergeAll (before.map pair)).joined c.a c.b = false :=
  (acyclic_append.1 h).2.1

theorem acyclic_iff :
    Acyclic p cs ↔ ∀ before c after, cs = before ++ c :: after →
      (p.mergeAll (before.map pair)).joined c.a c.b = false := by
  constructor
  · intro h before c after hsplit
    rw [hsplit] at h
    exact h.not_joined
  · intro h
    induction cs generalizing p with
    | nil => trivial
    | cons d rest ih =>
      refine ⟨h [] d rest rfl, ih fun before c after hsplit => ?_⟩
      rw [← mergeAll_cons]
      exact h (d :: before) c after (by rw [hsplit, List.cons_append])

theorem Acyclic.ne {c : Candidate n} (h : Acyclic p cs) (hc : c ∈ cs) : c.a ≠ c.b := by
  obtain ⟨before, after, rfl⟩ := List.append_of_mem hc
  intro hsame
  have hc := h.not_joined
  rw [hsame, Partition.joined_self] at hc
  exact Bool.noConfusion hc

/-- Each candidate takes one class away. -/
theorem Acyclic.count_add_length (h : Acyclic p cs) (hp : p.Counted) :
    (p.mergeAll (cs.map pair)).count + cs.length = p.count := by
  induction cs generalizing p with
  | nil => rfl
  | cons c rest ih =>
    have hrest := ih h.2 (hp.merge c.a c.b)
    have hcount : (p.merge c.a c.b).count = p.count - 1 := by simp [Partition.merge, h.1]
    have hpos : 0 < p.count := hp.count_pos c.a
    rw [mergeAll_cons, List.length_cons]
    omega

/-! ## The greedy scan -/

theorem accept_of_count_le (hcount : p.count ≤ 1) (cs : List (Candidate n)) :
    accept p cs = (p, []) := by
  cases cs with
  | nil => rfl
  | cons c rest => simp [accept, hcount]

theorem accept_cons_of_joined {c : Candidate n} (hcount : ¬p.count ≤ 1)
    (hc : p.joined c.a c.b = true) : accept p (c :: cs) = accept p cs := by
  simp [accept, hcount, hc]

theorem accept_cons_of_not_joined {c : Candidate n} (hcount : ¬p.count ≤ 1)
    (hc : p.joined c.a c.b = false) :
    accept p (c :: cs) =
      ((accept (p.merge c.a c.b) cs).1, c :: (accept (p.merge c.a c.b) cs).2) := by
  simp [accept, hcount, hc]

/-- What a scan accepts: candidates that it was offered, which close no cycle and make the
partition that is left. -/
structure Accepted (p : Partition n) (offered : List (Candidate n))
    (out : Partition n × List (Candidate n)) : Prop where
  merged : out.1 = p.mergeAll (out.2.map pair)
  acyclic : Acyclic p out.2
  sublist : out.2.Sublist offered
  joins : ∀ c ∈ offered, out.1.joined c.a c.b = true

theorem accept_spec (hp : p.Counted) (cs : List (Candidate n)) : Accepted p cs (accept p cs) := by
  induction cs generalizing p with
  | nil => exact ⟨rfl, trivial, List.Sublist.refl _, by simp⟩
  | cons c rest ih =>
    by_cases hcount : p.count ≤ 1
    · rw [accept_of_count_le hcount]
      exact ⟨rfl, trivial, List.nil_sublist _, fun d _ => hp.joined_of_count_le_one hcount d.a d.b⟩
    · cases hc : p.joined c.a c.b with
      | true =>
        obtain ⟨hmerged, hacyclic, hsublist, hjoins⟩ := ih hp
        rw [accept_cons_of_joined hcount hc]
        refine ⟨hmerged, hacyclic, hsublist.cons c, fun d hd => ?_⟩
        rcases List.mem_cons.1 hd with hd | hd
        · rw [hd, hmerged]
          exact Partition.refines_mergeAll p _ _ _ hc
        · exact hjoins d hd
      | false =>
        obtain ⟨hmerged, hacyclic, hsublist, hjoins⟩ := ih (hp.merge c.a c.b)
        rw [accept_cons_of_not_joined hcount hc]
        refine ⟨hmerged, ⟨hc, hacyclic⟩, hsublist.cons_cons c, fun d hd => ?_⟩
        rcases List.mem_cons.1 hd with hd | hd
        · rw [hd, hmerged]
          exact Partition.refines_mergeAll _ _ _ _ (Partition.joined_merge_ends p c.a c.b)
        · exact hjoins d hd

theorem mem_byWeight {c : Candidate n} : c ∈ byWeight cs ↔ c ∈ cs := List.mem_mergeSort

theorem greedy_spec (hp : p.Counted) (cs : List (Candidate n)) :
    Accepted p (byWeight cs) (greedy p cs) :=
  accept_spec hp (byWeight cs)

/-! ## Completion -/

/-- The candidates make a tree of the classes. -/
structure Completes (points : Vector Point n) (p : Partition n) (cs : List (Candidate n)) :
    Prop where
  acyclic : Acyclic p cs
  joins : ∀ a b, (p.mergeAll (cs.map pair)).joined a b = true
  length : cs.length = p.count - 1
  straight : ∀ c ∈ cs, c.Straight points

/-- Candidates that close no cycle and join everything are one less than the classes. -/
theorem Acyclic.completes (hacyclic : Acyclic p cs) (hp : p.Counted)
    (hjoins : ∀ a b, (p.mergeAll (cs.map pair)).joined a b = true)
    (hstraight : ∀ c ∈ cs, c.Straight points) : Completes points p cs := by
  refine ⟨hacyclic, hjoins, ?_, hstraight⟩
  have hlength := hacyclic.count_add_length hp
  have hone := (hp.mergeAll (cs.map pair)).count_le_one hjoins
  rcases isEmpty_or_nonempty (Fin n) with hn | hn
  · have hsame := hp.count_le_one fun a => hn.elim a
    have hnil : cs = [] := List.eq_nil_iff_forall_not_mem.2 fun c _ => hn.elim c.a
    rw [hnil, List.length_nil]
    omega
  · obtain ⟨a⟩ := hn
    have hpos := (hp.mergeAll (cs.map pair)).count_pos a
    omega

/-- Whatever is proposed, all classes are joined. -/
theorem complete_spec (hp : p.Counted) {proposed : List (Candidate n)}
    (hstraight : ∀ c ∈ proposed, c.Straight points) :
    Completes points p (complete points p proposed) := by
  unfold complete
  split
  · rename_i hcount
    exact Acyclic.completes trivial hp (hp.joined_of_count_le_one hcount)
      fun c hc => absurd hc List.not_mem_nil
  · have hfirst := greedy_spec hp proposed
    have hq : (greedy p proposed).1.Counted := by
      rw [hfirst.merged]
      exact hp.mergeAll _
    have hfirst_straight : ∀ c ∈ (greedy p proposed).2, c.Straight points :=
      fun c hc => hstraight c (mem_byWeight.1 (hfirst.sublist.subset hc))
    show Completes points p
      (if (greedy p proposed).1.count ≤ 1 then (greedy p proposed).2
        else (greedy p proposed).2 ++
          (greedy (greedy p proposed).1 (nearestPairs points (greedy p proposed).1)).2)
    split
    · rename_i hcount
      refine hfirst.acyclic.completes hp (fun a b => ?_) hfirst_straight
      rw [← hfirst.merged]
      exact hq.joined_of_count_le_one hcount a b
    · have hsecond := greedy_spec hq (nearestPairs points (greedy p proposed).1)
      refine Acyclic.completes (acyclic_append.2 ⟨hfirst.acyclic, ?_⟩) hp (fun a b => ?_)
        fun c hc => ?_
      · rw [← hfirst.merged]
        exact hsecond.acyclic
      · rw [List.map_append, Partition.mergeAll_append, ← hfirst.merged, ← hsecond.merged]
        have hrefines : (greedy p proposed).1.Refines
            (greedy (greedy p proposed).1 (nearestPairs points (greedy p proposed).1)).1 := by
          rw [hsecond.merged]
          exact Partition.refines_mergeAll _ _
        exact joined_of_nearestPairs points hrefines
          (fun c hc => hsecond.joins c (mem_byWeight.2 hc)) a b
      · rcases List.mem_append.1 hc with hc | hc
        · exact hfirst_straight c hc
        · exact straight_of_mem_nearestPairs (mem_byWeight.1 (hsecond.sublist.subset hc))

/-- The links make a tree of the classes of the copper. -/
theorem completes_spanning (strategy : Strategy) (points : Vector Point n)
    (copper : List (Fin n × Fin n)) :
    Completes points ((Partition.discrete n).mergeAll copper) (spanning strategy points copper) :=
  complete_spec ((Partition.counted_discrete n).mergeAll copper)
    fun _ hc => straight_of_mem_propose hc

end Forest
end Unrouted
