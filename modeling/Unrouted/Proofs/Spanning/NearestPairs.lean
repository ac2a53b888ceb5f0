import Unrouted.Proofs.Geometry.Collinear
import Unrouted.Proofs.Geometry.Length
import Unrouted.Proofs.Spanning.Contraction

/-!
Nearest pairs against every pair.  Between two classes there is exactly one nearest pair, the
first of the shortest ones.  Each class is joined to each other one as cheaply as it can be, so
a forest of nearest pairs weighs as much as one over every pair.  Points on a line have no mesh,
so every strategy comes to that weight there.
-/

namespace Unrouted

namespace Partition

variable {n : Nat} {p : Partition n} {i j l m a b : Fin n}

/-! ## Leaders -/

theorem mem_leaders : i ∈ p.leaders ↔ ∀ j, j < i → p.joined j i = false := by
  simp only [leaders, List.mem_filter, List.mem_finRange, true_and, List.all_eq_true,
    forall_const, Bool.not_eq_true', Bool.and_eq_false_imp, decide_eq_true_eq]

/-- A leader is the least member of its class. -/
theorem le_of_mem_leaders (hl : l ∈ p.leaders) (h : p.joined l j = true) : l ≤ j := by
  by_contra hlt
  have hapart := mem_leaders.1 hl j (Nat.lt_of_not_le hlt)
  rw [joined_symm h] at hapart
  exact Bool.noConfusion hapart

theorem eq_of_mem_leaders (hl : l ∈ p.leaders) (hm : m ∈ p.leaders) (h : p.joined l m = true) :
    l = m :=
  Fin.le_antisymm (le_of_mem_leaders hl h) (le_of_mem_leaders hm (joined_symm h))

theorem pairwise_leaders (p : Partition n) : p.leaders.Pairwise (· < ·) :=
  (List.pairwise_lt_finRange n).sublist List.filter_sublist

/-- The members of a class in ascending order. -/
def members (p : Partition n) (i : Fin n) : List (Fin n) :=
  (List.finRange n).filter fun j => p.joined i j

theorem mem_members : j ∈ p.members i ↔ p.joined i j = true := by
  simp [members]

theorem pairwise_members (p : Partition n) (i : Fin n) : (p.members i).Pairwise (· < ·) :=
  (List.pairwise_lt_finRange n).sublist List.filter_sublist

end Partition

namespace Candidate

open Unrouted.Partition

variable {n : Nat} {p : Partition n} {a b : Fin n} {c : Candidate n}

/-! ## One candidate for every two classes -/

theorem choosePairs_map {α β : Type} (f : α → β) (xs : List α) :
    choosePairs (xs.map f) = (choosePairs xs).map (Prod.map f f) := by
  induction xs with
  | nil => rfl
  | cons x rest ih =>
    rw [List.map_cons, choosePairs, choosePairs, ih, List.map_append, List.map_map, List.map_map]
    rfl

/-- Of ascending numbers every two are chosen once, the smaller one first. -/
theorem mem_choosePairs_iff {xs : List (Fin n)} (h : xs.Pairwise (· < ·)) :
    (a, b) ∈ choosePairs xs ↔ a ∈ xs ∧ b ∈ xs ∧ a < b := by
  induction xs with
  | nil => simp [choosePairs]
  | cons x rest ih =>
    obtain ⟨hx, hrest⟩ := List.pairwise_cons.1 h
    rw [choosePairs, List.mem_append, ih hrest, List.mem_map]
    constructor
    · intro hab
      rcases hab with ⟨y, hy, hxy⟩ | ⟨ha, hb, hlt⟩
      · obtain ⟨rfl, rfl⟩ := Prod.mk.inj hxy
        exact ⟨List.mem_cons_self, List.mem_cons_of_mem _ hy, hx y hy⟩
      · exact ⟨List.mem_cons_of_mem _ ha, List.mem_cons_of_mem _ hb, hlt⟩
    · intro hab
      obtain ⟨ha, hb, hlt⟩ := hab
      rcases List.mem_cons.1 ha with hax | ha
      · have hbx : b ≠ x := fun hbx => Nat.lt_irrefl _ (hax ▸ hbx ▸ hlt)
        exact .inl ⟨b, List.mem_of_ne_of_mem hbx hb, by rw [hax]⟩
      · have hbx : b ≠ x := fun hbx => Nat.lt_asymm (hx a ha) (hbx ▸ hlt)
        exact .inr ⟨ha, List.mem_of_ne_of_mem hbx hb, hlt⟩

/-- They are chosen in ascending order, by the smaller one first. -/
theorem pairwise_choosePairs {xs : List (Fin n)} (h : xs.Pairwise (· < ·)) :
    (choosePairs xs).Pairwise fun s t => s.1 < t.1 ∨ s.1 = t.1 ∧ s.2 < t.2 := by
  induction xs with
  | nil => exact List.Pairwise.nil
  | cons x rest ih =>
    obtain ⟨hx, hrest⟩ := List.pairwise_cons.1 h
    rw [choosePairs, List.pairwise_append, List.pairwise_map]
    refine ⟨hrest.imp fun hyz => .inr ⟨rfl, hyz⟩, ih hrest, fun s hs t ht => .inl ?_⟩
    obtain ⟨y, -, rfl⟩ := List.mem_map.1 hs
    exact hx t.1 ((mem_choosePairs_iff hrest).1 ht).1

theorem nodup_choosePairs {xs : List (Fin n)} (h : xs.Pairwise (· < ·)) :
    (choosePairs xs).Nodup := by
  refine (pairwise_choosePairs h).imp fun {s t} hst hsame => ?_
  rw [hsame] at hst
  exact hst.elim (Nat.lt_irrefl _) fun h => Nat.lt_irrefl _ h.2

/-- One end of the candidate is in the class of `a` and the other one in that of `b`. -/
def bridges (p : Partition n) (a b : Fin n) (c : Candidate n) : Bool :=
  (p.joined a c.a && p.joined b c.b) || (p.joined a c.b && p.joined b c.a)

theorem bridges_comm (p : Partition n) (a b : Fin n) : bridges p a b = bridges p b a := by
  funext c
  rw [bridges, bridges, Bool.or_comm, Bool.and_comm, Bool.and_comm (p.joined b c.b)]

theorem bridges_iff : bridges p a b c = true ↔
    (p.joined a c.a = true ∧ p.joined b c.b = true) ∨
      (p.joined a c.b = true ∧ p.joined b c.a = true) := by
  rw [bridges, Bool.or_eq_true, Bool.and_eq_true, Bool.and_eq_true]

end Candidate

namespace Plan

open Candidate Unrouted.Partition

variable {n : Nat} {plan : Plan n} {p : Partition n} {a b l m : Fin n} {c : Candidate n}

theorem nearestPairs_eq (plan : Plan n) (p : Partition n) :
    plan.nearestPairs p =
      (choosePairs p.leaders).filterMap fun s =>
        plan.shortest? (p.members s.1) (p.members s.2) := by
  have hcomponents : p.components = p.leaders.map p.members := rfl
  rw [nearestPairs, hcomponents, choosePairs_map, List.filterMap_map]
  rfl

/-- The candidate is between two classes, led by `l` and `m`, and no other one between these is
shorter, or as short and before it. -/
structure Nearest (plan : Plan n) (p : Partition n) (l m : Fin n) (c : Candidate n) :
    Prop where
  straight : c = plan.between c.a c.b
  fst : p.joined l c.a = true
  snd : p.joined m c.b = true
  first : ∀ x y, p.joined l x = true → p.joined m y = true →
    c.weight < plan.distance x y ∨
      c.weight = plan.distance x y ∧ (c.a < x ∨ c.a = x ∧ c.b ≤ y)

theorem nearest_of_shortest? (h : plan.shortest? (p.members l) (p.members m) = some c) :
    plan.Nearest p l m c := by
  obtain ⟨a, ha, b, hb, rfl⟩ := exists_of_shortest? h
  refine ⟨rfl, mem_members.1 ha, mem_members.1 hb, fun x y hx hy => ?_⟩
  have hordered : ((p.members l).flatMap fun a => (p.members m).map (plan.between a)).Pairwise
      fun c d => c.a < d.a ∨ c.a = d.a ∧ c.b < d.b := by
    rw [List.pairwise_flatMap]
    refine ⟨fun a _ => List.pairwise_map.2 ((pairwise_members p m).imp fun h => .inr ⟨rfl, h⟩),
      (pairwise_members p l).imp fun {a a'} haa' c hc d hd => .inl ?_⟩
    obtain ⟨_, -, rfl⟩ := List.mem_map.1 hc
    obtain ⟨_, -, rfl⟩ := List.mem_map.1 hd
    exact haa'
  have hxy : plan.between x y ∈
      (p.members l).flatMap fun a => (p.members m).map (plan.between a) :=
    List.mem_flatMap.2 ⟨x, mem_members.2 hx, List.mem_map_of_mem (mem_members.2 hy)⟩
  rcases (first_of_minOn? hordered h).2 _ hxy with hsame | hlt | ⟨heq, hbefore⟩
  · obtain ⟨rfl, rfl, -⟩ := Candidate.mk.inj hsame
    exact .inr ⟨rfl, .inr ⟨rfl, Fin.le_refl _⟩⟩
  · exact .inl hlt
  · refine .inr ⟨Length.le_antisymm ?_ ?_, hbefore.imp_right fun h => ⟨h.1, Fin.le_of_lt h.2⟩⟩
    · exact Nat.le_of_eq heq
    · exact Nat.le_of_eq heq.symm

theorem mem_nearestPairs : c ∈ plan.nearestPairs p ↔
    ∃ l m, (l ∈ p.leaders ∧ m ∈ p.leaders ∧ l < m) ∧
      plan.shortest? (p.members l) (p.members m) = some c := by
  simp only [nearestPairs_eq, List.mem_filterMap, Prod.exists,
    mem_choosePairs_iff (pairwise_leaders p)]

theorem countP_of_leaders (plan : Plan n) (hl : l ∈ p.leaders) (hm : m ∈ p.leaders)
    (hlm : l < m) (ha : p.joined l a = true) (hb : p.joined m b = true) :
    (plan.nearestPairs p).countP (bridges p a b) = 1 := by
  have hchosen : (l, m) ∈ choosePairs p.leaders :=
    (mem_choosePairs_iff (pairwise_leaders p)).2 ⟨hl, hm, hlm⟩
  have same {i j x y : Fin n} (hi : i ∈ p.leaders) (hj : j ∈ p.leaders)
      (hix : p.joined i x = true) (hyx : p.joined y x = true) (hjy : p.joined j y = true) :
      i = j :=
    eq_of_mem_leaders hi hj
      (joined_trans hix (joined_trans (joined_symm hyx) (joined_symm hjy)))
  have hone : ∀ s ∈ choosePairs p.leaders,
      ((Option.map (bridges p a b)
        (plan.shortest? (p.members s.1) (p.members s.2))).getD false = true ↔
        (s == (l, m)) = true) := by
    intro s hs
    obtain ⟨hl', hm', hlm'⟩ := (mem_choosePairs_iff (pairwise_leaders p)).1 hs
    obtain ⟨c, hc⟩ := exists_shortest? plan (mem_members.2 (joined_self p s.1))
      (mem_members.2 (joined_self p s.2))
    have hnearest := nearest_of_shortest? hc
    rw [hc, Option.map_some, Option.getD_some, beq_iff_eq, bridges_iff]
    constructor
    · intro hbridges
      rcases hbridges with ⟨hac, hbc⟩ | ⟨hac, hbc⟩
      · exact Prod.ext (same hl' hl hnearest.fst hac ha) (same hm' hm hnearest.snd hbc hb)
      · -- The other way round the greater leader would be the smaller one.
        have hfst : s.1 = m := same hl' hm hnearest.fst hbc hb
        have hsnd : s.2 = l := same hm' hl hnearest.snd hac ha
        exact absurd hlm (Nat.lt_asymm (hfst ▸ hsnd ▸ hlm'))
    · intro hs
      rw [hs] at hnearest
      exact .inl ⟨joined_trans (joined_symm ha) hnearest.fst,
        joined_trans (joined_symm hb) hnearest.snd⟩
  rw [nearestPairs_eq, List.countP_filterMap, List.countP_congr hone]
  exact List.count_eq_one_of_mem (nodup_choosePairs (pairwise_leaders p)) hchosen

theorem countP_nearestPairs (plan : Plan n) (hab : p.joined a b = false) :
    (plan.nearestPairs p).countP (bridges p a b) = 1 := by
  obtain ⟨l, hl, hla⟩ := exists_leader p a
  obtain ⟨m, hm, hmb⟩ := exists_leader p b
  rcases lt_trichotomy l m with hlm | hlm | hml
  · exact countP_of_leaders plan hl hm hlm hla hmb
  · subst hlm
    exact absurd (joined_trans (joined_symm hla) hmb) (by simp [hab])
  · rw [bridges_comm]
    exact countP_of_leaders plan hm hl hml hmb hla

/-- What the nearest pairs are: one candidate for every two classes, between nodes of these, and
no pair of nodes of the two classes is shorter, or as short and before it in the order of the
members.  The class of its first end has the smaller least member. -/
structure NearestOfEach (plan : Plan n) (p : Partition n) (near : List (Candidate n)) :
    Prop where
  straight : ∀ c ∈ near, c.weight = plan.distance c.a c.b
  apart : ∀ c ∈ near, p.joined c.a c.b = false
  once : ∀ a b, p.joined a b = false → near.countP (bridges p a b) = 1
  first : ∀ c ∈ near, ∀ x y, p.joined c.a x = true → p.joined c.b y = true →
    c.weight < plan.distance x y ∨
      c.weight = plan.distance x y ∧ (c.a < x ∨ c.a = x ∧ c.b ≤ y)
  directed : ∀ c ∈ near, ∃ l, p.joined c.a l = true ∧ ∀ y, p.joined c.b y = true → l < y

theorem nearestOfEach (plan : Plan n) (p : Partition n) :
    plan.NearestOfEach p (plan.nearestPairs p) := by
  refine ⟨fun c hc => ?_, fun c hc => ?_, fun a b hab => countP_nearestPairs plan hab,
    fun c hc x y hx hy => ?_, fun c hc => ?_⟩
  all_goals
    obtain ⟨l, m, ⟨hl, hm, hlm⟩, hshortest⟩ := mem_nearestPairs.1 hc
    have hnearest := nearest_of_shortest? hshortest
  · exact congrArg weight hnearest.straight
  · by_contra hjoined
    have hsame := joined_trans hnearest.fst
      (joined_trans (Bool.eq_true_of_not_eq_false hjoined) (joined_symm hnearest.snd))
    exact absurd (eq_of_mem_leaders hl hm hsame) (Fin.ne_of_lt hlm)
  · exact hnearest.first x y (joined_trans hnearest.fst hx) (joined_trans hnearest.snd hy)
  · refine ⟨l, joined_symm hnearest.fst, fun y hy => ?_⟩
    exact Fin.lt_of_lt_of_le hlm (le_of_mem_leaders hm (joined_trans hnearest.snd hy))

/-! ## The weights -/

section Weights

open Forest

/-- Between any two nodes of two classes there is a nearest pair no longer than they are
apart. -/
theorem exists_bridge (hsymm : plan.Symmetric) (hab : p.joined a b = false) :
    ∃ c ∈ plan.nearestPairs p, bridges p a b c = true ∧ c.weight ≤ plan.distance a b := by
  have hnearest := plan.nearestOfEach p
  have honce := hnearest.once a b hab
  obtain ⟨c, hc, hbridges⟩ := List.countP_pos_iff.1 (Nat.lt_of_lt_of_eq Nat.one_pos honce.symm)
  refine ⟨c, hc, hbridges, ?_⟩
  have shorter {x y : Fin n} (hx : p.joined x c.a = true) (hy : p.joined y c.b = true) :
      c.weight ≤ plan.distance x y := by
    rcases hnearest.first c hc x y (joined_symm hx) (joined_symm hy) with hlt | ⟨heq, -⟩
    · exact Nat.le_of_lt hlt
    · rw [heq]
      exact Nat.le_refl _
  rcases bridges_iff.1 hbridges with ⟨ha, hb⟩ | ⟨ha, hb⟩
  · exact shorter ha hb
  · rw [hsymm]
    exact shorter hb ha

/-- Nearest pairs join every two points by pairs no longer than the two are apart. -/
theorem joined_upTo_nearestPairs (hsymm : plan.Symmetric) (p : Partition n) (a b : Fin n) :
    (p.mergeAll ((upTo (plan.distance a b) (plan.nearestPairs p)).map pair)).joined a b =
      true := by
  cases hab : p.joined a b with
  | true => exact refines_mergeAll p _ a b hab
  | false =>
    obtain ⟨c, hc, hbridges, hweight⟩ := exists_bridge hsymm hab
    have hends := joined_mergeAll_of_mem p
      (List.mem_map_of_mem (f := pair) (mem_upTo.2 ⟨hc, hweight⟩))
    have hrefines := refines_mergeAll p
      ((upTo (plan.distance a b) (plan.nearestPairs p)).map pair)
    rcases bridges_iff.1 hbridges with ⟨ha, hb⟩ | ⟨ha, hb⟩
    · exact joined_trans (hrefines _ _ ha) (joined_trans hends (joined_symm (hrefines _ _ hb)))
    · exact joined_trans (hrefines _ _ ha)
        (joined_trans (joined_symm hends) (joined_symm (hrefines _ _ hb)))

/-- So does every pair. -/
theorem joined_upTo_everyPair (hsymm : plan.Symmetric) (p : Partition n) (a b : Fin n) :
    (p.mergeAll ((upTo (plan.distance a b) (plan.everyPair p)).map pair)).joined a b = true := by
  have ascending {x y : Fin n} (hxy : x < y) :
      (p.mergeAll ((upTo (plan.distance x y) (plan.everyPair p)).map pair)).joined x y =
        true := by
    cases hjoined : p.joined x y with
    | true => exact refines_mergeAll p _ _ _ hjoined
    | false =>
      have hmem : plan.between x y ∈ plan.everyPair p := by
        refine List.mem_flatMap.2 ⟨x, List.mem_finRange x, List.mem_map_of_mem ?_⟩
        simp [hxy, hjoined]
      exact joined_mergeAll_of_mem p
        (List.mem_map_of_mem (f := pair) (mem_upTo.2 ⟨hmem, Nat.le_refl _⟩))
  rcases lt_trichotomy a b with hab | rfl | hba
  · exact ascending hab
  · exact joined_self _ a
  · rw [hsymm]
    exact joined_symm (ascending hba)

theorem weight_of_mem_everyPair (h : c ∈ plan.everyPair p) :
    c.weight = plan.distance c.a c.b := by
  obtain ⟨a, -, ha⟩ := List.mem_flatMap.1 h
  obtain ⟨b, -, rfl⟩ := List.mem_map.1 ha
  rfl

theorem weights_greedy_nearestPairs (hsymm : plan.Symmetric) (hp : p.Counted) :
    weights (greedy p (plan.nearestPairs p)).2 = weights (greedy p (plan.everyPair p)).2 := by
  refine weights_greedy_eq hp (fun c hc => ?_) fun c hc => ?_
  · rw [(plan.nearestOfEach p).straight c hc]
    exact joined_upTo_everyPair hsymm p c.a c.b
  · rw [weight_of_mem_everyPair hc]
    exact joined_upTo_nearestPairs hsymm p c.a c.b

/-- When the points span no area, both strategies are one scan. -/
theorem weights_spanning_of_flat (hsymm : plan.Symmetric) (hflat : plan.sides = none)
    (pairs : List (Fin n × Fin n)) :
    weights (plan.spanning .mesh pairs) = weights (plan.spanning .everyPair pairs) := by
  let p := (discrete n).mergeAll pairs
  have hp : p.Counted := (counted_discrete n).mergeAll pairs
  have hnearest (a b : Fin n) : (p.mergeAll ((plan.nearestPairs p).map pair)).joined a b = true :=
    joined_of_upTo (joined_upTo_nearestPairs hsymm p a b)
  have hevery (a b : Fin n) : (p.mergeAll ((plan.everyPair p).map pair)).joined a b = true :=
    joined_of_upTo (joined_upTo_everyPair hsymm p a b)
  have hmesh : plan.propose .mesh p = plan.nearestPairs p := by
    rw [propose, hflat, ofSides]
  show weights (plan.complete p (plan.propose .mesh p)) =
    weights (plan.complete p (plan.everyPair p))
  rw [hmesh, complete_plan_eq_greedy plan hp hnearest, complete_plan_eq_greedy plan hp hevery]
  exact weights_greedy_nearestPairs hsymm hp

end Weights

theorem sides_ofPoints_of_flat {points : Vector Point n}
    (h : Mesh.spansArea points.toList = false) : (ofPoints points).sides = none := by
  show Mesh.edges? points.toList = none
  unfold Mesh.edges?
  split
  · rfl
  · rw [if_neg (by simp [h])]

end Plan

namespace Forest

open Candidate Unrouted.Partition

variable {n : Nat}

/-- The nearest pairs of the classes are as good as every pair: the greedy forest over them has
the same weights.  So the strategies agree in weight when the points span no area, as they do on
a line.  All of it but the line holds of any lengths in the place of the points, as long as they
are the same both ways. -/
theorem weights_nearestPairs (points : Vector Point n) (pairs : List (Fin n × Fin n)) :
    let p := (discrete n).mergeAll pairs
    (Plan.ofPoints points).NearestOfEach p (nearestPairs points p) ∧
      weights (greedy p (nearestPairs points p)).2 = weights (greedy p (everyPair points p)).2 ∧
      (Collinear points.toList → Mesh.spansArea points.toList = false) ∧
      (Mesh.spansArea points.toList = false →
        weights (spanning .mesh points pairs) = weights (spanning .everyPair points pairs)) ∧
      ∀ plan : Plan n, plan.Symmetric →
        plan.NearestOfEach p (plan.nearestPairs p) ∧
          weights (greedy p (plan.nearestPairs p)).2 = weights (greedy p (plan.everyPair p)).2 ∧
          (plan.sides = none →
            weights (plan.spanning .mesh pairs) = weights (plan.spanning .everyPair pairs)) := by
  intro p
  have hp : p.Counted := (counted_discrete n).mergeAll pairs
  have hsymm : (Plan.ofPoints points).Symmetric := Plan.symmetric_ofPoints points
  rw [← Plan.nearestPairs_ofPoints, ← Plan.everyPair_ofPoints, ← Plan.spanning_ofPoints,
    ← Plan.spanning_ofPoints]
  refine ⟨(Plan.ofPoints points).nearestOfEach p, Plan.weights_greedy_nearestPairs hsymm hp,
    Mesh.spansArea_eq_false, fun hflat => ?_, fun plan hsymm => ?_⟩
  · exact Plan.weights_spanning_of_flat hsymm (Plan.sides_ofPoints_of_flat hflat) pairs
  · exact ⟨plan.nearestOfEach p, Plan.weights_greedy_nearestPairs hsymm hp,
      fun hflat => Plan.weights_spanning_of_flat hsymm hflat pairs⟩

/-- Four points on a long slanted line, two of them at one place. -/
def linePoints : Vector Point 4 :=
  #v[{ x := -2000000000, y := -1 }, { x := 0, y := 0 }, { x := 2000000000, y := 1 },
    { x := 0, y := 0 }]

theorem weights_nearestPairs_linePoints :
    Collinear linePoints.toList ∧
      weights (spanning .mesh linePoints [(0, 1)]) =
        weights (spanning .everyPair linePoints [(0, 1)]) := by
  have hline : Collinear linePoints.toList := by decide
  obtain ⟨-, -, hflat, hweights, -⟩ := weights_nearestPairs linePoints [(0, 1)]
  exact ⟨hline, hweights (hflat hline)⟩

end Forest
end Unrouted
