/-!
The stable sort by a size, and the first of the least.  Where a list is in some order, its
entries of one size stay in that order when it is sorted, so the sorted list starts with the
entry that one pass for the minimum keeps.  An ascending list is told by its entries of each
size.
-/

namespace Unrouted

variable {α : Type} {size : α → Nat} {before : α → α → Prop} {xs : List α} {x : α}

theorem size_le_trans (size : α → Nat) (x y z : α) (hxy : decide (size x ≤ size y) = true)
    (hyz : decide (size y ≤ size z) = true) : decide (size x ≤ size z) = true := by
  rw [decide_eq_true_eq] at *
  omega

theorem size_le_total (size : α → Nat) (x y : α) :
    (decide (size x ≤ size y) || decide (size y ≤ size x)) = true := by
  rw [Bool.or_eq_true, decide_eq_true_eq, decide_eq_true_eq]
  omega

/-- The smaller ones come first, and those of one size in the order of the list. -/
theorem pairwise_sorted (size : α → Nat) (h : xs.Pairwise before) :
    (xs.mergeSort fun x y => decide (size x ≤ size y)).Pairwise fun x y =>
      size x < size y ∨ size x = size y ∧ before x y := by
  induction xs with
  | nil => simp
  | cons x rest ih =>
    obtain ⟨hx, hrest⟩ := List.pairwise_cons.1 h
    -- The head stands behind the smaller ones, which keep their order, as do the others.
    obtain ⟨front, back, hsorted, hparts, hfront⟩ :=
      List.mergeSort_cons (size_le_trans size) (size_le_total size) x rest
    have hordered := ih hrest
    rw [hparts] at hordered
    obtain ⟨hfirst, hlast, hacross⟩ := List.pairwise_append.1 hordered
    have hascending := List.pairwise_mergeSort (size_le_trans size) (size_le_total size) (x :: rest)
    rw [hsorted] at hascending ⊢
    refine List.pairwise_append.2 ⟨hfirst, List.pairwise_cons.2 ⟨fun y hy => ?_, hlast⟩, ?_⟩
    · have hle := List.rel_of_pairwise_cons (List.pairwise_append.1 hascending).2.1 hy
      rw [decide_eq_true_eq] at hle
      have hmem : y ∈ rest := by
        have hpart := List.mem_append_right front hy
        rw [← hparts] at hpart
        exact List.mem_mergeSort.1 hpart
      rcases Nat.lt_or_eq_of_le hle with hlt | heq
      · exact .inl hlt
      · exact .inr ⟨heq, hx y hmem⟩
    · intro y hy z hz
      rcases List.mem_cons.1 hz with rfl | hz
      · have hlt := hfront y hy
        simp only [Bool.not_eq_eq_eq_not, Bool.not_true, decide_eq_false_iff_not] at hlt
        exact .inl (by omega)
      · exact hacross y hy z hz

/-- One pass for the minimum finds what the sorted list starts with. -/
theorem minOn?_eq_head? (size : α → Nat) (xs : List α) :
    xs.minOn? size = (xs.mergeSort fun x y => decide (size x ≤ size y)).head? := by
  induction xs with
  | nil => simp
  | cons x rest ih =>
    obtain ⟨front, back, hsorted, hparts, hfront⟩ :=
      List.mergeSort_cons (size_le_trans size) (size_le_total size) x rest
    have hascending := List.pairwise_mergeSort (size_le_trans size) (size_le_total size) (x :: rest)
    rw [List.minOn?_cons, ih, hparts, hsorted]
    rw [hsorted] at hascending
    cases front with
    | nil =>
      cases back with
      | nil => rfl
      | cons y back =>
        have hle := List.rel_of_pairwise_cons hascending List.mem_cons_self
        rw [decide_eq_true_eq] at hle
        show some (minOn size x y) = some x
        rw [minOn, if_pos hle]
    | cons y front =>
      have hlt := hfront y List.mem_cons_self
      simp only [Bool.not_eq_eq_eq_not, Bool.not_true, decide_eq_false_iff_not] at hlt
      show some (minOn size x y) = some y
      rw [minOn, if_neg hlt]

/-- The first of the cheapest: the others cost more, or as much and come after it. -/
theorem first_of_minOn? {cost : α → Nat} (hordered : xs.Pairwise before)
    (h : xs.minOn? cost = some x) :
    x ∈ xs ∧ ∀ y ∈ xs, y = x ∨ cost x < cost y ∨ cost x = cost y ∧ before x y := by
  rw [minOn?_eq_head?, List.head?_eq_some_iff] at h
  obtain ⟨rest, hsorted⟩ := h
  have hfirst := pairwise_sorted cost hordered
  have hmem (y : α) : y ∈ xs ↔ y ∈ x :: rest := by rw [← hsorted, List.mem_mergeSort]
  rw [hsorted, List.pairwise_cons] at hfirst
  refine ⟨(hmem x).2 List.mem_cons_self, fun y hy => ?_⟩
  exact (List.mem_cons.1 ((hmem y).1 hy)).imp_right (hfirst.1 y)

/-- Two ascending lists are the same when they have the same entries of every size in the same
order. -/
theorem eq_of_filter_size (size : α → Nat) {ys : List α}
    (hxs : xs.Pairwise fun x y => size x ≤ size y) (hys : ys.Pairwise fun x y => size x ≤ size y)
    (h : ∀ k, xs.filter (fun x => decide (size x = k)) = ys.filter fun y => decide (size y = k)) :
    xs = ys := by
  have hmem {xs ys : List α} (z : α)
      (h : xs.filter (fun x => decide (size x = size z)) =
        ys.filter fun y => decide (size y = size z)) : z ∈ xs ↔ z ∈ ys := by
    have hz := congrArg (z ∈ ·) h
    simpa using hz
  induction xs generalizing ys with
  | nil =>
    cases ys with
    | nil => rfl
    | cons y ys => exact absurd ((hmem y (h _)).2 List.mem_cons_self) List.not_mem_nil
  | cons x xs ih =>
    cases ys with
    | nil => exact absurd ((hmem x (h _)).1 List.mem_cons_self) List.not_mem_nil
    | cons y ys =>
      obtain ⟨hx, hxs⟩ := List.pairwise_cons.1 hxs
      obtain ⟨hy, hys⟩ := List.pairwise_cons.1 hys
      -- Each head is least in its list and stands in the other one, so both have one size.
      have hxy : size x ≤ size y := by
        rcases List.mem_cons.1 ((hmem y (h _)).2 List.mem_cons_self) with hyx | hyx
        · exact Nat.le_of_eq (congrArg size hyx.symm)
        · exact hx y hyx
      have hyx : size y ≤ size x := by
        rcases List.mem_cons.1 ((hmem x (h _)).1 List.mem_cons_self) with hxy | hxy
        · exact Nat.le_of_eq (congrArg size hxy.symm)
        · exact hy x hxy
      have hsize : size y = size x := Nat.le_antisymm hyx hxy
      have hhead : x = y := by
        have hfirst := h (size x)
        rw [List.filter_cons_of_pos (by simp), List.filter_cons_of_pos (by simp [hsize])] at hfirst
        exact (List.cons.inj hfirst).1
      refine List.cons_eq_cons.2 ⟨hhead, ih hxs hys fun k => ?_⟩
      have hk := h k
      rw [← hhead] at hk
      by_cases hsame : size x = k
      · rw [List.filter_cons_of_pos (by simp [hsame]),
          List.filter_cons_of_pos (by simp [hsame])] at hk
        exact (List.cons.inj hk).2
      · rwa [List.filter_cons_of_neg (by simp [hsame]),
          List.filter_cons_of_neg (by simp [hsame])] at hk

end Unrouted
