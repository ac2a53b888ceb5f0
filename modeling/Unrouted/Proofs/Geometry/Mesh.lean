import Mathlib.Data.List.Induction
import Mathlib.Data.List.Nodup
import Unrouted.Geometry.Mesh
import Unrouted.Table

/-!
The shape of a mesh, which no rounding can spoil.  The circles only choose the triangles that
a new vertex removes.  Whatever they answer, a triangle has three different corners among the
vertices that have come and the corners of the first triangle, so that each vertex and each
side that is looked up is there, and the sides of the mesh join two points in ascending
order.
-/

namespace Unrouted

namespace Triangle

variable {t : Triangle} {s : Nat × Nat} {n m : Nat}

def corners (t : Triangle) : List Nat := [t.a, t.b, t.c]

theorem corners_through (vertex : Nat → Vertex) (i j k : Nat) :
    (through vertex i j k).corners = [i, j, k] := by
  unfold through
  dsimp only
  split <;> rfl

/-- Three different corners, each of them one of the first `m` vertices or one of the three
after the first `n`. -/
structure Among (t : Triangle) (n m : Nat) : Prop where
  nodup : t.corners.Nodup
  known : ∀ i ∈ t.corners, i < m ∨ n ≤ i ∧ i < n + 3

theorem mem_corners_of_mem_sides (hs : s ∈ t.sides) : s.1 ∈ t.corners ∧ s.2 ∈ t.corners := by
  simp only [sides, List.mem_cons, List.not_mem_nil, or_false] at hs
  rcases hs with rfl | rfl | rfl <;> simp [corners]

namespace Among

theorem ends_ne (h : t.Among n m) (hs : s ∈ t.sides) : s.1 ≠ s.2 := by
  have hnodup := h.nodup
  simp only [corners, List.nodup_cons, List.mem_cons, List.not_mem_nil, or_false, not_or] at hnodup
  simp only [sides, List.mem_cons, List.not_mem_nil, or_false] at hs
  rcases hs with rfl | rfl | rfl
  · exact hnodup.1.1
  · exact hnodup.2.1
  · exact Ne.symm hnodup.1.2

theorem lt (h : t.Among n m) (hm : m ≤ n) {i : Nat} (hi : i ∈ t.corners) : i < n + 3 := by
  have hknown := h.known i hi
  omega

theorem succ (h : t.Among n m) : t.Among n (m + 1) where
  nodup := h.nodup
  known i hi := (h.known i hi).imp_left Nat.lt_succ_of_lt

/-- The corners of the first triangle are no points, so a point that has not come yet is none
of the corners there are. -/
theorem through (h : t.Among n m) (hs : s ∈ t.sides) (hm : m < n) (vertex : Nat → Vertex) :
    (Triangle.through vertex s.1 s.2 m).Among n (m + 1) := by
  obtain ⟨hfst, hsnd⟩ := mem_corners_of_mem_sides hs
  have hnew {i : Nat} (hi : i ∈ t.corners) : i ≠ m := by
    have hknown := h.known i hi
    omega
  constructor
  · rw [corners_through]
    simp [h.ends_ne hs, hnew hfst, hnew hsnd]
  · rw [corners_through]
    intro i hi
    simp only [List.mem_cons, List.not_mem_nil, or_false] at hi
    rcases hi with rfl | rfl | rfl
    · exact h.succ.known _ hfst
    · exact h.succ.known _ hsnd
    · exact .inl (Nat.lt_succ_self _)

end Among
end Triangle

namespace Mesh

variable {size n m : Nat} {mesh : List Triangle} {inside : Nat → Triangle → Bool}
  {vertices : Vector Vertex size} {i : Nat}

/-! ## Any circles -/

/-- An insertion where `inside` answers in place of the circles: whether vertex `i` removes a
triangle. -/
def insertBy (inside : Nat → Triangle → Bool) (vertex : Nat → Vertex) (mesh : List Triangle)
    (i : Nat) : List Triangle :=
  (mesh.filter fun t => !inside i t) ++
    (rim (mesh.filter (inside i))).map fun s => Triangle.through vertex s.1 s.2 i

/-- The mesh after the first `m` of `n` vertices. -/
def growBy (inside : Nat → Triangle → Bool) (vertex : Nat → Vertex) (n m : Nat) :
    List Triangle :=
  (List.range m).foldl (insertBy inside vertex) [Triangle.through vertex n (n + 1) (n + 2)]

theorem grow_eq (vertex : Nat → Vertex) (n : Nat) :
    grow vertex n = growBy (fun i t => t.circleHolds (vertex i)) vertex n n := rfl

theorem growBy_succ (inside : Nat → Triangle → Bool) (vertex : Nat → Vertex) (n m : Nat) :
    growBy inside vertex n (m + 1) = insertBy inside vertex (growBy inside vertex n m) m := by
  rw [growBy, List.range_succ, List.foldl_append]
  rfl

theorem exists_of_mem_rim {removed : List Triangle} {s : Nat × Nat} (hs : s ∈ rim removed) :
    ∃ t ∈ removed, s ∈ t.sides :=
  List.mem_flatMap.1 (List.mem_filter.1 hs).1

theorem among_insertBy (hmesh : ∀ t ∈ mesh, t.Among n i) (hi : i < n)
    (inside : Nat → Triangle → Bool) (vertex : Nat → Vertex) :
    ∀ t ∈ insertBy inside vertex mesh i, t.Among n (i + 1) := by
  intro t ht
  rcases List.mem_append.1 ht with hkept | hnew
  · exact (hmesh t (List.mem_filter.1 hkept).1).succ
  · obtain ⟨s, hs, rfl⟩ := List.mem_map.1 hnew
    obtain ⟨removed, hremoved, hside⟩ := exists_of_mem_rim hs
    exact (hmesh removed (List.mem_filter.1 hremoved).1).through hside hi vertex

theorem among_growBy (inside : Nat → Triangle → Bool) (vertex : Nat → Vertex) (hm : m ≤ n) :
    ∀ t ∈ growBy inside vertex n m, t.Among n m := by
  induction m with
  | zero =>
    intro t ht
    obtain rfl := List.mem_singleton.1 ht
    constructor
    · simp [Triangle.corners_through]
    · intro i hi
      simp only [Triangle.corners_through, List.mem_cons, List.not_mem_nil, or_false] at hi
      omega
  | succ m ih =>
    rw [growBy_succ]
    exact among_insertBy (ih (Nat.le_of_lt hm)) hm inside vertex

/-! ## Look-ups

An insertion looks up its vertices, and it counts the sides of the removed triangles once and
looks the counts up side by side.  Here it stops at the first look-up that finds nothing. -/

/-- What may not be found: a vertex, or the count of a side. -/
inductive Fault where
  | vertex (i : Nat)
  | side (s : Nat × Nat)

def vertexOf (vertices : Vector Vertex size) (i : Nat) : Vertex := vertices[i]?.getD ⟨0.0, 0.0⟩

def tryVertex (vertices : Vector Vertex size) (i : Nat) : Except Fault Vertex :=
  match vertices[i]? with
  | none => .error (.vertex i)
  | some v => .ok v

def tryThrough (vertices : Vector Vertex size) (i j k : Nat) : Except Fault Triangle := do
  let _ ← tryVertex vertices i
  let _ ← tryVertex vertices j
  let _ ← tryVertex vertices k
  return Triangle.through (vertexOf vertices) i j k

/-- How often each side is among some sides, in either direction. -/
def tally (sides : List (Nat × Nat)) : Table (Nat × Nat) Nat :=
  sides.foldl
    (fun counts s =>
      counts.insert (undirected s) ((counts.get? (undirected s)).getD 0 + 1)) .empty

/-- Joins a vertex to a side that is counted once. -/
def tryJoin (vertices : Vector Vertex size) (counts : Table (Nat × Nat) Nat) (i : Nat)
    (mesh : List Triangle) (s : Nat × Nat) : Except Fault (List Triangle) :=
  match counts.get? (undirected s) with
  | none => .error (.side s)
  | some count =>
    if count = 1 then do
      let t ← tryThrough vertices s.1 s.2 i
      return mesh ++ [t]
    else .ok mesh

def tryInsert (inside : Nat → Triangle → Bool) (vertices : Vector Vertex size)
    (mesh : List Triangle) (i : Nat) : Except Fault (List Triangle) := do
  let _ ← tryVertex vertices i
  let sides := (mesh.filter (inside i)).flatMap Triangle.sides
  sides.foldlM (tryJoin vertices (tally sides) i) (mesh.filter fun t => !inside i t)

def tryGrow (inside : Nat → Triangle → Bool) (vertices : Vector Vertex (n + 3)) (m : Nat) :
    Except Fault (List Triangle) := do
  let first ← tryThrough vertices n (n + 1) (n + 2)
  (List.range m).foldlM (tryInsert inside vertices) [first]

theorem tryVertex_eq (hi : i < size) : tryVertex vertices i = .ok (vertexOf vertices i) := by
  simp [tryVertex, vertexOf, hi]

theorem tryThrough_eq {i j k : Nat} (hi : i < size) (hj : j < size) (hk : k < size) :
    tryThrough vertices i j k = .ok (Triangle.through (vertexOf vertices) i j k) := by
  rw [tryThrough, tryVertex_eq hi, tryVertex_eq hj, tryVertex_eq hk]
  rfl

theorem get?_tally (sides : List (Nat × Nat)) (k : Nat × Nat) :
    (tally sides).get? k =
      let count := sides.countP fun s => undirected s == k
      if count = 0 then none else some count := by
  induction sides using List.reverseRecOn with
  | nil => rfl
  | append_singleton sides s ih =>
    have hnext : tally (sides ++ [s]) = (tally sides).insert (undirected s)
        (((tally sides).get? (undirected s)).getD 0 + 1) := by
      rw [tally, List.foldl_append]
      rfl
    dsimp only at ih ⊢
    rw [hnext, Table.get?_insert, List.countP_append, List.countP_singleton]
    by_cases hk : k = undirected s
    · subst hk
      have hbefore : ((tally sides).get? (undirected s)).getD 0 =
          sides.countP fun t => undirected t == undirected s := by
        rw [ih]
        split
        · exact Eq.symm ‹_›
        · rfl
      simp [hbefore]
    · have hother : (undirected s == k) = false := beq_false_of_ne (Ne.symm hk)
      rw [if_neg hk, hother]
      exact ih

theorem get?_tally_of_mem {sides : List (Nat × Nat)} {s : Nat × Nat} (hs : s ∈ sides) :
    (tally sides).get? (undirected s) =
      some (sides.countP fun t => undirected t == undirected s) := by
  have hpos : 0 < sides.countP fun t => undirected t == undirected s :=
    List.countP_pos_iff.2 ⟨s, hs, beq_self_eq_true _⟩
  rw [get?_tally]
  exact if_neg (Nat.ne_of_gt hpos)

/-- The sides that are counted once are joined to the vertex, in their order. -/
theorem foldlM_tryJoin {counts : Table (Nat × Nat) Nat} {count : Nat × Nat → Nat}
    {sides : List (Nat × Nat)}
    (hcounts : ∀ s ∈ sides, counts.get? (undirected s) = some (count s))
    (hends : ∀ s ∈ sides, s.1 < size ∧ s.2 < size) (hi : i < size) (kept : List Triangle) :
    sides.foldlM (tryJoin vertices counts i) kept =
      .ok (kept ++ (sides.filter fun s => count s == 1).map fun s =>
        Triangle.through (vertexOf vertices) s.1 s.2 i) := by
  induction sides generalizing kept with
  | nil => simp [pure, Except.pure]
  | cons s rest ih =>
    have hrest := ih (fun t ht => hcounts t (List.mem_cons_of_mem s ht))
      (fun t ht => hends t (List.mem_cons_of_mem s ht))
    have hcount := hcounts s List.mem_cons_self
    obtain ⟨hfst, hsnd⟩ := hends s List.mem_cons_self
    rw [List.foldlM_cons, tryJoin, hcount]
    by_cases honce : count s = 1
    · rw [List.filter_cons_of_pos (by simp [honce]), List.map_cons, List.append_cons, ← hrest]
      simp only [honce, if_true, tryThrough_eq hfst hsnd hi]
      rfl
    · rw [List.filter_cons_of_neg (by simp [honce]), ← hrest]
      simp only [honce, if_false]
      rfl

/-- No look-up of an insertion fails as long as the triangles have corners that are there. -/
theorem tryInsert_eq {vertices : Vector Vertex (n + 3)} (hmesh : ∀ t ∈ mesh, t.Among n i)
    (hi : i < n) :
    tryInsert inside vertices mesh i = .ok (insertBy inside (vertexOf vertices) mesh i) := by
  have hsize : i < n + 3 := by omega
  have hends : ∀ s ∈ (mesh.filter (inside i)).flatMap Triangle.sides,
      s.1 < n + 3 ∧ s.2 < n + 3 := by
    intro s hs
    obtain ⟨t, ht, hside⟩ := List.mem_flatMap.1 hs
    have hamong := hmesh t (List.mem_filter.1 ht).1
    have hcorners := Triangle.mem_corners_of_mem_sides hside
    exact ⟨hamong.lt (Nat.le_of_lt hi) hcorners.1, hamong.lt (Nat.le_of_lt hi) hcorners.2⟩
  rw [tryInsert, tryVertex_eq hsize]
  -- The sides that are looked up are the very ones that were counted.
  exact foldlM_tryJoin (fun s hs => get?_tally_of_mem hs) hends hsize _

theorem tryGrow_eq {vertices : Vector Vertex (n + 3)} (hm : m ≤ n) :
    tryGrow inside vertices m = .ok (growBy inside (vertexOf vertices) n m) := by
  have hfirst : tryThrough vertices n (n + 1) (n + 2) =
      .ok (Triangle.through (vertexOf vertices) n (n + 1) (n + 2)) :=
    tryThrough_eq (by omega) (by omega) (by omega)
  have hgrown : (List.range m).foldlM (tryInsert inside vertices)
      [Triangle.through (vertexOf vertices) n (n + 1) (n + 2)] =
      .ok (growBy inside (vertexOf vertices) n m) := by
    induction m with
    | zero => rfl
    | succ m ih =>
      have hbefore : m ≤ n := Nat.le_of_lt hm
      rw [List.range_succ, List.foldlM_append, ih hbefore, growBy_succ]
      show [m].foldlM (tryInsert inside vertices) (growBy inside (vertexOf vertices) n m) = _
      rw [List.foldlM_cons, tryInsert_eq (among_growBy inside (vertexOf vertices) hbefore) hm]
      rfl
  rw [tryGrow, hfirst]
  exact hgrown

/-! ## Sides -/

theorem nodup_eraseDups {α : Type} [BEq α] [LawfulBEq α] (xs : List α) : xs.eraseDups.Nodup := by
  match xs with
  | [] => exact List.nodup_nil
  | x :: rest =>
    rw [List.eraseDups_cons, List.nodup_cons]
    exact ⟨by simp, nodup_eraseDups _⟩
termination_by xs.length
decreasing_by exact Nat.lt_succ_of_le (List.length_filter_le _ _)

theorem undirected_eq_iff {s : Nat × Nat} {a b : Nat} (hs : s.1 ≠ s.2) :
    undirected s = (a, b) ↔ a < b ∧ (s = (a, b) ∨ s = (b, a)) := by
  obtain ⟨x, y⟩ := s
  simp only [undirected, Prod.mk.injEq] at hs ⊢
  omega

/-- What is listed of a mesh: each side between two of the first `n` vertices, once and in
ascending order. -/
structure ListsSides (mesh : List Triangle) (n : Nat) (listed : List (Nat × Nat)) : Prop where
  nodup : listed.Nodup
  mem : ∀ a b, (a, b) ∈ listed ↔
    a < b ∧ b < n ∧ ∃ t ∈ mesh, (a, b) ∈ t.sides ∨ (b, a) ∈ t.sides

theorem listsSides_innerSides (hmesh : ∀ t ∈ mesh, t.Among n m) :
    ListsSides mesh n (innerSides mesh n) where
  nodup := nodup_eraseDups _
  mem a b := by
    simp only [innerSides, List.mem_eraseDups, List.mem_map, List.mem_filter, List.mem_flatMap,
      Bool.and_eq_true, decide_eq_true_eq]
    constructor
    · rintro ⟨s, ⟨⟨t, ht, hs⟩, hfst, hsnd⟩, heq⟩
      obtain ⟨hab, hends⟩ := (undirected_eq_iff ((hmesh t ht).ends_ne hs)).1 heq
      rcases hends with rfl | rfl
      · exact ⟨hab, hsnd, t, ht, .inl hs⟩
      · exact ⟨hab, hfst, t, ht, .inr hs⟩
    · rintro ⟨hab, hb, t, ht, hs⟩
      have ha : a < n := Nat.lt_trans hab hb
      rcases hs with hs | hs
      · have hab' : undirected (a, b) = (a, b) :=
          (undirected_eq_iff (Nat.ne_of_lt hab)).2 ⟨hab, .inl rfl⟩
        exact ⟨(a, b), ⟨⟨t, ht, hs⟩, ha, hb⟩, hab'⟩
      · have hba : undirected (b, a) = (a, b) :=
          (undirected_eq_iff (Nat.ne_of_gt hab)).2 ⟨hab, .inr rfl⟩
        exact ⟨(b, a), ⟨⟨t, ht, hs⟩, hb, ha⟩, hba⟩

/-! ## The mesh of some points -/

/-- The vertices of a mesh over some points. -/
def placed (points : List Point) (box : Box) : Vector Vertex (points.length + 3) :=
  ⟨Mesh.vertices points box, by simp [Mesh.vertices]⟩

/-- The answers of the circles themselves. -/
def circles (vertices : Vector Vertex size) (i : Nat) (t : Triangle) : Bool :=
  t.circleHolds (vertexOf vertices i)

theorem edges?_eq {points : List Point} {box : Box} (hbox : Box.ofPoints? points = some box) :
    edges? points =
      if spansArea points then
        some (innerSides (growBy (circles (placed points box)) (vertexOf (placed points box))
          points.length points.length) points.length)
      else none := by
  have hvertex : (fun i => (Mesh.vertices points box).getD i ⟨0.0, 0.0⟩) =
      vertexOf (placed points box) := by
    funext i
    simp [vertexOf, placed]
  simp only [edges?, hbox, hvertex, grow_eq]
  rfl

theorem edges?_eq_none_iff (points : List Point) :
    edges? points = none ↔ spansArea points = false := by
  cases hbox : Box.ofPoints? points with
  | none =>
    obtain rfl := Box.ofPoints?_eq_none_iff.1 hbox
    exact ⟨fun _ => rfl, fun _ => rfl⟩
  | some box =>
    rw [edges?_eq hbox]
    cases spansArea points <;> simp

/-- On any vertices, and whatever is answered in place of the circles, no look-up fails, the
triangles have three different corners that have come, and each side between two points is
listed once.  The edges of a mesh are listed so, with the answers of the circles. -/
theorem shaped_growBy :
    (∀ (n : Nat) (vertices : Vector Vertex (n + 3)) (inside : Nat → Triangle → Bool),
      let mesh := growBy inside (vertexOf vertices) n
      (∀ m ≤ n, tryGrow inside vertices m = .ok (mesh m) ∧ ∀ t ∈ mesh m, t.Among n m) ∧
        ListsSides (mesh n) n (innerSides (mesh n) n)) ∧
      ∀ points, (edges? points = none ↔ spansArea points = false) ∧
        ∀ box, Box.ofPoints? points = some box → spansArea points = true →
          let vertices := placed points box
          let mesh := growBy (circles vertices) (vertexOf vertices) points.length points.length
          edges? points = some (innerSides mesh points.length) := by
  refine ⟨fun n vertices inside => ⟨fun m hm => ?_, ?_⟩, fun points =>
    ⟨edges?_eq_none_iff points, fun box hbox harea => ?_⟩⟩
  · exact ⟨tryGrow_eq hm, among_growBy inside (vertexOf vertices) hm⟩
  · exact listsSides_innerSides (among_growBy inside (vertexOf vertices) (Nat.le_refl n))
  · exact (edges?_eq hbox).trans (if_pos harea)

/-- Two points in one place, and circles that are said to hold every point. -/
theorem shaped_growBy_twoInOnePlace :
    let points : List Point := [⟨0, 0⟩, ⟨0, 0⟩, ⟨7, 0⟩, ⟨0, 7⟩]
    let box : Box := { low := ⟨0, 0⟩, high := ⟨7, 7⟩ }
    let vertices := placed points box
    let mesh := growBy (fun _ _ => true) (vertexOf vertices) 4
    (2 ≤ 4 ∧ Box.ofPoints? points = some box ∧ spansArea points = true) ∧
      (tryGrow (fun _ _ => true) vertices 2 = .ok (mesh 2) ∧ ∀ t ∈ mesh 2, t.Among 4 2) ∧
      edges? points =
        some (innerSides (growBy (circles vertices) (vertexOf vertices) 4 4) 4) := by
  intro points box vertices mesh
  have hbox : Box.ofPoints? points = some box := by decide
  have harea : spansArea points = true := by decide +kernel
  obtain ⟨hany, hedges⟩ := shaped_growBy
  exact ⟨⟨by decide, hbox, harea⟩, (hany 4 vertices fun _ _ => true).1 2 (by decide),
    (hedges points).2 box hbox harea⟩

end Mesh
end Unrouted
