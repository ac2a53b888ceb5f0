import Mathlib.Data.List.Rotate
import Mathlib.Tactic.Tauto
import Unrouted.Net.Polygon

/-!
The ring that an outline goes round.  Where the ring is entered and how often the outline
lingers at a vertex has no part in which points it holds: the edges that are not a mere point
are the same ones in another order.
-/

namespace Unrouted

namespace Edge

def IsPoint (e : Edge) : Prop := e.source = e.target

instance (e : Edge) : Decidable e.IsPoint := inferInstanceAs (Decidable (e.source = e.target))

theorem IsPoint.straddles {e : Edge} (h : e.IsPoint) (y : Int32) : e.straddles y = false := by
  rw [Edge.straddles, show e.source = e.target from h, bne_self_eq_false]

theorem IsPoint.meetsRay {e : Edge} (h : e.IsPoint) (p : Point) : e.meetsRay p = false := by
  rw [Edge.meetsRay, h.straddles, Bool.false_and]

end Edge

namespace Outline

/-! ## Paths -/

/-- The edges of an open line of points, from `a` on. -/
def path (a : Point) : List Point → List Edge
  | [] => []
  | b :: rest => ⟨a, b⟩ :: path b rest

theorem zipWith_eq_path (a : Point) (l : List Point) :
    List.zipWith Edge.mk (a :: l) l = path a l := by
  induction l generalizing a with
  | nil => rfl
  | cons b rest ih => rw [List.zipWith_cons_cons, ih, path]

/-- The outline is a path from its own last vertex. -/
theorem edges_eq_path (outline : Outline) (a : Point) :
    outline.edges = path (outline.getLast?.getD a) outline := by
  cases hlast : outline.getLast? with
  | none =>
    rw [List.getLast?_eq_none_iff.1 hlast]
    rfl
  | some last =>
    simp only [edges, hlast, Option.getD_some]
    exact zipWith_eq_path last outline

theorem path_append (a : Point) (l m : List Point) :
    path a (l ++ m) = path a l ++ path (l.getLast?.getD a) m := by
  induction l generalizing a with
  | nil => rfl
  | cons b rest ih =>
    rw [List.cons_append, path, path, ih, List.getLast?_cons, Option.getD_some, List.cons_append]

theorem ends_mem_of_mem_path {a : Point} {l : List Point} {e : Edge} (h : e ∈ path a l) :
    e.source ∈ a :: l ∧ e.target ∈ l := by
  induction l generalizing a with
  | nil => exact absurd h List.not_mem_nil
  | cons b rest ih =>
    rcases List.mem_cons.1 h with rfl | hrest
    · exact ⟨List.mem_cons_self, List.mem_cons_self⟩
    · obtain ⟨hsource, htarget⟩ := ih hrest
      exact ⟨List.mem_cons_of_mem a hsource, List.mem_cons_of_mem b htarget⟩

theorem ends_mem_of_mem_edges {outline : Outline} {e : Edge} (h : e ∈ outline.edges) :
    e.source ∈ outline ∧ e.target ∈ outline := by
  cases hlast : outline.getLast? with
  | none =>
    rw [edges, hlast] at h
    exact absurd h List.not_mem_nil
  | some last =>
    rw [edges_eq_path outline last, hlast, Option.getD_some] at h
    obtain ⟨hsource, htarget⟩ := ends_mem_of_mem_path h
    refine ⟨?_, htarget⟩
    rcases List.mem_cons.1 hsource with hsource | hsource
    · exact hsource ▸ List.mem_of_getLast? hlast
    · exact hsource

/-! ## Where the ring is entered -/

theorem edges_append_perm (l m : Outline) : (edges (l ++ m)).Perm (edges (m ++ l)) := by
  cases hl : l.getLast? with
  | none => rw [List.getLast?_eq_none_iff.1 hl, List.nil_append, List.append_nil]
  | some a =>
    cases hm : m.getLast? with
    | none => rw [List.getLast?_eq_none_iff.1 hm, List.nil_append, List.append_nil]
    | some b =>
      rw [edges_eq_path (l ++ m) a, edges_eq_path (m ++ l) a, path_append, path_append]
      simp only [List.getLast?_append, hl, hm, Option.some_or, Option.getD_some]
      exact List.perm_append_comm

theorem edges_rotate_perm (outline : Outline) (k : Nat) :
    (edges (outline.rotate k)).Perm outline.edges := by
  rw [List.rotate_eq_drop_append_take_mod]
  exact (edges_append_perm _ _).trans (.of_eq (congrArg edges (List.take_append_drop _ _)))

/-! ## Lingering at a vertex -/

/-- The edges that are not a mere point. -/
def sides (outline : Outline) : List Edge := outline.edges.filter fun e => decide ¬e.IsPoint

theorem encloses_eq_sides (outline : Outline) (p : Point) :
    outline.encloses p = (outline.sides.countP (fun e => e.meetsRay p) % 2 == 1) := by
  have hsame : ∀ e ∈ outline.edges,
      e.meetsRay p = true ↔ (e.meetsRay p && decide ¬e.IsPoint) = true := by
    intro e _
    rw [Bool.and_eq_true, decide_eq_true_eq, iff_self_and]
    intro hmeets hpoint
    rw [hpoint.meetsRay] at hmeets
    exact Bool.false_ne_true hmeets
  rw [encloses, sides, List.countP_filter, List.countP_congr hsame]

theorem filter_path_replicate (v : Point) (k : Nat) (rest : List Point) :
    (path v (List.replicate k v ++ rest)).filter (fun e => decide ¬e.IsPoint) =
      (path v rest).filter fun e => decide ¬e.IsPoint := by
  induction k with
  | zero => rfl
  | succ k ih =>
    rw [List.replicate_succ, List.cons_append, path,
      List.filter_cons_of_neg (by simp [Edge.IsPoint]), ih]

theorem sides_linger (before after : List Point) (v : Point) (k : Nat) :
    sides (before ++ List.replicate (k + 1) v ++ after) = sides (before ++ v :: after) := by
  have hlast : (before ++ v :: (List.replicate k v ++ after)).getLast? =
      (before ++ v :: after).getLast? := by
    cases after with
    | nil => cases k <;> simp [List.getLast?_append, List.getLast?_cons, List.getLast?_replicate]
    | cons b rest => simp [List.getLast?_append, List.getLast?_cons]
  rw [List.append_assoc, List.replicate_succ, List.cons_append, sides, sides, edges_eq_path _ v,
    edges_eq_path (before ++ v :: after) v, hlast, path_append, path_append, path, path,
    List.filter_append, List.filter_append, List.filter_cons, List.filter_cons,
    filter_path_replicate]

/-! ## Redrawing -/

/-- The same ring drawn in another way. -/
inductive Redrawn : Outline → Outline → Prop
  | rotate (outline : Outline) (k : Nat) : Redrawn outline (outline.rotate k)
  /-- The first vertex is given once more at the end. -/
  | close (first : Point) (rest : List Point) :
      Redrawn (first :: rest) (first :: rest ++ [first])
  /-- A vertex is given `k` more times. -/
  | linger (before after : List Point) (v : Point) (k : Nat) :
      Redrawn (before ++ v :: after) (before ++ List.replicate (k + 1) v ++ after)

theorem Redrawn.sides_perm {outline other : Outline} (h : Redrawn outline other) :
    outline.sides.Perm other.sides := by
  cases h with
  | rotate _ k => exact ((edges_rotate_perm outline k).filter _).symm
  | close first rest =>
    have hlinger : sides (first :: first :: rest) = sides (first :: rest) :=
      sides_linger [] rest first 1
    rw [← hlinger]
    exact (edges_append_perm [first] (first :: rest)).filter _
  | linger before after v k => rw [sides_linger]

theorem Redrawn.mem_iff {outline other : Outline} (h : Redrawn outline other) (p : Point) :
    p ∈ outline ↔ p ∈ other := by
  cases h with
  | rotate _ k => exact List.mem_rotate.symm
  | close first rest => simp [or_comm]
  | linger before after v k => simp [List.mem_replicate]

end Outline

/-! ## The box of a ring -/

namespace Box

variable {b c : Box} {ps qs : List Point}

/-- The box reaches nowhere beyond the other one. -/
def Within (b c : Box) : Prop :=
  (c.low.x ≤ b.low.x ∧ b.high.x ≤ c.high.x) ∧ c.low.y ≤ b.low.y ∧ b.high.y ≤ c.high.y

theorem Within.refl (b : Box) : b.Within b :=
  ⟨⟨Int32.le_refl _, Int32.le_refl _⟩, Int32.le_refl _, Int32.le_refl _⟩

theorem Within.antisymm (h : b.Within c) (h' : c.Within b) : b = c := by
  obtain ⟨⟨hleft, hright⟩, hlow, hhigh⟩ := h
  obtain ⟨⟨hleft', hright'⟩, hlow', hhigh'⟩ := h'
  cases b
  cases c
  congr 1
  · exact congr (congrArg Point.mk (Int32.le_antisymm hleft' hleft))
      (Int32.le_antisymm hlow' hlow)
  · exact congr (congrArg Point.mk (Int32.le_antisymm hright hright'))
      (Int32.le_antisymm hhigh hhigh')

theorem ofPoint_within_iff {p : Point} : (ofPoint p).Within c ↔ c.contains p = true :=
  contains_iff.symm

theorem max_le_iff {l m n : Int32} : max l m ≤ n ↔ l ≤ n ∧ m ≤ n := by
  have hmax : max l m = if l ≤ m then m else l := rfl
  rw [hmax]
  simp only [Int32.le_iff_toInt_le]
  split <;> omega

theorem cover_within_iff {p : Point} :
    (b.cover p).Within c ↔ b.Within c ∧ c.contains p = true := by
  rw [contains_iff]
  simp only [Within, cover, Std.le_min_iff, max_le_iff]
  tauto

theorem foldl_cover_within_iff :
    (ps.foldl cover b).Within c ↔ b.Within c ∧ ∀ p ∈ ps, c.contains p = true := by
  induction ps generalizing b with
  | nil => simp
  | cons p rest ih => rw [List.foldl_cons, ih, cover_within_iff, List.forall_mem_cons, and_assoc]

/-- The box around some points is the least one that holds them all. -/
theorem within_iff_of_ofPoints? (h : ofPoints? ps = some b) :
    b.Within c ↔ ∀ p ∈ ps, c.contains p = true := by
  cases ps with
  | nil => exact absurd h.symm (Option.some_ne_none b)
  | cons p rest =>
    rw [← Option.some.inj h, foldl_cover_within_iff, ofPoint_within_iff, List.forall_mem_cons]

theorem contains_of_mem (h : ofPoints? ps = some b) {p : Point} (hp : p ∈ ps) :
    b.contains p = true :=
  (within_iff_of_ofPoints? h).1 (.refl b) p hp

theorem ofPoints?_congr (h : ∀ p, p ∈ ps ↔ p ∈ qs) : ofPoints? ps = ofPoints? qs := by
  have hnone : ofPoints? ps = none ↔ ofPoints? qs = none := by
    simp only [ofPoints?_eq_none_iff, List.eq_nil_iff_forall_not_mem, h]
  cases hps : ofPoints? ps with
  | none => exact (hnone.1 hps).symm
  | some b =>
    cases hqs : ofPoints? qs with
    | none => exact hps.symm.trans (hnone.2 hqs)
    | some c =>
      have hwithin : b.Within c :=
        (within_iff_of_ofPoints? hps).2 fun p hp => contains_of_mem hqs ((h p).1 hp)
      have hwithin' : c.Within b :=
        (within_iff_of_ofPoints? hqs).2 fun p hp => contains_of_mem hps ((h p).2 hp)
      rw [hwithin.antisymm hwithin']

end Box

namespace Outline

variable {outline other : Outline}

theorem Redrawn.encloses_eq (h : Redrawn outline other) (p : Point) :
    outline.encloses p = other.encloses p := by
  rw [encloses_eq_sides, encloses_eq_sides, h.sides_perm.countP_eq]

/-- What no single redrawing changes, no number of them changes, forth or back. -/
theorem eq_of_redrawn {β : Type} {f : Outline → β}
    (hf : ∀ outline other, Redrawn outline other → f outline = f other)
    (h : Relation.EqvGen Redrawn outline other) : f outline = f other :=
  congrArg (Quot.lift f hf) (Quot.eqvGen_sound h)

end Outline

/-- The points that a polygon holds are a matter of its ring. -/
theorem Polygon.contains_eq_of_redrawn {g other : Polygon}
    (hbox : Box.ofPoints? g.outline = some g.box)
    (hbox' : Box.ofPoints? other.outline = some other.box)
    (h : Relation.EqvGen Outline.Redrawn g.outline other.outline) (p : Point) :
    g.contains p = other.contains p := by
  have hboxes : Box.ofPoints? g.outline = Box.ofPoints? other.outline :=
    Outline.eq_of_redrawn (fun _ _ h => Box.ofPoints?_congr h.mem_iff) h
  have hencloses : g.outline.encloses p = other.outline.encloses p :=
    Outline.eq_of_redrawn (f := fun outline => outline.encloses p) (fun _ _ h => h.encloses_eq p) h
  rw [hbox, hbox'] at hboxes
  rw [Polygon.contains, Polygon.contains, Option.some.inj hboxes, hencloses]

/-- A square, and the same one entered at the opposite corner, closed, and with that corner
given twice. -/
theorem Polygon.contains_square_redrawn :
    let square : Polygon :=
      { outline := [⟨0, 0⟩, ⟨8, 0⟩, ⟨8, 8⟩, ⟨0, 8⟩], zone := 0, box := ⟨⟨0, 0⟩, ⟨8, 8⟩⟩,
        node := ⟨0, 0⟩ }
    let redrawn : Polygon :=
      { square with outline := [⟨8, 8⟩, ⟨8, 8⟩, ⟨0, 8⟩, ⟨0, 0⟩, ⟨8, 0⟩, ⟨8, 8⟩] }
    redrawn.contains ⟨3, 5⟩ = square.contains ⟨3, 5⟩ ∧ square.contains ⟨3, 5⟩ = true := by
  intro square redrawn
  have hrotate : Outline.Redrawn square.outline [⟨8, 8⟩, ⟨0, 8⟩, ⟨0, 0⟩, ⟨8, 0⟩] :=
    .rotate square.outline 2
  have hclose : Outline.Redrawn [⟨8, 8⟩, ⟨0, 8⟩, ⟨0, 0⟩, ⟨8, 0⟩]
      [⟨8, 8⟩, ⟨0, 8⟩, ⟨0, 0⟩, ⟨8, 0⟩, ⟨8, 8⟩] :=
    .close ⟨8, 8⟩ [⟨0, 8⟩, ⟨0, 0⟩, ⟨8, 0⟩]
  have hlinger : Outline.Redrawn [⟨8, 8⟩, ⟨0, 8⟩, ⟨0, 0⟩, ⟨8, 0⟩, ⟨8, 8⟩] redrawn.outline :=
    .linger [] [⟨0, 8⟩, ⟨0, 0⟩, ⟨8, 0⟩, ⟨8, 8⟩] ⟨8, 8⟩ 1
  have hsame : Relation.EqvGen Outline.Redrawn square.outline redrawn.outline :=
    .trans _ _ _ (.rel _ _ hrotate) (.trans _ _ _ (.rel _ _ hclose) (.rel _ _ hlinger))
  exact ⟨(Polygon.contains_eq_of_redrawn (by decide) (by decide) hsame ⟨3, 5⟩).symm,
    by decide +kernel⟩

end Unrouted
