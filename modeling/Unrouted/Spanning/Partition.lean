/-!
Partitions of the first `n` numbers into components.  Every number carries the
label of its component, so two numbers are joined exactly when their labels are
equal, and merging relabels one component.
-/

namespace Unrouted

/-- A partition and the number of its components. -/
structure Partition (n : Nat) where
  label : Vector (Fin n) n
  count : Nat
deriving DecidableEq

namespace Partition

variable {n : Nat}

/-- Every number is a component of its own. -/
def discrete (n : Nat) : Partition n := { label := Vector.ofFn id, count := n }

def joined (p : Partition n) (a b : Fin n) : Bool := p.label[a] == p.label[b]

/-- Joins the components of `a` and `b`. -/
def merge (p : Partition n) (a b : Fin n) : Partition n :=
  if p.joined a b then p else
    { label := p.label.map fun l => if l = p.label[b] then p.label[a] else l,
      count := p.count - 1 }

/-- Joins the ends of every pair. -/
def mergeAll (p : Partition n) (pairs : List (Fin n × Fin n)) : Partition n :=
  pairs.foldl (fun q s => q.merge s.1 s.2) p

/-- The members that no smaller member of their component precedes. -/
def leaders (p : Partition n) : List (Fin n) :=
  (List.finRange n).filter fun i =>
    (List.finRange n).all fun j => !(decide (j < i) && p.joined j i)

/-- The components in the order of their least members, each in ascending order. -/
def components (p : Partition n) : List (List (Fin n)) :=
  p.leaders.map fun i => (List.finRange n).filter fun j => p.joined i j

@[simp]
theorem joined_discrete {a b : Fin n} : (discrete n).joined a b = true ↔ a = b := by
  simp [discrete, joined]

@[simp]
theorem joined_self (p : Partition n) (a : Fin n) : p.joined a a = true := by
  simp [joined]

theorem joined_comm (p : Partition n) (a b : Fin n) : p.joined a b = p.joined b a := by
  simp [joined, Bool.beq_comm]

theorem joined_trans {p : Partition n} {a b c : Fin n}
    (hab : p.joined a b = true) (hbc : p.joined b c = true) : p.joined a c = true := by
  simp only [joined, beq_iff_eq] at *
  exact hab.trans hbc

/-- Two numbers are joined after a merge when they were before, or when each was
joined to one end of the merged pair. -/
theorem joined_merge {p : Partition n} {a b x y : Fin n} :
    (p.merge a b).joined x y = true ↔
      p.joined x y = true ∨ (p.joined x a = true ∧ p.joined b y = true) ∨
        (p.joined x b = true ∧ p.joined a y = true) := by
  unfold merge
  split
  · rename_i h
    simp only [joined, beq_iff_eq] at *
    grind
  · rename_i h
    simp only [joined, beq_iff_eq] at *
    simp only [Fin.getElem_fin, Vector.getElem_map] at *
    grind

end Partition

end Unrouted
