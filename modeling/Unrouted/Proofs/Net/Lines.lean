import Unrouted.Proofs.Net.Ages
import Unrouted.Proofs.Net.Marks
import Unrouted.Proofs.Net.Nearest
import Unrouted.Store.Airwires

/-!
The lines that a net shows.  A missing link is drawn if both of its nodes live and are not
marked; it then runs between the points where they are now, however old the link is.  A marked
node has one line, to the nearest node that is not marked, the one in the lowest slot of
several.
-/

namespace Unrouted
namespace Net

variable {net : Net} {items : Table ItemId Item} {code : NetCode} {m n : NodeId}

theorem isSteady_iff : net.isSteady n = true ↔
    ∃ v, net.registry.node? n = some v ∧ v.flagged = false := by
  rw [isSteady, Option.any_eq_true]
  simp

/-! ## Nearest nodes -/

/-- No node without a flag is nearer to `m` than `n`, and none that is as near is in a lower
slot. -/
def Nearest (net : Net) (m n : NodeId) : Prop :=
  ∃ p v, net.registry.position? m = some p ∧ net.registry.node? n = some v ∧
    ∀ k u, net.registry.node? k = some u → u.flagged = false →
      p.distanceSq v.position < p.distanceSq u.position ∨
        p.distanceSq v.position = p.distanceSq u.position ∧ n.index ≤ k.index

/-- The line from a node to one without a flag, between the points where they are. -/
structure Line (net : Net) (code : NetCode) (simple : Bool) (m n : NodeId) (w : Airwire) :
    Prop where
  source : ∃ v, net.registry.node? m = some v ∧ v.flagged = simple ∧ v.position = w.start
  target : ∃ v, net.registry.node? n = some v ∧ v.flagged = false ∧ v.position = w.finish
  distinct : m ≠ n
  net_eq : w.net = code
  simple_eq : w.simple = simple
  weight : w.weight = w.start.distance w.finish
  positive : Length.zero < w.weight

theorem mem_others_unflagged {e : NodeId × Node} :
    e ∈ net.others m (fun v => !v.flagged) ↔
      net.registry.node? e.1 = some e.2 ∧ e.1 ≠ m ∧ e.2.flagged = false := by
  rw [mem_others, Bool.not_eq_true']

/-- The line of a flagged node, as soon as there is a node without a flag. -/
theorem exists_simpleLink? (hcarries : ∃ held, net.registry.Carries held) {v : Node}
    (hv : net.registry.node? m = some v) (hflag : v.flagged = true)
    (hsteady : ∃ k, net.isSteady k = true) :
    ∃ l, net.simpleLink? m = some l ∧
      ∃ n, net.Line code true m n (.ofLink code true l) ∧ net.Nearest m n := by
  have hposition : net.registry.position? m = some v.position :=
    Registry.position?_eq_some.2 ⟨v, hv, rfl⟩
  -- A node without a flag is another one.
  have hother {k : NodeId} {u : Node} (hu : net.registry.node? k = some u)
      (hfree : u.flagged = false) : (k, u) ∈ net.others m fun v => !v.flagged := by
    refine mem_others_unflagged.2 ⟨hu, ?_, hfree⟩
    rintro rfl
    rw [Option.some.inj (hv.symm.trans hu), hfree] at hflag
    exact absurd hflag (by simp)
  obtain ⟨k, hk⟩ := hsteady
  obtain ⟨u, hu, hfree⟩ := isSteady_iff.1 hk
  have hne : net.others m (fun v => !v.flagged) ≠ [] := List.ne_nil_of_mem (hother hu hfree)
  obtain ⟨⟨n, w⟩, hmin⟩ := Option.isSome_iff_exists.1 (List.isSome_minOn?_iff
    (f := fun e : NodeId × Node => v.position.distanceSq e.2.position).2 hne)
  obtain ⟨hmem, hfirst⟩ := first_of_minOn? (pairwise_others net m fun v => !v.flagged) hmin
  obtain ⟨hw, hnm, hwfree⟩ := mem_others_unflagged.1 hmem
  have htarget : net.registry.position? n = some w.position :=
    Registry.position?_eq_some.2 ⟨w, hw, rfl⟩
  have hlink : net.simpleLink? m = some
      { source := m, target := n, sourcePosition := v.position, targetPosition := w.position,
        weight := v.position.distance w.position } := by
    simp only [simpleLink?, nearest?, hposition, hmin, Option.map_some, Option.bind_some, link?,
      htarget]
    rfl
  have hapart : v.position ≠ w.position := by
    intro heq
    rw [heq] at hposition
    obtain ⟨held, hcarries⟩ := hcarries
    exact hnm (hcarries.eq_of_position? htarget hposition)
  refine ⟨_, hlink, n,
    ⟨⟨v, hv, hflag, rfl⟩, ⟨w, hw, hwfree, rfl⟩, Ne.symm hnm, rfl, rfl, rfl,
      Point.distance_pos hapart⟩, v.position, w, hposition, hw, fun k u hu hfree => ?_⟩
  rcases hfirst (k, u) (hother hu hfree) with heq | hlt | heq
  · rw [Prod.mk.injEq] at heq
    obtain ⟨rfl, rfl⟩ := heq
    exact .inr ⟨rfl, Nat.le_refl _⟩
  · exact .inl hlt
  · exact .inr ⟨heq.1, Nat.le_of_lt heq.2⟩

theorem simpleLink?_eq_none (hsteady : ∀ k, net.isSteady k = false) (m : NodeId) :
    net.simpleLink? m = none := by
  have hnil : net.others m (fun v => !v.flagged) = [] := by
    apply List.eq_nil_iff_forall_not_mem.2
    intro e he
    obtain ⟨hv, -, hfree⟩ := mem_others_unflagged.1 he
    have hk := isSteady_iff.2 ⟨e.2, hv, hfree⟩
    rw [hsteady] at hk
    exact absurd hk (by simp)
  rw [simpleLink?, nearest?]
  cases net.registry.position? m with
  | none => rfl
  | some p => simp [hnil]

/-! ## All lines of a net -/

/-- What a net shows when it is visible: the missing links that have both nodes and no flag at
either, in their order, and after them one line for each flagged node, to its nearest node
without a flag.  In a clean net without flags these are the missing links as they stand. -/
structure Shown (net : Net) (code : NetCode) (steady simple : List Airwire) : Prop where
  steady_eq : steady =
    (net.missing.filter fun l => net.isSteady l.source && net.isSteady l.target).map
      (.ofLink code false)
  steady_line : ∀ w ∈ steady, ∃ l ∈ net.missing, w = .ofLink code false l ∧
    net.Line code false l.source l.target w
  nodup_marked : net.marked.Nodup
  mem_marked : ∀ n, n ∈ net.marked ↔ ∃ v, net.registry.node? n = some v ∧ v.flagged = true
  simple_line : (∃ n, net.isSteady n = true) →
    List.Forall₂ (fun m w => ∃ n, net.Line code true m n w ∧ net.Nearest m n) net.marked simple
  simple_nil : (∀ n, net.isSteady n = false) → simple = []
  clean : net.dirty = false → (∀ n v, net.registry.node? n = some v → v.flagged = false) →
    steady = net.missing.map (.ofLink code false) ∧ simple = []

theorem Current.steadyLinks_eq (h : net.Current) : net.steadyLinks =
    net.missing.filter fun l => net.isSteady l.source && net.isSteady l.target := by
  apply List.filter_congr
  intro l hl
  simp [(h l hl).2.2.2]

/-- Both nodes of a link that is drawn are where the link says. -/
theorem Current.line (h : net.Current) {l : MissingLink} (hl : l ∈ net.missing)
    (hsource : net.isSteady l.source = true) (htarget : net.isSteady l.target = true) :
    net.Line code false l.source l.target (.ofLink code false l) := by
  obtain ⟨hdated, hdated', hweight, hpos⟩ := h l hl
  obtain ⟨v, hv, hfree⟩ := isSteady_iff.1 hsource
  obtain ⟨u, hu, hfree'⟩ := isSteady_iff.1 htarget
  have hplace : v.position = l.sourcePosition :=
    hdated.position? _ (Registry.position?_eq_some.2 ⟨v, hv, rfl⟩)
  have hplace' : u.position = l.targetPosition :=
    hdated'.position? _ (Registry.position?_eq_some.2 ⟨u, hu, rfl⟩)
  refine ⟨⟨v, hv, hfree, hplace⟩, ⟨u, hu, hfree', hplace'⟩, fun hsame => ?_, rfl, rfl, hweight,
    hpos⟩
  rw [hsame, hu] at hv
  rw [← Option.some.inj hv, hplace'] at hplace
  rw [hweight, ← hplace, Point.distance_self] at hpos
  exact absurd hpos (Nat.lt_irrefl _)

theorem WellMarked.simpleLinks (h : net.WellMarked)
    (hcarries : ∃ held, net.registry.Carries held) (hsteady : ∃ n, net.isSteady n = true) :
    List.Forall₂ (fun m w => ∃ n, net.Line code true m n w ∧ net.Nearest m n) net.marked
      (net.simpleLinks.map (.ofLink code true)) := by
  have each (ms : List NodeId) (hms : ∀ m ∈ ms, net.registry.isFlagged m = true) :
      List.Forall₂ (fun m w => ∃ n, net.Line code true m n w ∧ net.Nearest m n) ms
        ((ms.filterMap net.simpleLink?).map (.ofLink code true)) := by
    induction ms with
    | nil => exact .nil
    | cons m rest ih =>
      obtain ⟨v, hv, hflag⟩ := Registry.isFlagged_iff.1 (hms m List.mem_cons_self)
      obtain ⟨l, hl, hline⟩ := exists_simpleLink? hcarries hv hflag hsteady
      rw [List.filterMap_cons_some hl, List.map_cons]
      exact .cons hline (ih fun k hk => hms k (List.mem_cons_of_mem _ hk))
  exact each net.marked fun m hm => (h.mem m).1 hm

/-- In a settled net every missing link joins two live nodes. -/
theorem Settled.live_ends (h : net.Settled) (hsound : net.Sound items) {l : MissingLink}
    (hl : l ∈ net.missing) :
    (∃ v, net.registry.node? l.source = some v) ∧ ∃ v, net.registry.node? l.target = some v := by
  rw [h.solved] at hl
  obtain ⟨hsource, htarget, -⟩ := (spanned_solve hsound.mirrors.carries).straight l hl
  obtain ⟨v, hv, -⟩ := Registry.position?_eq_some.1 hsource
  obtain ⟨u, hu, -⟩ := Registry.position?_eq_some.1 htarget
  exact ⟨⟨v, hv⟩, u, hu⟩

theorem shown_run (strategy : Strategy) (history : List Operation)
    (h : ∀ i, (empty strategy).refills i history < 2 ^ 32) (code : NetCode) :
    let net := run (empty strategy) history
    net.Shown code (net.steadyLinks.map (.ofLink code false))
      (net.simpleLinks.map (.ofLink code true)) := by
  have hcurrent := current_run strategy history h
  have hmarked := wellMarked_run strategy history
  have hsound := sound_run strategy history
  have hsettled := settled_run strategy history
  generalize run (empty strategy) history = net at hcurrent hmarked hsound hsettled
  constructor
  · rw [hcurrent.steadyLinks_eq]
  · intro w hw
    rw [hcurrent.steadyLinks_eq] at hw
    obtain ⟨l, hl, rfl⟩ := List.mem_map.1 hw
    obtain ⟨hmem, hends⟩ := List.mem_filter.1 hl
    rw [Bool.and_eq_true] at hends
    exact ⟨l, hmem, rfl, hcurrent.line hmem hends.1 hends.2⟩
  · exact hmarked.nodup
  · intro n
    rw [hmarked.mem, Registry.isFlagged_iff]
  · exact hmarked.simpleLinks ⟨_, hsound.mirrors.carries⟩
  · intro hsteady
    have hnone : net.simpleLinks = [] :=
      List.filterMap_eq_nil_iff.2 fun m _ => simpleLink?_eq_none hsteady m
    rw [hnone, List.map_nil]
  · intro hclean hfree
    have hends (l : MissingLink) (hl : l ∈ net.missing) :
        (net.isSteady l.source && net.isSteady l.target) = true := by
      obtain ⟨⟨v, hv⟩, u, hu⟩ := (hsettled hclean).live_ends hsound hl
      rw [isSteady_iff.2 ⟨v, hv, hfree _ v hv⟩, isSteady_iff.2 ⟨u, hu, hfree _ u hu⟩]
      rfl
    have hunmarked : net.marked = [] := by
      apply List.eq_nil_iff_forall_not_mem.2
      intro n hn
      obtain ⟨v, hv, hflag⟩ := Registry.isFlagged_iff.1 ((hmarked.mem n).1 hn)
      rw [hfree n v hv] at hflag
      exact absurd hflag (by simp)
    rw [hcurrent.steadyLinks_eq, List.filter_eq_self.2 hends, simpleLinks, hunmarked]
    exact ⟨rfl, rfl⟩

end Net
end Unrouted
