import Unrouted.Proofs.Registry
import Unrouted.Proofs.Table
import Mathlib.Data.List.Infix

/-!
What becomes of a registry over its life, whatever handles it is asked about.  The index goes
along with the live nodes through every creation and erasure, and a node knows how often it
was held and released since it was created: it goes with its last hold, or when it is
discarded.
-/

namespace Unrouted
namespace Registry

variable {r : Registry} {held : List Point} {n m : NodeId} {v w : Node} {p : Point}
  {op : Operation}

/-! ## Histories -/

/-- What can be done to a registry.  A handle may be live or stale, or come from another
registry. -/
inductive Operation where
  | hold (p : Point)
  | release (n : NodeId)
  | discard (n : NodeId)
  | connect (source target : NodeId) (weight : Float)
  | disconnect (c : ConnectionId)
  | setFlag (n : NodeId) (flag : Bool)
deriving DecidableEq

/-- A connection that is refused leaves the registry as it is. -/
def apply (r : Registry) : Operation → Registry
  | .hold p => (r.hold p).2
  | .release n => (r.release n).2
  | .discard n => r.discard n
  | .connect source target weight =>
    match r.connect source target weight with
    | .ok (_, r) => r
    | .error _ => r
  | .disconnect c => r.disconnect c
  | .setFlag n flag => r.setFlag n flag

def run (r : Registry) (history : List Operation) : Registry := history.foldl apply r

/-- How often an operation holds a node, which is once or not at all: a hold answers with the
node that it holds. -/
def timesAnswered (r : Registry) (n : NodeId) : Operation → Nat
  | .hold p => if (r.hold p).1 = n then 1 else 0
  | .release _ | .discard _ | .connect _ _ _ | .disconnect _ | .setFlag _ _ => 0

/-- How often a node is held while a registry takes some operations. -/
def timesHeld (r : Registry) (n : NodeId) : List Operation → Nat
  | [] => 0
  | op :: rest => r.timesAnswered n op + (r.apply op).timesHeld n rest

/-! ## What one operation does to a node -/

theorem Carries.holds_pos (h : r.Carries held) (hv : r.node? n = some v) : 1 ≤ v.holds := by
  have hheld : v.position ∈ held := h.mem_of_position? (position?_eq_some.2 ⟨v, hv, rfl⟩)
  rw [h.holds n v hv]
  exact List.count_pos_iff.2 hheld

theorem release_of_node?_eq_none (hn : r.node? n = none) : r.release n = (false, r) := by
  simp [Registry.release, hn]

theorem Carries.fst_release (h : r.Carries held) (n : NodeId) :
    (r.release n).1 = (r.node? n).any fun v => decide (v.holds = 1) := by
  cases hn : r.node? n with
  | none => rw [release_of_node?_eq_none hn, Option.any_none]
  | some v =>
    have hpos := h.holds_pos hn
    by_cases hlast : v.holds = 1
    · simp [Registry.release, hn, hlast]
    · have hmore : ¬v.holds ≤ 1 := by omega
      simp [Registry.release, hn, hlast, hmore]

theorem Carries.node?_release (h : r.Carries held) (n m : NodeId) :
    (r.release n).2.node? m =
      if m = n then
        (r.node? n).bind fun v =>
          if v.holds = 1 then none else some { v with holds := v.holds - 1 }
      else r.node? m := by
  cases hn : r.node? n with
  | none =>
    rw [release_of_node?_eq_none hn, Option.bind_none]
    split
    · rename_i hm
      rw [hm, hn]
    · rfl
  | some v =>
    have hpos := h.holds_pos hn
    by_cases hlast : v.holds = 1
    · have hdiscard : r.release n = (true, r.discard n) := by
        simp [Registry.release, hn, hlast]
      rw [hdiscard, node?_discard, Option.bind_some, if_pos hlast]
    · have hmore : ¬v.holds ≤ 1 := by omega
      have hlower : r.release n =
          (false, r.modifyNode n fun v => { v with holds := v.holds - 1 }) := by
        simp [Registry.release, hn, hmore]
      rw [hlower, node?_modifyNode, hn, Option.bind_some, if_neg hlast, Option.map_some]

/-- The answer to a hold is the only node that it changes; it is new if it was not live. -/
theorem Carries.node?_hold (h : r.Carries held) (p : Point) (m : NodeId) :
    (r.hold p).2.node? m =
      if m = (r.hold p).1 then
        match r.node? m with
        | none => some { position := p, flagged := false, holds := 1 }
        | some v => some { v with holds := v.holds + 1 }
      else r.node? m := by
  cases hfind : r.find? p with
  | none =>
    rw [hold_of_find?_eq_none hfind, h.node?_create]
    split
    · rename_i hm
      rw [hm, h.node?_create_fst]
    · rfl
  | some n =>
    obtain ⟨v, hv, -⟩ := position?_eq_some.1 ((h.find?_eq_some p n).1 hfind)
    rw [h.hold_of_find?_eq_some hfind, node?_modifyNode]
    split
    · rename_i hm
      rw [hm, hv, Option.map_some]
    · rfl

theorem apply_connect (r : Registry) (source target : NodeId) (weight : Float) :
    ∃ connections, r.apply (.connect source target weight) = { r with connections } := by
  cases hlive : r.nodes.live source && r.nodes.live target with
  | true => exact ⟨_, by simp only [apply, connect, hlive, if_true]; rfl⟩
  | false => exact ⟨r.connections, by simp only [apply, connect, hlive]; rfl⟩

/-- What an operation leaves held: it holds its place once more, or none. -/
theorem exists_carries_apply (h : r.Carries held) (op : Operation) :
    ∃ held', (r.apply op).Carries held' ∧
      ∀ p, held'.count p ≤ held.count p + [op].count (.hold p) := by
  have fewer {held' : List Point} (hsub : held'.Sublist held) (p : Point) :
      held'.count p ≤ held.count p + [op].count (.hold p) :=
    Nat.le_trans (hsub.count_le p) (Nat.le_add_right _ _)
  have same := fewer (List.Sublist.refl held)
  cases op with
  | hold p => exact ⟨p :: held, h.hold p, fun q => by simp [List.count_cons]⟩
  | release n =>
    cases hn : r.position? n with
    | none =>
      have hdead : r.node? n = none := Option.map_eq_none_iff.1 hn
      refine ⟨held, ?_, same⟩
      rwa [apply, release_of_node?_eq_none hdead]
    | some p =>
      have hsplit := h.perm (List.perm_cons_erase (h.mem_of_position? hn))
      exact ⟨held.erase p, hsplit.release hn, fewer List.erase_sublist⟩
  | discard n =>
    cases hn : r.position? n with
    | none =>
      have hdead : r.node? n = none := Option.map_eq_none_iff.1 hn
      have hsame : r.discard n = r := by simp [Registry.discard, hdead]
      refine ⟨held, ?_, same⟩
      rwa [apply, hsame]
    | some p => exact ⟨_, h.discard hn, fewer List.filter_sublist⟩
  | connect source target weight =>
    obtain ⟨connections, heq⟩ := apply_connect r source target weight
    rw [heq]
    exact ⟨held, h.congr rfl rfl, same⟩
  | disconnect c => exact ⟨held, h.congr rfl rfl, same⟩
  | setFlag n flag => exact ⟨held, (remarked_setFlag r n flag).carries held h, same⟩

/-- What an operation leaves under a handle, where `v` is what it found there. -/
def leaves (r : Registry) (n : NodeId) (v : Option Node) : Operation → Option Node
  | .hold p =>
    if n = (r.hold p).1 then
      match v with
      | none => some { position := p, flagged := false, holds := 1 }
      | some v => some { v with holds := v.holds + 1 }
    else v
  | .release m =>
    if n = m then
      v.bind fun v => if v.holds = 1 then none else some { v with holds := v.holds - 1 }
    else v
  | .discard m => if n = m then none else v
  | .connect _ _ _ | .disconnect _ => v
  | .setFlag m flag => if n = m then v.map fun v => { v with flagged := flag } else v

theorem Carries.node?_apply (h : r.Carries held) (op : Operation) (n : NodeId) :
    (r.apply op).node? n = r.leaves n (r.node? n) op := by
  cases op with
  | hold p => exact h.node?_hold p n
  | release m =>
    show (r.release m).2.node? n = _
    rw [h.node?_release, leaves]
    split
    · rename_i hn
      rw [hn]
    · rfl
  | discard m => exact node?_discard r m n
  | connect source target weight =>
    obtain ⟨connections, heq⟩ := apply_connect r source target weight
    rw [heq]
    rfl
  | disconnect c => rfl
  | setFlag m flag =>
    show (r.modifyNode m _).node? n = _
    rw [node?_modifyNode, leaves]
    split
    · rename_i hn
      rw [hn]
    · rfl

/-- A node that outlives an operation stays in its place and keeps count. -/
theorem Carries.holds_apply (h : r.Carries held) (hv : r.node? n = some v)
    (hw : (r.apply op).node? n = some w) :
    w.position = v.position ∧
      w.holds + [op].count (.release n) = v.holds + r.timesAnswered n op := by
  rw [h.node?_apply, hv] at hw
  cases op with
  | hold p =>
    simp only [leaves] at hw
    split at hw
    · rename_i hn
      obtain rfl := Option.some.inj hw
      simp [timesAnswered, ← hn]
    · rename_i hn
      obtain rfl := Option.some.inj hw
      simp [timesAnswered, Ne.symm hn]
  | release m =>
    simp only [leaves, Option.bind_some] at hw
    split at hw
    · rename_i hn
      subst hn
      split at hw
      · exact absurd hw (by simp)
      · obtain rfl := Option.some.inj hw
        have hpos := h.holds_pos hv
        simp only [timesAnswered, List.count_singleton_self, true_and]
        omega
    · rename_i hn
      obtain rfl := Option.some.inj hw
      simp [timesAnswered, Ne.symm hn]
  | discard m =>
    simp only [leaves] at hw
    split at hw
    · exact absurd hw (by simp)
    · obtain rfl := Option.some.inj hw
      simp [timesAnswered]
  | connect source target weight =>
    obtain rfl := Option.some.inj hw
    simp [timesAnswered]
  | disconnect c =>
    obtain rfl := Option.some.inj hw
    simp [timesAnswered]
  | setFlag m flag =>
    simp only [leaves, Option.map_some] at hw
    split at hw <;> obtain rfl := Option.some.inj hw <;> simp [timesAnswered]

/-- A node comes into being by a hold of its place, as the answer. -/
theorem Carries.created_apply (h : r.Carries held) (hn : r.node? n = none)
    (hw : (r.apply op).node? n = some w) :
    op = .hold w.position ∧ (r.hold w.position).1 = n := by
  rw [h.node?_apply, hn] at hw
  cases op with
  | hold p =>
    simp only [leaves] at hw
    split at hw
    · rename_i hanswer
      obtain rfl := Option.some.inj hw
      exact ⟨rfl, hanswer.symm⟩
    · exact absurd hw (by simp)
  | release m => simp [leaves] at hw
  | discard m => simp [leaves] at hw
  | connect source target weight => simp [leaves] at hw
  | disconnect c => simp [leaves] at hw
  | setFlag m flag => simp [leaves] at hw

/-! ## Whole histories -/

theorem count_cons_split (op asked : Operation) (rest : List Operation) :
    (op :: rest).count asked = [op].count asked + rest.count asked := by
  rw [← List.count_append, List.singleton_append]

/-- What a history leaves held: each place no more often than it was held in all. -/
theorem exists_carries_run (h : r.Carries held) (history : List Operation) :
    ∃ held', (r.run history).Carries held' ∧
      ∀ p, held'.count p ≤ held.count p + history.count (.hold p) := by
  induction history generalizing r held with
  | nil => exact ⟨held, h, fun _ => Nat.le_refl _⟩
  | cons op rest ih =>
    obtain ⟨mid, happlied, hmid⟩ := exists_carries_apply h op
    obtain ⟨held', hrun, hheld⟩ := ih happlied
    refine ⟨held', hrun, fun p => ?_⟩
    have hfirst := hmid p
    have hrest := hheld p
    rw [count_cons_split]
    omega

theorem run_append (r : Registry) (history later : List Operation) :
    r.run (history ++ later) = (r.run history).run later := List.foldl_append

/-- A node that stays live stays in its place and keeps count. -/
theorem Carries.holds_run (h : r.Carries held) (hv : r.node? n = some v)
    {later : List Operation}
    (hlive : ∀ part, part <+: later → (r.run part).nodes.live n = true)
    (hw : (r.run later).node? n = some w) :
    w.position = v.position ∧
      w.holds + later.count (.release n) = v.holds + r.timesHeld n later := by
  induction later generalizing r held v with
  | nil =>
    obtain rfl := Option.some.inj (hw.symm.trans hv)
    exact ⟨rfl, rfl⟩
  | cons op rest ih =>
    obtain ⟨_, happlied, -⟩ := exists_carries_apply h op
    have hfirst : [op] <+: op :: rest := List.cons_prefix_cons.2 ⟨rfl, List.nil_prefix⟩
    obtain ⟨u, hu⟩ := Arena.live_iff.1 (hlive [op] hfirst)
    obtain ⟨hposition, hcount⟩ := h.holds_apply hv hu
    obtain ⟨hposition', hcount'⟩ := ih happlied hu
      (fun part hpart => hlive (op :: part) (List.cons_prefix_cons.2 ⟨rfl, hpart⟩)) hw
    refine ⟨hposition'.trans hposition, ?_⟩
    rw [count_cons_split, timesHeld]
    omega

/-- A history that is cut where a node came into being: it was not there, a hold created it
at `p`, and it has been live ever since. -/
structure Since (n : NodeId) (p : Point) (earlier later : List Operation) : Prop where
  absent : (run empty earlier).node? n = none
  created : ((run empty earlier).hold p).1 = n
  live : ∀ part, part <+: later → (run empty (earlier ++ .hold p :: part)).nodes.live n = true

theorem exists_since {history : List Operation}
    (hlive : (run empty history).nodes.live n = true) :
    ∃ earlier p later, history = earlier ++ .hold p :: later ∧ Since n p earlier later := by
  induction history using List.reverseRecOn with
  | nil => exact absurd hlive (by simp [run, empty, Arena.live])
  | append_singleton earlier op ih =>
    obtain ⟨_, hcarries, -⟩ := exists_carries_run .empty earlier
    obtain ⟨w, hw⟩ := Arena.live_iff.1 hlive
    rw [run_append] at hw
    cases hbefore : (run empty earlier).node? n with
    | none =>
      obtain ⟨rfl, hcreated⟩ := hcarries.created_apply hbefore hw
      refine ⟨earlier, w.position, [], rfl, hbefore, hcreated, fun part hpart => ?_⟩
      rwa [List.prefix_nil.1 hpart]
    | some v =>
      obtain ⟨first, p, later, rfl, hsince⟩ := ih (Arena.live_iff.2 ⟨v, hbefore⟩)
      refine ⟨first, p, later ++ [op], by simp, hsince.absent, hsince.created,
        fun part hpart => ?_⟩
      rcases List.prefix_concat_iff.1 hpart with rfl | hpart
      · simpa using hlive
      · exact hsince.live part hpart

/-- What a node counts is what happened since it came into being. -/
theorem Since.holds {earlier later : List Operation} (h : Since n p earlier later)
    (hw : (run empty (earlier ++ .hold p :: later)).node? n = some w) :
    w.position = p ∧ w.holds + later.count (.release n) =
      (run empty earlier).timesHeld n (.hold p :: later) := by
  obtain ⟨_, hcarries, -⟩ := exists_carries_run .empty earlier
  have hborn : ((run empty earlier).hold p).2.node? n =
      some { position := p, flagged := false, holds := 1 } := by
    rw [hcarries.node?_hold, if_pos h.created.symm, h.absent]
  rw [run_append] at hw
  have hlive : ∀ part, part <+: later →
      (((run empty earlier).hold p).2.run part).nodes.live n = true := by
    intro part hpart
    have := h.live part hpart
    rwa [run_append] at this
  have hcount := (hcarries.hold p).holds_run hborn hlive hw
  refine ⟨hcount.1, hcount.2.trans ?_⟩
  rw [timesHeld, timesAnswered, if_pos h.created]
  rfl

/-! ## Registries after a history -/

/-- The index of a registry lists the live nodes, each of them once and under its place. -/
theorem Carries.places_perm (h : r.Carries held) :
    r.places.entries.Perm (r.nodes.entries.map fun e => (e.2.position, e.1)) := by
  have hnodup : (r.nodes.entries.map fun e => (e.2.position, e.1)).Nodup := by
    apply List.Nodup.of_map Prod.snd
    rw [List.map_map]
    exact r.nodes.nodup_handles
  rw [List.perm_ext_iff_of_nodup r.places.nodup_entries hnodup]
  rintro ⟨p, n⟩
  rw [← Table.get?_eq_some_iff, List.mem_map]
  refine (h.find?_eq_some p n).trans (position?_eq_some.trans ?_)
  constructor
  · rintro ⟨v, hv, rfl⟩
    exact ⟨(n, v), Arena.mem_entries.2 hv, rfl⟩
  · rintro ⟨⟨m, v⟩, he, heq⟩
    obtain ⟨rfl, rfl⟩ := Prod.mk.inj heq
    exact ⟨v, Arena.mem_entries.1 he, rfl⟩

/-- How a registry stands after a history that began with nothing. -/
structure Accounted (history : List Operation) (r : Registry) : Prop where
  /-- The index has one entry for each live node, and no other. -/
  places_perm : r.places.entries.Perm (r.nodes.entries.map fun e => (e.2.position, e.1))
  find?_eq_some : ∀ p n, r.find? p = some n ↔ ∃ v, r.node? n = some v ∧ v.position = p
  apart : ∀ m n v w, r.node? m = some v → r.node? n = some w → v.position = w.position → m = n
  /-- A place in use is held through its own node, so it never gets a second one. -/
  fst_hold : ∀ p n, r.find? p = some n → (r.hold p).1 = n
  holds_pos : ∀ n v, r.node? n = some v → 1 ≤ v.holds
  created : ∀ n, r.nodes.live n = true →
    ∃ earlier p later, history = earlier ++ .hold p :: later ∧ Since n p earlier later
  /-- A node counts how often it was held less how often it was released since it came into
  being. -/
  counts : ∀ n v earlier p later, history = earlier ++ .hold p :: later →
    Since n p earlier later → r.node? n = some v →
    v.position = p ∧ v.holds + later.count (.release n) =
      (run empty earlier).timesHeld n (.hold p :: later)
  /-- A release tells that the node was erased exactly when it gives up the last hold. -/
  fst_release : ∀ n, (r.release n).1 = true ↔ ∃ v, r.node? n = some v ∧ v.holds = 1
  node?_release : ∀ n m, (r.release n).2.node? m =
    if m = n then
      (r.node? n).bind fun v =>
        if v.holds = 1 then none else some { v with holds := v.holds - 1 }
    else r.node? m

theorem accounted_run (history : List Operation) : Accounted history (run empty history) := by
  obtain ⟨held, h, -⟩ := exists_carries_run .empty history
  refine ⟨h.places_perm, fun p n => ?_, fun m n v w hv hw heq => ?_, fun p n hfind => ?_,
    fun n v => h.holds_pos, fun n => exists_since, ?_, fun n => ?_, h.node?_release⟩
  · rw [h.find?_eq_some, position?_eq_some]
  · exact h.eq_of_position? (position?_eq_some.2 ⟨v, hv, heq⟩) (position?_eq_some.2 ⟨w, hw, rfl⟩)
  · rw [h.hold_of_find?_eq_some hfind]
  · rintro n v earlier p later rfl hsince hv
    exact hsince.holds hv
  · rw [h.fst_release, Option.any_eq_true]
    simp only [decide_eq_true_eq]

/-- A place is held twice and another once, and the node of the first is discarded. -/
def slotEmptied : List Operation :=
  [.hold ⟨1, 1⟩, .hold ⟨1, 1⟩, .hold ⟨2, 2⟩,
    .connect { index := 0, generation := 0 } { index := 1, generation := 0 } 0.0,
    .discard { index := 0, generation := 0 }]

/-- The first place is held once more and a hold of it is given up, each time under the handle
of the node that is there now, and some handles that find nothing are released. -/
def slotRefilled : List Operation :=
  [.release { index := 0, generation := 0 }, .hold ⟨1, 1⟩,
    .release { index := 7, generation := 3 }, .release { index := 0, generation := 1 }]

/-- Only the holds and releases count that came with the node or after it, under its handle. -/
theorem accounted_slotRefilled :
    let history := slotEmptied ++ .hold ⟨1, 1⟩ :: slotRefilled
    let r := run empty history
    let n : NodeId := { index := 0, generation := 1 }
    let v : Node := { position := ⟨1, 1⟩, flagged := false, holds := 1 }
    (r.node? n = some v ∧ Since n ⟨1, 1⟩ slotEmptied slotRefilled) ∧
      v.holds + slotRefilled.count (.release n) =
        (run empty slotEmptied).timesHeld n (.hold ⟨1, 1⟩ :: slotRefilled) ∧
      (r.release n).1 = true ∧ (r.release n).2.node? n = none := by
  intro history r n v
  have hstands : Accounted history r := accounted_run history
  have hv : r.node? n = some v := by decide +kernel
  have hsince : Since n ⟨1, 1⟩ slotEmptied slotRefilled := by
    refine ⟨by decide +kernel, by decide +kernel, fun part hpart => ?_⟩
    have hparts : ∀ part ∈ slotRefilled.inits,
        (run empty (slotEmptied ++ .hold ⟨1, 1⟩ :: part)).nodes.live n = true := by decide +kernel
    exact hparts part ((List.mem_inits part slotRefilled).2 hpart)
  refine ⟨⟨hv, hsince⟩, (hstands.counts n v _ _ _ rfl hsince hv).2,
    (hstands.fst_release n).2 ⟨v, hv, rfl⟩, ?_⟩
  rw [hstands.node?_release, if_pos rfl, hv, Option.bind_some, if_pos rfl]

end Registry
end Unrouted
