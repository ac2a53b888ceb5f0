import Unrouted.Proofs.Arena
import Unrouted.Registry

/-!
A registry stands for a multiset of points, the places that are held.  Each held place
has one live node, the index finds it, and it counts how often the place is held.
Holding adds a place and releasing takes one away, so a node is erased exactly when its
place is held no more.
-/

namespace Unrouted

/-- The connection of a pair that copper joins. -/
def Connection.copper (s : NodeId × NodeId) : Connection :=
  { source := s.1, target := s.2, weight := 0.0 }

namespace Registry

variable {r r' : Registry} {held : List Point} {p q : Point} {m n : NodeId}

/-- The nodes of a registry and its index stand for the held places.  The connections
have no part in it. -/
structure Carries (r : Registry) (held : List Point) : Prop where
  nodes : r.nodes.WellFormed
  find?_eq_some : ∀ p n, r.find? p = some n ↔ r.position? n = some p
  holds : ∀ n v, r.node? n = some v → v.holds = held.count v.position
  mem : ∀ p, p ∈ held ↔ ∃ n, r.find? p = some n

theorem position?_eq_some : r.position? n = some p ↔ ∃ v, r.node? n = some v ∧ v.position = p :=
  Option.map_eq_some_iff

theorem live_iff_position? : r.nodes.live n = true ↔ ∃ p, r.position? n = some p := by
  rw [Arena.live_iff]
  constructor
  · rintro ⟨v, hv⟩
    exact ⟨v.position, position?_eq_some.2 ⟨v, hv, rfl⟩⟩
  · rintro ⟨p, hp⟩
    obtain ⟨v, hv, -⟩ := position?_eq_some.1 hp
    exact ⟨v, hv⟩

theorem position?_congr (hnodes : r'.nodes = r.nodes) (n : NodeId) :
    r'.position? n = r.position? n := by
  simp only [position?, node?, hnodes]

namespace Carries

theorem congr (h : r.Carries held) (hnodes : r'.nodes = r.nodes) (hplaces : r'.places = r.places) :
    r'.Carries held := by
  obtain ⟨nodes, places, connections⟩ := r
  obtain ⟨nodes', places', connections'⟩ := r'
  subst hnodes hplaces
  exact ⟨h.nodes, h.find?_eq_some, h.holds, h.mem⟩

theorem perm {held' : List Point} (h : r.Carries held) (hperm : held.Perm held') :
    r.Carries held' where
  nodes := h.nodes
  find?_eq_some := h.find?_eq_some
  holds n v hv := (h.holds n v hv).trans (hperm.count_eq v.position)
  mem p := (hperm.mem_iff (a := p)).symm.trans (h.mem p)

theorem empty : Registry.empty.Carries [] where
  nodes := Arena.wellFormed_empty
  find?_eq_some p n := by simp [Registry.empty, find?, position?, node?]
  holds n v hv := by simp [Registry.empty, node?] at hv
  mem p := by simp [Registry.empty, find?]

theorem mem_of_position? (h : r.Carries held) (hn : r.position? n = some p) : p ∈ held :=
  (h.mem p).2 ⟨n, (h.find?_eq_some p n).2 hn⟩

theorem exists_position? (h : r.Carries held) (hp : p ∈ held) : ∃ n, r.position? n = some p := by
  obtain ⟨n, hn⟩ := (h.mem p).1 hp
  exact ⟨n, (h.find?_eq_some p n).1 hn⟩

/-- No two live nodes are at one place. -/
theorem eq_of_position? (h : r.Carries held) (hm : r.position? m = some p)
    (hn : r.position? n = some p) : m = n := by
  have hm' := (h.find?_eq_some p m).2 hm
  have hn' := (h.find?_eq_some p n).2 hn
  exact Option.some.inj (hm'.symm.trans hn')

theorem nodup_positions (h : r.Carries held) :
    (r.nodes.entries.map fun e => e.2.position).Nodup := by
  refine (List.nodup_map_iff_inj_on r.nodes.nodup_entries).2 fun e he f hf hef => ?_
  have he := Arena.mem_entries.1 he
  have hf := Arena.mem_entries.1 hf
  have hhandle : e.1 = f.1 := h.eq_of_position?
    (position?_eq_some.2 ⟨e.2, he, rfl⟩) (position?_eq_some.2 ⟨f.2, hf, hef.symm⟩)
  rw [hhandle] at he
  exact Prod.ext hhandle (Option.some.inj (he.symm.trans hf))

end Carries

/-! ## Changing a node in its place -/

theorem node?_modifyNode (r : Registry) (n m : NodeId) (f : Node → Node) :
    (r.modifyNode n f).node? m = if m = n then (r.node? n).map f else r.node? m :=
  Arena.get?_modify r.nodes n m f

theorem position?_modifyNode (r : Registry) (n m : NodeId) {f : Node → Node}
    (hf : ∀ v, (f v).position = v.position) :
    (r.modifyNode n f).position? m = r.position? m := by
  rw [position?, node?_modifyNode, position?]
  split
  · rename_i hm
    rw [hm, Option.map_map]
    congr 1
    funext v
    exact hf v
  · rfl

theorem find?_modifyNode (r : Registry) (n : NodeId) (f : Node → Node) (p : Point) :
    (r.modifyNode n f).find? p = r.find? p := rfl

/-- A change of one node leaves the registry sound as long as the node stays in its place
and counts as the held places say. -/
theorem Carries.modifyNode {held' : List Point} (h : r.Carries held) {f : Node → Node}
    (hf : ∀ v, (f v).position = v.position) (hmem : ∀ p, p ∈ held' ↔ p ∈ held)
    (hcount : ∀ m v, r.node? m = some v →
      (if m = n then (f v).holds else v.holds) = held'.count v.position) :
    (r.modifyNode n f).Carries held' where
  nodes := h.nodes.modify n f
  find?_eq_some p m := by
    rw [position?_modifyNode r n m hf, find?_modifyNode, h.find?_eq_some]
  holds m w hw := by
    rw [node?_modifyNode] at hw
    split at hw
    · rename_i hm
      obtain ⟨v, hv, rfl⟩ := Option.map_eq_some_iff.1 hw
      have := hcount n v hv
      rwa [if_pos rfl, ← hf v] at this
    · rename_i hm
      have := hcount m w hw
      rwa [if_neg hm] at this
  mem p := by
    rw [hmem, h.mem]
    rfl

/-! ## Holding a place -/

@[simp]
theorem connections_hold (r : Registry) (p : Point) : (r.hold p).2.connections = r.connections := by
  unfold hold
  split
  · rfl
  · split <;> rfl

theorem wellFormed_hold (h : r.nodes.WellFormed) (p : Point) : (r.hold p).2.nodes.WellFormed := by
  have hcreate : (r.create p).2.nodes.WellFormed := h.insert _
  unfold hold
  split
  · exact hcreate
  · split
    · exact h.modify _ _
    · exact hcreate

theorem hold_of_find?_eq_none (hp : r.find? p = none) : r.hold p = r.create p := by
  simp [hold, hp]

/-- The index never finds a dead node, so a place that is in use gets no second node. -/
theorem Carries.hold_of_find?_eq_some (h : r.Carries held) (hn : r.find? p = some n) :
    r.hold p = (n, r.modifyNode n fun v => { v with holds := v.holds + 1 }) := by
  have hlive : r.nodes.live n = true := live_iff_position?.2 ⟨p, (h.find?_eq_some p n).1 hn⟩
  simp [hold, hn, hlive]

theorem Carries.node?_create (h : r.Carries held) (p : Point) (m : NodeId) :
    (r.create p).2.node? m =
      if m = (r.create p).1 then some { position := p, flagged := false, holds := 1 }
      else r.node? m :=
  Arena.get?_insert h.nodes _ m

theorem Carries.node?_create_fst (h : r.Carries held) (p : Point) :
    r.node? (r.create p).1 = none :=
  Arena.get?_insert_fst h.nodes _

theorem find?_create (r : Registry) (p q : Point) :
    (r.create p).2.find? q = if q = p then some (r.create p).1 else r.find? q :=
  Table.get?_insert r.places p q _

theorem Carries.create (h : r.Carries held) (hp : r.find? p = none) :
    (r.create p).2.Carries (p :: held) := by
  have hnot : p ∉ held := by
    rw [h.mem, hp]
    simp
  have hfresh := h.node?_create_fst p
  have hunused : ∀ q, r.find? q ≠ some (r.create p).1 := by
    intro q hq
    obtain ⟨v, hv, -⟩ := position?_eq_some.1 ((h.find?_eq_some q _).1 hq)
    rw [hfresh] at hv
    exact Option.some_ne_none v hv.symm
  constructor
  · exact h.nodes.insert _
  · intro q m
    rw [find?_create, position?_eq_some, h.node?_create]
    by_cases hm : m = (r.create p).1
    · rw [if_pos hm, hm]
      by_cases hq : q = p
      · simp [hq]
      · simpa [hq, Ne.symm hq] using hunused q
    · rw [if_neg hm, ← position?_eq_some, ← h.find?_eq_some]
      by_cases hq : q = p
      · simp [hq, hp, Ne.symm hm]
      · simp [hq]
  · intro m v hv
    rw [h.node?_create] at hv
    split at hv
    · obtain rfl := Option.some.inj hv
      simp [List.count_eq_zero.2 hnot]
    · have hpv : v.position ∈ held := h.mem_of_position? (position?_eq_some.2 ⟨v, hv, rfl⟩)
      have hne : p ≠ v.position := fun e => hnot (e ▸ hpv)
      rw [List.count_cons_of_ne hne, h.holds m v hv]
  · intro q
    rw [find?_create, List.mem_cons]
    split
    · simp [*]
    · rename_i hq
      exact ⟨fun hmem => (h.mem q).1 (hmem.resolve_left hq), fun he => .inr ((h.mem q).2 he)⟩

theorem Carries.hold (h : r.Carries held) (p : Point) : (r.hold p).2.Carries (p :: held) := by
  cases hfind : r.find? p with
  | none =>
    rw [hold_of_find?_eq_none hfind]
    exact h.create hfind
  | some n =>
    have hn := (h.find?_eq_some p n).1 hfind
    rw [h.hold_of_find?_eq_some hfind]
    refine h.modifyNode (fun _ => rfl) (fun q => ?_) fun m v hv => ?_
    · rw [List.mem_cons]
      exact ⟨fun hq => hq.elim (fun e => e ▸ h.mem_of_position? hn) id, .inr⟩
    · have hm := position?_eq_some.2 ⟨v, hv, rfl⟩
      rw [List.count_cons]
      by_cases hmn : m = n
      · subst hmn
        have hpv : v.position = p := Option.some.inj (hm.symm.trans hn)
        simp [hpv, h.holds m v hv]
      · have hpv : p ≠ v.position := fun e => hmn (h.eq_of_position? hm (e ▸ hn))
        simp [hmn, hpv, h.holds m v hv]

theorem Carries.position?_hold (h : r.Carries held) (p : Point) (m : NodeId) :
    (r.hold p).2.position? m = if m = (r.hold p).1 then some p else r.position? m := by
  cases hfind : r.find? p with
  | none =>
    rw [hold_of_find?_eq_none hfind, position?, h.node?_create]
    split
    · rfl
    · rfl
  | some n =>
    rw [h.hold_of_find?_eq_some hfind]
    have hstay : (r.modifyNode n fun v => { v with holds := v.holds + 1 }).position? m =
        r.position? m := position?_modifyNode r n m fun _ => rfl
    split
    · rename_i hm
      rw [hstay, hm, ← h.find?_eq_some, hfind]
    · exact hstay

theorem Carries.position?_hold_fst (h : r.Carries held) (p : Point) :
    (r.hold p).2.position? (r.hold p).1 = some p := by
  rw [h.position?_hold, if_pos rfl]

/-- Nodes stay where they are when a place is held. -/
theorem Carries.position?_hold_of_some (h : r.Carries held) (p : Point)
    (hm : r.position? m = some q) : (r.hold p).2.position? m = some q := by
  rw [h.position?_hold]
  split
  · rename_i hfst
    cases hfind : r.find? p with
    | none =>
      have hfresh := h.node?_create_fst p
      rw [hold_of_find?_eq_none hfind] at hfst
      obtain ⟨v, hv, -⟩ := position?_eq_some.1 hm
      rw [hfst, hfresh] at hv
      exact absurd hv (by simp)
    | some n =>
      rw [h.hold_of_find?_eq_some hfind] at hfst
      rw [hfst, (h.find?_eq_some p n).1 hfind] at hm
      exact hm
  · exact hm

/-- Holds two places, one after the other. -/
def holdBoth (r : Registry) (p q : Point) : (NodeId × NodeId) × Registry :=
  (((r.hold p).1, ((r.hold p).2.hold q).1), ((r.hold p).2.hold q).2)

/-- What holding two places gives: a live node at each, and all other nodes stay. -/
structure HeldBoth (r : Registry) (held : List Point) (p q : Point)
    (out : (NodeId × NodeId) × Registry) : Prop where
  carries : out.2.Carries (p :: q :: held)
  fst : out.2.position? out.1.1 = some p
  snd : out.2.position? out.1.2 = some q
  stays : ∀ n x, r.position? n = some x → out.2.position? n = some x
  connections : out.2.connections = r.connections

theorem Carries.holdBoth (h : r.Carries held) (p q : Point) :
    r.HeldBoth held p q (r.holdBoth p q) := by
  have hp : (r.hold p).2.Carries (p :: held) := h.hold p
  refine ⟨(hp.hold q).perm (List.Perm.swap _ _ _), ?_, hp.position?_hold_fst q, ?_, ?_⟩
  · exact hp.position?_hold_of_some q (h.position?_hold_fst p)
  · intro n x hn
    exact hp.position?_hold_of_some q (h.position?_hold_of_some p hn)
  · exact (connections_hold _ q).trans (connections_hold r p)

/-! ## Releasing a place -/

@[simp]
theorem connections_discard (r : Registry) (n : NodeId) :
    (r.discard n).connections = r.connections := by
  unfold discard
  split <;> rfl

@[simp]
theorem connections_release (r : Registry) (n : NodeId) :
    (r.release n).2.connections = r.connections := by
  unfold release
  split
  · rfl
  · split
    · exact connections_discard r n
    · rfl

/-- The node goes with its last hold, and only then. -/
theorem Carries.release_eq (h : r.Carries (p :: held)) (hn : r.position? n = some p) :
    r.release n =
      if p ∈ held then (false, r.modifyNode n fun v => { v with holds := v.holds - 1 })
      else (true, r.discard n) := by
  obtain ⟨v, hv, rfl⟩ := position?_eq_some.1 hn
  have hholds : v.holds = held.count v.position + 1 := by
    rw [h.holds n v hv, List.count_cons_self]
  have hpos : v.holds ≤ 1 ↔ v.position ∉ held := by
    rw [hholds, ← List.count_eq_zero]
    omega
  by_cases hmem : v.position ∈ held
  · simp [Registry.release, hv, hpos, hmem]
  · simp [Registry.release, hv, hpos, hmem]

theorem node?_discard (r : Registry) (n m : NodeId) :
    (r.discard n).node? m = if m = n then none else r.node? m := by
  unfold discard
  split
  · rename_i hn
    split
    · rename_i hm
      rw [hm, hn]
    · rfl
  · exact Arena.get?_erase r.nodes n m

theorem position?_discard (r : Registry) (n m : NodeId) :
    (r.discard n).position? m = if m = n then none else r.position? m := by
  rw [position?, node?_discard, position?]
  split
  · rfl
  · rfl

/-- A discarded node takes along all the holds of its place. -/
theorem Carries.discard (h : r.Carries held) (hn : r.position? n = some p) :
    (r.discard n).Carries (held.filter fun q => decide (q ≠ p)) := by
  obtain ⟨v, hv, hvp⟩ := position?_eq_some.1 hn
  have hfind : r.find? p = some n := (h.find?_eq_some p n).2 hn
  have hfind_discard : ∀ q, (r.discard n).find? q = if q = p then none else r.find? q := by
    intro q
    simp only [Registry.discard, hv, hvp, hfind, if_true]
    exact Table.get?_erase r.places p q
  constructor
  · simp only [Registry.discard, hv]
    exact h.nodes.erase n
  · intro q m
    rw [hfind_discard, position?_discard]
    by_cases hq : q = p
    · subst hq
      by_cases hm : m = n
      · simp [hm]
      · simpa [hm] using fun e => hm (h.eq_of_position? e hn)
    · by_cases hm : m = n
      · have hne : r.find? q ≠ some n := by
          intro e
          have := ((h.find?_eq_some q n).1 e).symm.trans hn
          exact hq (Option.some.inj this)
        simpa [hm, hq] using hne
      · simpa [hm, hq] using h.find?_eq_some q m
  · intro m w hw
    rw [node?_discard] at hw
    split at hw
    · exact absurd hw (by simp)
    · rename_i hm
      have hpw : w.position ≠ p := fun e =>
        hm (h.eq_of_position? (position?_eq_some.2 ⟨w, hw, rfl⟩) (e ▸ hn))
      have hcount := List.count_filter (l := held) (p := fun q => decide (q ≠ p))
        (decide_eq_true hpw)
      rw [h.holds m w hw, hcount]
  · intro q
    rw [hfind_discard]
    by_cases hq : q = p
    · simp [hq]
    · simpa [hq] using h.mem q

theorem Carries.release (h : r.Carries (p :: held)) (hn : r.position? n = some p) :
    (r.release n).2.Carries held := by
  rw [h.release_eq hn]
  split
  · rename_i hmem
    refine h.modifyNode (fun _ => rfl) (fun q => ?_) fun m v hv => ?_
    · rw [List.mem_cons]
      exact ⟨.inr, fun hq => hq.elim (fun e => e ▸ hmem) id⟩
    · have hm := position?_eq_some.2 ⟨v, hv, rfl⟩
      have hholds := h.holds m v hv
      rw [List.count_cons] at hholds
      by_cases hmn : m = n
      · subst hmn
        have hpv : v.position = p := Option.some.inj (hm.symm.trans hn)
        simp [hpv] at hholds ⊢
        omega
      · have hpv : p ≠ v.position := fun e => hmn (h.eq_of_position? hm (e ▸ hn))
        simpa [hmn, hpv] using hholds
  · rename_i hlast
    have hstay : (p :: held).filter (fun q => decide (q ≠ p)) = held := by
      rw [List.filter_cons_of_neg (by simp), List.filter_eq_self]
      intro q hq
      exact decide_eq_true fun e => hlast (e ▸ hq)
    have hdiscarded := h.discard hn
    rwa [hstay] at hdiscarded

theorem Carries.position?_release (h : r.Carries (p :: held)) (hn : r.position? n = some p)
    (m : NodeId) :
    (r.release n).2.position? m = if m = n ∧ p ∉ held then none else r.position? m := by
  rw [h.release_eq hn]
  split
  · rename_i hmem
    rw [if_neg fun hm => hm.2 hmem]
    exact position?_modifyNode r n m fun _ => rfl
  · rename_i hlast
    rw [position?_discard]
    simp [hlast]

/-- A node stays where it is as long as its place is held. -/
theorem Carries.position?_release_of_mem (h : r.Carries (p :: held))
    (hn : r.position? n = some p) (hm : r.position? m = some q) (hq : q ∈ held) :
    (r.release n).2.position? m = some q := by
  rw [h.position?_release hn, if_neg, hm]
  intro hmn
  obtain ⟨rfl, hlast⟩ := hmn
  exact hlast (Option.some.inj (hm.symm.trans hn) ▸ hq)

/-! ## Marks -/

/-- The registries differ at most in which nodes are flagged. -/
structure Remarked (r r' : Registry) : Prop where
  carries : ∀ held, r.Carries held → r'.Carries held
  handles : r'.nodes.handles = r.nodes.handles
  position?_eq : ∀ n, r'.position? n = r.position? n
  connections : r'.connections = r.connections

theorem Remarked.refl (r : Registry) : r.Remarked r :=
  ⟨fun _ h => h, rfl, fun _ => rfl, rfl⟩

theorem Remarked.trans {r'' : Registry} (h : r.Remarked r') (h' : r'.Remarked r'') :
    r.Remarked r'' where
  carries held hr := h'.carries held (h.carries held hr)
  handles := h'.handles.trans h.handles
  position?_eq n := (h'.position?_eq n).trans (h.position?_eq n)
  connections := h'.connections.trans h.connections

theorem remarked_setFlag (r : Registry) (n : NodeId) (flag : Bool) :
    r.Remarked (r.setFlag n flag) where
  carries held h := by
    refine h.modifyNode (fun _ => rfl) (fun _ => Iff.rfl) fun m v hv => ?_
    have hholds := h.holds m v hv
    split <;> exact hholds
  handles := Arena.handles_modify _ _ _
  position?_eq m := position?_modifyNode r n m fun _ => rfl
  connections := rfl

/-! ## Connections -/

theorem foldl_disconnect_eq (cs : List ConnectionId) (r : Registry) :
    cs.foldl disconnect r = { r with connections := cs.foldl Arena.erase r.connections } := by
  induction cs generalizing r with
  | nil => rfl
  | cons c rest ih => exact ih (r.disconnect c)

@[simp]
theorem nodes_foldl_disconnect (cs : List ConnectionId) (r : Registry) :
    (cs.foldl disconnect r).nodes = r.nodes := by
  rw [foldl_disconnect_eq]

@[simp]
theorem places_foldl_disconnect (cs : List ConnectionId) (r : Registry) :
    (cs.foldl disconnect r).places = r.places := by
  rw [foldl_disconnect_eq]

theorem connections_foldl_disconnect (cs : List ConnectionId) (r : Registry) :
    (cs.foldl disconnect r).connections = cs.foldl Arena.erase r.connections := by
  rw [foldl_disconnect_eq]

/-- Live nodes are joined. -/
theorem connect_of_live {s : NodeId × NodeId} (hs : r.nodes.live s.1 = true)
    (ht : r.nodes.live s.2 = true) :
    r.connect s.1 s.2 0.0 =
      .ok ((r.connections.insert (.copper s)).1,
        { r with connections := (r.connections.insert (.copper s)).2 }) := by
  simp [connect, hs, ht, Connection.copper]

end Registry
end Unrouted
