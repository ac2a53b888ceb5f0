import Unrouted.Proofs.Net.Forest
import Unrouted.Proofs.Net.Frame
import Unrouted.Proofs.Net.Undrawn

/-!
The missing links of a net outlive the nodes that they join.  Each operation fills a slot at
most once more, and then in its next generation.  So while no slot comes to the end of its
generations, a handle that was given out once finds the node that it was given out for, or
none.  An end of a missing link that still lives is where the link says.
-/

namespace Unrouted
namespace Registry

variable {r r' r'' : Registry} {n : NodeId} {p : Point}

/-! ## Registries that lose nodes -/

/-- The nodes are among those before, where they were, and each slot is in its generation. -/
structure Thinned (r r' : Registry) : Prop where
  size : r'.nodes.slots.size = r.nodes.slots.size
  generation : ∀ i, r'.nodes.generation i = r.nodes.generation i
  position? : ∀ n p, r'.position? n = some p → r.position? n = some p

namespace Thinned

theorem of_nodes_eq (h : r'.nodes = r.nodes) : r.Thinned r' where
  size := by rw [h]
  generation i := by rw [h]
  position? n p hn := by rwa [position?_congr h] at hn

theorem refl (r : Registry) : r.Thinned r := of_nodes_eq rfl

theorem trans (h : r.Thinned r') (h' : r'.Thinned r'') : r.Thinned r'' where
  size := h'.size.trans h.size
  generation i := (h'.generation i).trans (h.generation i)
  position? n p hn := h.position? n p (h'.position? n p hn)

end Thinned

theorem thinned_modifyNode (r : Registry) (n : NodeId) {f : Node → Node}
    (hf : ∀ v, (f v).position = v.position) : r.Thinned (r.modifyNode n f) where
  size := Arena.size_slots_modify r.nodes n f
  generation := Arena.generation_modify r.nodes n f
  position? m p hm := by rwa [position?_modifyNode r n m hf] at hm

theorem thinned_discard (r : Registry) (n : NodeId) : r.Thinned (r.discard n) := by
  unfold discard
  split
  · exact Thinned.refl r
  · refine ⟨Arena.size_slots_erase r.nodes n, Arena.generation_erase r.nodes n, fun m p hm => ?_⟩
    obtain ⟨v, hv, hp⟩ := position?_eq_some.1 hm
    simp only [node?, Arena.get?_erase] at hv
    split at hv
    · exact absurd hv (by simp)
    · exact position?_eq_some.2 ⟨v, hv, hp⟩

theorem thinned_release (r : Registry) (n : NodeId) : r.Thinned (r.release n).2 := by
  unfold release
  split
  · exact Thinned.refl r
  · split
    · exact thinned_discard r n
    · exact thinned_modifyNode r n fun _ => rfl

/-! ## Registries that gain nodes -/

/-- A slot holds what it held before, or it was empty and was filled in its next generation. -/
structure Grown (r r' : Registry) : Prop where
  size : r.nodes.slots.size ≤ r'.nodes.slots.size
  free : ∀ i ∈ r'.nodes.free, i ∈ r.nodes.free
  slot : ∀ i,
    (r'.nodes.generation i = r.nodes.generation i ∧
      ∀ n, n.index = i → i < r.nodes.slots.size → r'.position? n = r.position? n) ∨
    (i ∈ r.nodes.free ∧ i ∉ r'.nodes.free ∧
      r'.nodes.generation i = r.nodes.generation i + 1)

namespace Grown

theorem of_nodes_eq (h : r'.nodes = r.nodes) : r.Grown r' where
  size := by rw [h]
  free i hi := by rwa [h] at hi
  slot i := .inl ⟨by rw [h], fun n _ _ => position?_congr h n⟩

theorem refl (r : Registry) : r.Grown r := of_nodes_eq rfl

/-- A slot that was filled is not empty any more, so it is not filled twice. -/
theorem trans (h : r.Grown r') (h' : r'.Grown r'') : r.Grown r'' where
  size := Nat.le_trans h.size h'.size
  free i hi := h.free i (h'.free i hi)
  slot i := by
    rcases h.slot i with ⟨hgen, hsame⟩ | ⟨hempty, hfull, hgen⟩
    · rcases h'.slot i with ⟨hgen', hsame'⟩ | ⟨hempty', hfull', hgen'⟩
      · refine .inl ⟨hgen'.trans hgen, fun n hn hi => ?_⟩
        rw [hsame' n hn (Nat.lt_of_lt_of_le hi h.size), hsame n hn hi]
      · exact .inr ⟨h.free i hempty', hfull', by rw [hgen', hgen]⟩
    · rcases h'.slot i with ⟨hgen', -⟩ | ⟨hempty', -, -⟩
      · exact .inr ⟨hempty, fun hi => hfull (h'.free i hi), by rw [hgen', hgen]⟩
      · exact absurd hempty' hfull

end Grown

theorem grown_create (h : r.nodes.WellFormed) (p : Point) : r.Grown (r.create p).2 := by
  let v : Node := { position := p, flagged := false, holds := 1 }
  have hindex : (r.create p).1.index = r.nodes.free.head?.getD r.nodes.slots.size :=
    Arena.index_insert r.nodes v
  have hfree : (r.create p).2.nodes.free = r.nodes.free.tail := Arena.free_insert r.nodes v
  have hgen (i : Nat) : (r.create p).2.nodes.generation i =
      if r.nodes.free.head? = some i then r.nodes.generation i + 1 else r.nodes.generation i :=
    Arena.generation_insert h v i
  refine ⟨Arena.size_slots_insert r.nodes v, fun i hi => ?_, fun i => ?_⟩
  · rw [hfree] at hi
    exact List.mem_of_mem_tail hi
  · by_cases hi : r.nodes.free.head? = some i
    · obtain ⟨rest, hcons⟩ := List.head?_eq_some_iff.1 hi
      have hnodup := h.nodup_free
      rw [hcons, List.nodup_cons] at hnodup
      exact .inr ⟨by simp [hcons], by simp [hfree, hcons, hnodup.1], by rw [hgen, if_pos hi]⟩
    · refine .inl ⟨by rw [hgen, if_neg hi], fun n hn hlt => ?_⟩
      -- The new node is in another slot.
      have hne : n ≠ (r.create p).1 := by
        rintro rfl
        rw [hindex] at hn
        cases hhead : r.nodes.free.head? with
        | none =>
          rw [hhead, Option.getD_none] at hn
          omega
        | some j =>
          rw [hhead, Option.getD_some] at hn
          exact hi (hn ▸ hhead)
      have hget : (r.create p).2.node? n = r.node? n := Arena.get?_insert_of_ne h v hne
      rw [position?, hget, position?]

theorem grown_hold (h : r.nodes.WellFormed) (p : Point) : r.Grown (r.hold p).2 := by
  unfold hold
  split
  · exact grown_create h p
  · rename_i n _
    split
    · have hsize := Arena.size_slots_modify r.nodes n fun v => { v with holds := v.holds + 1 }
      refine ⟨Nat.le_of_eq hsize.symm, fun i hi => ?_, fun i => .inl ⟨?_, ?_⟩⟩
      · unfold modifyNode Arena.modify at hi
        split at hi <;> exact hi
      · exact Arena.generation_modify _ _ _ i
      · exact fun n _ _ => position?_modifyNode r _ n fun _ => rfl
    · exact grown_create h p

theorem grown_holds (h : r.nodes.WellFormed) (places : List Point) :
    r.Grown (r.run (places.map .hold)) := by
  induction places generalizing r with
  | nil => exact Grown.refl r
  | cons p rest ih => exact (grown_hold h p).trans (ih (wellFormed_hold h p))

/-! ## One operation -/

/-- Each slot holds at most what it held before, or it is in its next generation. -/
structure Renewed (r r' : Registry) : Prop where
  size : r.nodes.slots.size ≤ r'.nodes.slots.size
  slot : ∀ i,
    (r'.nodes.generation i = r.nodes.generation i ∧
      ∀ n p, n.index = i → i < r.nodes.slots.size →
        r'.position? n = some p → r.position? n = some p) ∨
    r'.nodes.generation i = r.nodes.generation i + 1

theorem Thinned.renewed (h : r.Thinned r') (h' : r'.Grown r'') : r.Renewed r'' where
  size := Nat.le_trans (Nat.le_of_eq h.size.symm) h'.size
  slot i := by
    rcases h'.slot i with ⟨hgen, hsame⟩ | ⟨-, -, hgen⟩
    · refine .inl ⟨hgen.trans (h.generation i), fun n p hn hi hp => ?_⟩
      rw [hsame n hn (Nat.lt_of_lt_of_eq hi h.size.symm)] at hp
      exact h.position? n p hp
    · exact .inr (by rw [hgen, h.generation])

end Registry

namespace Net

variable {net : Net} {items : Table ItemId Item}

theorem thinned_remove (net : Net) (id : ItemId) :
    net.registry.Thinned (net.remove id).registry := by
  have hdetach : net.registry.Thinned (net.detach id).registry :=
    .of_nodes_eq (nodes_detach net id)
  cases hc : net.contribution? id with
  | none => rwa [remove_of_contribution?_eq_none hc]
  | some c =>
    rw [remove_of_contribution?_eq_some hc]
    exact List.foldlRecOn (motive := fun net' : Net => net.registry.Thinned net'.registry) c.nodes _
      hdetach fun net' h n _ => h.trans
        ((Registry.thinned_release net'.registry n).trans (.of_nodes_eq (nodes_release net' n)))

theorem grown_attach {held : List Point} (h : net.registry.Carries held) (item : Item) :
    net.registry.Grown (net.attach item).registry :=
  (Registry.grown_holds h.nodes item.places).trans (.of_nodes_eq (nodes_attach h item))

theorem thinned_of_undrawn {net' : Net} (h : net'.undrawn = net.undrawn) :
    net.registry.Thinned net'.registry := by
  have hregistry : net'.registry.unflagged = net.registry.unflagged := congrArg Net.registry h
  refine ⟨?_, fun i => ?_, fun n p hn => ?_⟩
  · have hsize := congrArg (fun r : Registry => r.nodes.slots.size) hregistry
    simpa [Registry.unflagged, Arena.map] using hsize
  · have hgen := congrArg (fun r : Registry => r.nodes.generation i) hregistry
    simpa [Registry.unflagged, Arena.generation_map] using hgen
  · rwa [← Registry.position?_unflagged, ← hregistry, Registry.position?_unflagged]

theorem nodes_update (net : Net) : net.update.registry.nodes = net.registry.nodes := by
  obtain ⟨_, _, heq⟩ := retied_tieZones net
  unfold update
  split
  · rw [heq]
  · rfl

/-- Nodes come with an item that is added, and with nothing else. -/
theorem thinned_apply {op : Operation} (h : ∀ item, op ≠ .add item) :
    net.registry.Thinned (net.apply op).registry := by
  cases op with
  | add item => exact absurd rfl (h item)
  | remove id => exact thinned_remove net id
  | update => exact .of_nodes_eq (nodes_update net)
  | mark n => exact thinned_of_undrawn (undrawn_mark net n)
  | clearMarks => exact thinned_of_undrawn (undrawn_clearMarks net)
  | setVisible visible => exact thinned_of_undrawn (undrawn_setVisible net visible)

theorem Sound.renewed_apply (h : net.Sound items) (op : Operation) :
    net.registry.Renewed (net.apply op).registry := by
  by_cases hadd : ∃ item, op = .add item
  · obtain ⟨item, rfl⟩ := hadd
    rw [Net.apply, add_eq]
    exact (thinned_remove net item.id).renewed
      (grown_attach (h.remove item.id).mirrors.carries item)
  · exact (thinned_apply fun item hop => hadd ⟨item, hop⟩).renewed (.refl _)

end Net

/-! ## Links and the nodes that they were found for -/

namespace Registry

variable {r r' : Registry} {n : NodeId} {p : Point}

/-- The node was put there for a handle, however long ago; while it lives it is at `p`. -/
structure Dated (r : Registry) (n : NodeId) (p : Point) : Prop where
  index : n.index < r.nodes.slots.size
  generation : n.generation.toNat ≤ (r.nodes.generation n.index).toNat
  position? : ∀ q, r.position? n = some q → q = p

theorem dated_of_position? (h : r.position? n = some p) : r.Dated n p := by
  obtain ⟨v, hv, -⟩ := position?_eq_some.1 h
  obtain ⟨hgen, hlt⟩ := Arena.generation_of_get? hv
  exact ⟨hlt, by rw [hgen], fun q hq => Option.some.inj (hq.symm.trans h)⟩

/-- A slot in a later generation has no node for an earlier handle. -/
theorem Dated.renewed (h : r.Dated n p) (hrenewed : r.Renewed r')
    (hlater : r'.nodes.generation n.index = r.nodes.generation n.index ∨
      (r.nodes.generation n.index).toNat < (r'.nodes.generation n.index).toNat) :
    r'.Dated n p where
  index := Nat.lt_of_lt_of_le h.index hrenewed.size
  generation := by
    rcases hlater with hsame | hlt
    · rw [hsame]
      exact h.generation
    · exact Nat.le_trans h.generation (Nat.le_of_lt hlt)
  position? q hq := by
    rcases hlater with hsame | hlt
    · rcases hrenewed.slot n.index with ⟨-, hkept⟩ | hnext
      · exact h.position? q (hkept n q rfl h.index hq)
      · rw [hnext] at hsame
        exact absurd hsame (by simp)
    · obtain ⟨v, hv, -⟩ := position?_eq_some.1 hq
      have hgen := (Arena.generation_of_get? hv).1
      rw [hgen] at hlt
      exact absurd h.generation (Nat.not_le.2 hlt)

end Registry

namespace Net

variable {net : Net} {items : Table ItemId Item}

/-- How often a slot of nodes is filled again while a net takes some operations. -/
def refills (net : Net) (i : Nat) : List Operation → Nat
  | [] => 0
  | op :: rest =>
    let next := net.apply op
    (if next.registry.nodes.generation i = net.registry.nodes.generation i then 0 else 1) +
      next.refills i rest

theorem refills_le_length (net : Net) (i : Nat) (history : List Operation) :
    net.refills i history ≤ history.length := by
  induction history generalizing net with
  | nil => exact Nat.le_refl 0
  | cons op rest ih =>
    have hrest := ih (net.apply op)
    simp only [refills, List.length_cons]
    split <;> omega

/-- Each missing link is the straight line between the points where its two nodes are, as long
as they live, and it has a length. -/
def Current (net : Net) : Prop :=
  ∀ l ∈ net.missing, net.registry.Dated l.source l.sourcePosition ∧
    net.registry.Dated l.target l.targetPosition ∧
    l.weight = l.sourcePosition.distance l.targetPosition ∧ Length.zero < l.weight

theorem current_empty (strategy : Strategy) : (empty strategy).Current :=
  fun _ hl => absurd hl List.not_mem_nil

theorem Current.renewed {net' : Net} (h : net.Current)
    (hmissing : net'.missing = net.missing) (hrenewed : net.registry.Renewed net'.registry)
    (hlater : ∀ i, net'.registry.nodes.generation i = net.registry.nodes.generation i ∨
      (net.registry.nodes.generation i).toNat < (net'.registry.nodes.generation i).toNat) :
    net'.Current := by
  intro l hl
  rw [hmissing] at hl
  obtain ⟨hsource, htarget, hstraight⟩ := h l hl
  exact ⟨hsource.renewed hrenewed (hlater _), htarget.renewed hrenewed (hlater _), hstraight⟩

/-- An update finds its links between live nodes. -/
theorem Sound.current_update (h : net.Sound items) (hdirty : net.dirty = true) :
    net.update.Current := by
  have hspanned := spanned_solve h.tieZones.1.mirrors.carries
  rw [update_of_dirty hdirty]
  intro l hl
  obtain ⟨hsource, htarget, hstraight⟩ := hspanned.straight l hl
  exact ⟨Registry.dated_of_position? hsource, Registry.dated_of_position? htarget, hstraight⟩

/-- Only an update finds new links. -/
theorem missing_apply {op : Operation} (h : op ≠ .update) :
    (net.apply op).missing = net.missing := by
  cases op with
  | add item => exact congrArg Frame.missing (frame_add net item)
  | remove id => exact congrArg Frame.missing (frame_remove net id)
  | update => exact absurd rfl h
  | mark n => exact (remarked_mark net n).missing
  | clearMarks => exact (remarked_clearMarks net).missing
  | setVisible visible => exact (remarked_setVisible net visible).missing

/-- The generation of a slot counts how often it was filled again. -/
theorem toNat_generation_apply (h : net.Sound items) (op : Operation) (i : Nat)
    (hlimit : (net.registry.nodes.generation i).toNat + net.refills i [op] < 2 ^ 32) :
    ((net.apply op).registry.nodes.generation i).toNat =
      (net.registry.nodes.generation i).toNat + net.refills i [op] := by
  simp only [refills, Nat.add_zero] at hlimit ⊢
  split at hlimit
  · rename_i hsame
    rw [if_pos hsame, hsame, Nat.add_zero]
  · rename_i hother
    rw [if_neg hother]
    rcases (h.renewed_apply op).slot i with ⟨hsame, -⟩ | hnext
    · exact absurd hsame hother
    · rw [hnext, UInt32.toNat_add]
      exact Nat.mod_eq_of_lt hlimit

theorem Sound.current_apply (h : net.Sound items) (hcurrent : net.Current) (op : Operation)
    (hlimit : ∀ i, (net.registry.nodes.generation i).toNat + net.refills i [op] < 2 ^ 32) :
    (net.apply op).Current := by
  have hlater (i : Nat) :
      (net.apply op).registry.nodes.generation i = net.registry.nodes.generation i ∨
        (net.registry.nodes.generation i).toNat <
          ((net.apply op).registry.nodes.generation i).toNat := by
    have hage := toNat_generation_apply h op i (hlimit i)
    simp only [refills, Nat.add_zero] at hage
    split at hage
    · rename_i hsame
      exact .inl hsame
    · exact .inr (by omega)
  by_cases hop : op = .update
  · subst hop
    cases hdirty : net.dirty with
    | true => exact h.current_update hdirty
    | false => rwa [Net.apply, update_of_clean hdirty]
  · exact hcurrent.renewed (missing_apply hop) (h.renewed_apply op) hlater

/-- As long as no slot comes to the end of its generations, the links stay true to the nodes
that they were found for. -/
theorem Sound.current_run (h : net.Sound items) (hcurrent : net.Current)
    (history : List Operation)
    (hlimit : ∀ i, (net.registry.nodes.generation i).toNat + net.refills i history < 2 ^ 32) :
    (net.run history).Current := by
  induction history generalizing net items with
  | nil => exact hcurrent
  | cons op rest ih =>
    have hfirst (i : Nat) :
        (net.registry.nodes.generation i).toNat + net.refills i [op] < 2 ^ 32 := by
      have hi := hlimit i
      simp only [refills] at hi ⊢
      omega
    refine ih (h.apply op) (h.current_apply hcurrent op hfirst) fun i => ?_
    rw [toNat_generation_apply h op i (hfirst i)]
    have hi := hlimit i
    simp only [refills] at hi ⊢
    omega

theorem current_run (strategy : Strategy) (history : List Operation)
    (h : ∀ i, (empty strategy).refills i history < 2 ^ 32) :
    (run (empty strategy) history).Current :=
  (Sound.empty strategy).current_run (current_empty strategy) history fun i => by
    have hfirst : (empty strategy).registry.nodes.generation i = 0 := by
      simp [empty, Registry.empty, Arena.empty, Arena.generation]
    rw [hfirst]
    simpa using h i

end Net
end Unrouted
