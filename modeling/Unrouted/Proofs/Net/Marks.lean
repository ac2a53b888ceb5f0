import Unrouted.Proofs.Net.Settled

/-!
The list of marked nodes and the flags of the nodes say the same.  A node comes without a
flag, a flag goes with its node, and a node that is erased leaves the list at once, so the
list never names a dead node, nor one node twice.  Taking the marks off puts back the net
there was before them.
-/

namespace Unrouted
namespace Registry

variable {r r' : Registry} {n m : NodeId}

/-- The node is live and flagged. -/
def isFlagged (r : Registry) (n : NodeId) : Bool := (r.node? n).any Node.flagged

theorem isFlagged_iff : r.isFlagged n = true ↔ ∃ v, r.node? n = some v ∧ v.flagged = true := by
  rw [isFlagged, Option.any_eq_true]

theorem isFlagged_congr (h : r'.nodes = r.nodes) (n : NodeId) :
    r'.isFlagged n = r.isFlagged n := by
  simp only [isFlagged, node?, h]

theorem isFlagged_setFlag (r : Registry) (n m : NodeId) (flag : Bool) :
    (r.setFlag n flag).isFlagged m =
      if m = n then r.nodes.live n && flag else r.isFlagged m := by
  rw [isFlagged, setFlag, node?_modifyNode]
  split
  · rw [node?, Arena.live]
    cases r.nodes.get? n <;> rfl
  · rfl

/-- The flags that are left when some nodes are cleared are on none of these. -/
theorem isFlagged_foldl_setFlag (r : Registry) (ns : List NodeId) (m : NodeId) :
    (ns.foldl (fun r n => r.setFlag n false) r).isFlagged m =
      (r.isFlagged m && !decide (m ∈ ns)) := by
  induction ns generalizing r with
  | nil => simp
  | cons n rest ih =>
    rw [List.foldl_cons, ih, isFlagged_setFlag]
    by_cases hm : m = n
    · simp [hm]
    · simp [hm]

/-- Of two flags set on one node the last one counts. -/
theorem setFlag_setFlag (r : Registry) (n : NodeId) (flag flag' : Bool) :
    (r.setFlag n flag).setFlag n flag' = r.setFlag n flag' := by
  simp only [setFlag, modifyNode, Arena.modify_modify]
  rfl

theorem setFlag_comm (r : Registry) (n m : NodeId) (flag : Bool) :
    (r.setFlag n flag).setFlag m flag = (r.setFlag m flag).setFlag n flag := by
  simp only [setFlag, modifyNode, Arena.modify_comm (fun _ => rfl) r.nodes n m]

theorem setFlag_eq_self {flag : Bool} (h : ∀ v, r.node? n = some v → v.flagged = flag) :
    r.setFlag n flag = r := by
  have hnodes : r.nodes.modify n (fun v => { v with flagged := flag }) = r.nodes := by
    apply Arena.modify_eq_self
    intro v hv
    rw [← h v hv]
  rw [setFlag, modifyNode, hnodes]

/-- Holding a place flags no node and takes no flag away. -/
theorem isFlagged_hold (h : r.nodes.WellFormed) (p : Point) (m : NodeId) :
    (r.hold p).2.isFlagged m = r.isFlagged m := by
  have hcreate : (r.create p).2.isFlagged m = r.isFlagged m := by
    have hget : (r.create p).2.node? m = if m = (r.create p).1 then
        some { position := p, flagged := false, holds := 1 } else r.node? m :=
      Arena.get?_insert h _ m
    rw [isFlagged, hget]
    split
    · rename_i hm
      have hnone : r.node? (r.create p).1 = none := Arena.get?_insert_fst h _
      rw [hm, isFlagged, hnone]
      rfl
    · rfl
  unfold hold
  split
  · exact hcreate
  · split
    · rename_i n _ _
      rw [isFlagged, node?_modifyNode]
      split
      · rename_i hm
        rw [hm, isFlagged]
        cases r.node? n <;> rfl
      · rfl
    · exact hcreate

theorem isFlagged_registerAll (h : r.nodes.WellFormed) (zone : ZoneId) (outlines : List Outline)
    (m : NodeId) : (Polygon.registerAll r zone outlines).2.isFlagged m = r.isFlagged m := by
  induction outlines generalizing r with
  | nil => rfl
  | cons outline rest ih =>
    match outline with
    | [] => exact ih h
    | [_] => exact ih h
    | first :: _ :: _ => exact (ih (wellFormed_hold h first)).trans (isFlagged_hold h first m)

/-- An erased node takes its flag along; the other flags stay. -/
theorem isFlagged_release (r : Registry) (n m : NodeId) :
    (r.release n).2.isFlagged m = (r.isFlagged m && !((r.release n).1 && decide (m = n))) := by
  unfold release
  split
  · simp
  · rename_i v hv
    split
    · rw [isFlagged, node?_discard]
      by_cases hm : m = n
      · simp [hm]
      · simp [hm, isFlagged]
    · rw [isFlagged, node?_modifyNode]
      by_cases hm : m = n
      · simp [hm, hv, isFlagged]
      · simp [hm, isFlagged]

end Registry

namespace Net

variable {net net' : Net} {items : Table ItemId Item}

/-- The marked nodes are the live ones with a flag, each of them once. -/
structure WellMarked (net : Net) : Prop where
  nodup : net.marked.Nodup
  mem : ∀ n, n ∈ net.marked ↔ net.registry.isFlagged n = true

namespace WellMarked

theorem empty (strategy : Strategy) : (Net.empty strategy).WellMarked where
  nodup := List.nodup_nil
  mem n := by simp [Net.empty, Registry.isFlagged, Registry.empty, Registry.node?]

theorem congr (h : net.WellMarked) (hmarked : net'.marked = net.marked)
    (hflags : ∀ n, net'.registry.isFlagged n = net.registry.isFlagged n) : net'.WellMarked where
  nodup := by
    rw [hmarked]
    exact h.nodup
  mem n := by rw [hmarked, hflags, h.mem]

theorem detach (h : net.WellMarked) (id : ItemId) : (net.detach id).WellMarked := by
  refine h.congr ?_ (Registry.isFlagged_congr (nodes_detach net id))
  cases id with
  | pad id => rfl
  | via id => rfl
  | track id => simp only [Net.detach]; split <;> rfl
  | zone id => simp only [Net.detach, untieZone]; split <;> rfl

theorem release (h : net.WellMarked) (n : NodeId) : (net.release n).WellMarked := by
  have hmarked : (net.release n).marked =
      if (net.registry.release n).1 then net.marked.filter fun m => decide (m ≠ n)
      else net.marked := by
    rw [release_eq]
    split <;> rfl
  constructor
  · rw [hmarked]
    split
    · exact h.nodup.filter _
    · exact h.nodup
  · intro m
    rw [Registry.isFlagged_congr (nodes_release net n), Registry.isFlagged_release, hmarked]
    split
    · rename_i herased
      simp [herased, h.mem]
    · rename_i hkept
      simp [hkept, h.mem]

theorem remove (h : net.WellMarked) (id : ItemId) : (net.remove id).WellMarked := by
  cases hc : net.contribution? id with
  | none =>
    rw [remove_of_contribution?_eq_none hc]
    exact h.detach id
  | some c =>
    rw [remove_of_contribution?_eq_some hc]
    have hreleased : (c.nodes.foldl Net.release (net.detach id)).WellMarked :=
      List.foldlRecOn (motive := WellMarked) _ _ (h.detach id) fun _ h n _ => h.release n
    exact hreleased.congr rfl fun _ => rfl

theorem attach {held : List Point} (h : net.WellMarked) (hcarries : net.registry.Carries held)
    (item : Item) : (net.attach item).WellMarked := by
  have hnodes := hcarries.nodes
  cases item with
  | pad pad => exact h.congr rfl (Registry.isFlagged_hold hnodes pad.position)
  | via via => exact h.congr rfl (Registry.isFlagged_hold hnodes via.position)
  | track track =>
    have hboth (m : NodeId) := (Registry.isFlagged_hold
      (Registry.wellFormed_hold hnodes track.start) track.finish m).trans
        (Registry.isFlagged_hold hnodes track.start m)
    rw [attach_track hcarries]
    exact h.congr rfl hboth
  | zone zone =>
    have hmarked : (net.attach (.zone zone)).marked = net.marked := by
      rw [attach_zone]
      unfold tieZone
      split <;> rfl
    refine h.congr hmarked fun m => ?_
    rw [attach_zone, Registry.isFlagged_congr (nodes_tieZone (net.placed zone) zone.id)]
    exact Registry.isFlagged_registerAll hnodes zone.id zone.outlines m

theorem update (h : net.WellMarked) : net.update.WellMarked := by
  obtain ⟨_, _, heq⟩ := retied_tieZones net
  unfold Net.update
  split
  · rw [heq]
    exact h.congr rfl fun _ => rfl
  · exact h

theorem mark (h : net.WellMarked) (n : NodeId) : (net.mark n).WellMarked := by
  unfold Net.mark
  split
  · exact h
  · rename_i v hv
    split
    · exact h
    · rename_i hfree
      have hlive : net.registry.nodes.live n = true := Arena.live_iff.2 ⟨v, hv⟩
      have hnew : n ∉ net.marked := by
        rw [h.mem, Registry.isFlagged, hv]
        simpa using hfree
      constructor
      · rw [List.nodup_append]
        refine ⟨h.nodup, by simp, fun m hm k hk => ?_⟩
        rintro rfl
        exact hnew (List.mem_singleton.1 hk ▸ hm)
      · intro m
        rw [Registry.isFlagged_setFlag, hlive, List.mem_append, List.mem_singleton, h.mem]
        by_cases hm : m = n
        · simp [hm]
        · simp [hm]

theorem clearMarks (h : net.WellMarked) : net.clearMarks.WellMarked where
  nodup := List.nodup_nil
  mem n := by
    rw [Net.clearMarks, Registry.isFlagged_foldl_setFlag]
    simp [h.mem]

theorem apply (h : net.WellMarked) (hsound : net.Sound items) (op : Operation) :
    (net.apply op).WellMarked := by
  cases op with
  | add item =>
    rw [Net.apply, add_eq]
    exact (h.remove item.id).attach (hsound.remove item.id).mirrors.carries item
  | remove id => exact h.remove id
  | update => exact h.update
  | mark n => exact h.mark n
  | clearMarks => exact h.clearMarks
  | setVisible visible => exact h.congr rfl fun _ => rfl

theorem run (h : net.WellMarked) (hsound : net.Sound items) (history : List Operation) :
    (net.run history).WellMarked := by
  induction history generalizing net items with
  | nil => exact h
  | cons op rest ih => exact ih (h.apply hsound op) (hsound.apply op)

end WellMarked

theorem wellMarked_run (strategy : Strategy) (history : List Operation) :
    (run (empty strategy) history).WellMarked :=
  (WellMarked.empty strategy).run (Sound.empty strategy) history

/-! ## Marks that are taken off again -/

theorem clearMarks_of_marked_nil (h : net.marked = []) : net.clearMarks = net := by
  simp only [clearMarks, h, List.foldl_nil]
  rw [← h]

/-- A mark that is cleared leaves no trace, whatever else is marked. -/
theorem clearMarks_mark (net : Net) (n : NodeId) : (net.mark n).clearMarks = net.clearMarks := by
  unfold mark
  split
  · rfl
  · rename_i v hv
    split
    · rfl
    · rename_i hfree
      -- The flags are cleared in the order of the marks, and this node has the last of them.
      have hperm : (net.marked ++ [n]).Perm (n :: net.marked) := List.perm_append_singleton _ _
      have hfirst : (net.registry.setFlag n true).setFlag n false = net.registry := by
        rw [Registry.setFlag_setFlag]
        apply Registry.setFlag_eq_self
        intro w hw
        cases hw.symm.trans hv
        simpa using hfree
      have hcleared :
          (net.marked ++ [n]).foldl (fun r m => r.setFlag m false)
              (net.registry.setFlag n true) =
            net.marked.foldl (fun r m => r.setFlag m false) net.registry := by
        rw [hperm.foldl_eq' fun k _ m _ r => r.setFlag_comm k m false, List.foldl_cons, hfirst]
      simp only [clearMarks, hcleared]

theorem clearMarks_foldl_mark (net : Net) (ns : List NodeId) :
    (ns.foldl mark net).clearMarks = net.clearMarks := by
  induction ns generalizing net with
  | nil => rfl
  | cons n rest ih => rw [List.foldl_cons, ih, clearMarks_mark]

theorem run_mark (net : Net) (ns : List NodeId) :
    net.run (ns.map Operation.mark) = ns.foldl mark net := by
  rw [run, List.foldl_map]
  rfl

/-- The list of marked nodes and the flags agree in every net that a history leaves, and
when nothing is marked, any nodes that are marked and cleared again, live or not and as
often as they come, leave the very net there was. -/
theorem marks_agree_run (strategy : Strategy) (history : List Operation) :
    let net := run (empty strategy) history
    (∀ n v, net.registry.node? n = some v → (v.flagged = true ↔ n ∈ net.marked)) ∧
      net.marked.Nodup ∧ (∀ n ∈ net.marked, net.registry.nodes.live n = true) ∧
      (net.marked = [] →
        ∀ ns : List NodeId, net.run (ns.map Operation.mark ++ [.clearMarks]) = net) := by
  intro net
  have hmarked : net.WellMarked := wellMarked_run strategy history
  refine ⟨fun n v hv => ?_, hmarked.nodup, fun n hn => ?_, fun hnone ns => ?_⟩
  · rw [hmarked.mem, Registry.isFlagged, hv, Option.any_some]
  · obtain ⟨v, hv, -⟩ := Registry.isFlagged_iff.1 ((hmarked.mem n).1 hn)
    exact Arena.live_iff.2 ⟨v, hv⟩
  · rw [run_concat, run_mark]
    exact (clearMarks_foldl_mark net ns).trans (clearMarks_of_marked_nil hnone)

/-- A pad that is erased while its node is marked, and another pad in the slot of that node. -/
def markedLeft : List Operation :=
  [.add (.pad { id := 1, net := 1, position := ⟨2, 2⟩ }),
    .add (.pad { id := 2, net := 1, position := ⟨9, 9⟩ }),
    .mark { index := 0, generation := 0 }, .remove (.pad 1),
    .add (.pad { id := 3, net := 1, position := ⟨5, 1⟩ })]

/-- The handle of the erased pad marks nothing, and the two marks of one pad are one. -/
theorem marks_agree_markedLeft :
    let net := run (empty .everyPair) markedLeft
    let reused : NodeId := { index := 0, generation := 1 }
    let stale : NodeId := { index := 0, generation := 0 }
    let ns : List NodeId := [reused, stale, { index := 1, generation := 0 }, reused]
    net.registry.nodes.live reused = true ∧ net.registry.nodes.live stale = false ∧
      net.marked = [] ∧ (ns.foldl mark net).marked = [reused, { index := 1, generation := 0 }] ∧
      net.run (ns.map Operation.mark ++ [.clearMarks]) = net := by
  have hnone : (run (empty .everyPair) markedLeft).marked = [] := by decide +kernel
  obtain ⟨-, -, -, hcleared⟩ := marks_agree_run .everyPair markedLeft
  exact ⟨by decide +kernel, by decide +kernel, hnone, by decide +kernel, hcleared hnone _⟩

end Net
end Unrouted
