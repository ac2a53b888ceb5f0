import Unrouted.Net.History
import Unrouted.Proofs.Net.Ties

/-!
The items that a history leaves tracked, and what every history keeps true of the net.  The
last item added under a name is tracked until the name is removed; nothing else in the
history has a part in it.
-/

namespace Unrouted
namespace Net

/-- What an operation does to the tracked items. -/
def Operation.track (items : Table ItemId Item) : Operation → Table ItemId Item
  | .add item => items.insert item.id item
  | .remove id => items.erase id
  | .update => items
  | .mark _ => items
  | .clearMarks => items
  | .setVisible _ => items

/-- The items that are tracked after a history. -/
def tracked (history : List Operation) : Table ItemId Item :=
  history.foldl Operation.track .empty

theorem run_concat (net : Net) (history : List Operation) (op : Operation) :
    net.run (history ++ [op]) = (net.run history).apply op := by
  rw [run, List.foldl_append]
  rfl

theorem tracked_concat (history : List Operation) (op : Operation) :
    tracked (history ++ [op]) = op.track (tracked history) := by
  rw [tracked, List.foldl_append]
  rfl

variable {net net' : Net} {items : Table ItemId Item} {id : ItemId} {n : NodeId}

/-! ## What marking changes -/

/-- The nets differ at most in their marks and in whether they are shown. -/
def Remarked (net net' : Net) : Prop :=
  ∃ registry marked visible, net.registry.Remarked registry ∧
    net' = { net with registry, marked, visible }

theorem Remarked.refl (net : Net) : net.Remarked net :=
  ⟨_, _, _, Registry.Remarked.refl net.registry, rfl⟩

theorem remarked_mark (net : Net) (n : NodeId) : net.Remarked (net.mark n) := by
  unfold mark
  split
  · exact Remarked.refl net
  · split
    · exact Remarked.refl net
    · exact ⟨_, _, _, Registry.remarked_setFlag net.registry n true, rfl⟩

theorem remarked_clearMarks (net : Net) : net.Remarked net.clearMarks := by
  have hcleared : net.registry.Remarked
      (net.marked.foldl (fun r n => r.setFlag n false) net.registry) :=
    List.foldlRecOn (motive := net.registry.Remarked) _ _ (Registry.Remarked.refl net.registry)
      fun r h n _ => h.trans (Registry.remarked_setFlag r n false)
  exact ⟨_, _, _, hcleared, rfl⟩

theorem remarked_setVisible (net : Net) (visible : Bool) :
    net.Remarked (net.setVisible visible) :=
  ⟨_, _, _, Registry.Remarked.refl net.registry, rfl⟩

theorem Remarked.dirty (h : net.Remarked net') : net'.dirty = net.dirty := by
  obtain ⟨_, _, _, _, rfl⟩ := h
  rfl

/-- Marks have no part in how a zone is tied. -/
theorem Tied.remarked {id : ZoneId} (h : net.Tied id) (hmarks : net.Remarked net') :
    net'.Tied id := by
  obtain ⟨registry, marked, visible, hregistry, rfl⟩ := hmarks
  refine h.congr rfl rfl hregistry.handles hregistry.position?_eq fun c _ => ?_
  show registry.connections.get? c = net.registry.connections.get? c
  rw [hregistry.connections]

/-! ## What every history keeps -/

/-- The net mirrors the items, and its connections have owners. -/
structure Sound (net : Net) (items : Table ItemId Item) : Prop where
  mirrors : net.Mirrors items []
  wired : net.Wired
  matched : net.Matched

namespace Sound

theorem empty (strategy : Strategy) : (Net.empty strategy).Sound .empty :=
  ⟨Mirrors.empty strategy, Wired.empty strategy, fun _ => rfl⟩

theorem remove (h : net.Sound items) (id : ItemId) : (net.remove id).Sound (items.erase id) :=
  ⟨h.mirrors.remove id, h.wired.remove id, h.matched.remove id⟩

theorem add (h : net.Sound items) (item : Item) :
    (net.add item).Sound (items.insert item.id item) := by
  have hremoved := h.remove item.id
  refine ⟨h.mirrors.add item, ?_, ?_⟩
  · rw [add_eq]
    exact hremoved.wired.attach hremoved.mirrors (Table.get?_erase_self items item.id)
  · rw [add_eq]
    exact hremoved.matched.attach hremoved.mirrors.carries

theorem tieZones (h : net.Sound items) : net.tieZones.Sound items ∧ ∀ id, net.tieZones.Tied id := by
  obtain ⟨hwired, hmatched, htied⟩ := h.wired.tieZones h.mirrors.grounded h.matched
  exact ⟨⟨h.mirrors.tieZones, hwired, hmatched⟩, htied⟩

theorem update (h : net.Sound items) : net.update.Sound items := by
  unfold Net.update
  split
  · have htied := h.tieZones.1
    refine ⟨?_, htied.wired.congr rfl rfl rfl, htied.matched⟩
    exact htied.mirrors.congr rfl rfl fun id => by cases id <;> rfl
  · exact h

theorem remarked (h : net.Sound items) (hmarks : net.Remarked net') : net'.Sound items := by
  obtain ⟨registry, marked, visible, hregistry, rfl⟩ := hmarks
  refine ⟨?_, h.wired.congr hregistry.connections rfl rfl, h.matched⟩
  refine h.mirrors.of_stays (hregistry.carries _ h.mirrors.carries) (fun id => ?_)
    fun n q _ hn => ?_
  · cases id <;> rfl
  · show registry.position? n = some q
    rw [hregistry.position?_eq, hn]

theorem apply (h : net.Sound items) (op : Operation) : (net.apply op).Sound (op.track items) := by
  cases op with
  | add item => exact h.add item
  | remove id => exact h.remove id
  | update => exact h.update
  | mark n => exact h.remarked (remarked_mark net n)
  | clearMarks => exact h.remarked (remarked_clearMarks net)
  | setVisible visible => exact h.remarked (remarked_setVisible net visible)

theorem run (h : net.Sound items) (history : List Operation) :
    (net.run history).Sound (history.foldl Operation.track items) := by
  induction history generalizing net items with
  | nil => exact h
  | cons op rest ih => exact ih (h.apply op)

/-- Removing an unknown item changes nothing. -/
theorem remove_of_get?_eq_none (h : net.Sound items) (hid : items.get? id = none) :
    net.remove id = net := by
  have hc : net.contribution? id = none := h.mirrors.contribution?_eq_none hid
  rw [remove_of_contribution?_eq_none hc]
  cases id with
  | pad id =>
    have hnone : net.pads.get? id = none := by simpa [contribution?] using hc
    simp [detach, Table.erase_of_get?_eq_none hnone]
  | via id =>
    have hnone : net.vias.get? id = none := by simpa [contribution?] using hc
    simp [detach, Table.erase_of_get?_eq_none hnone]
  | track id =>
    have hnone : net.tracks.get? id = none := by simpa [contribution?] using hc
    simp [detach, hnone]
  | zone id =>
    have hnone : net.zones.get? id = none := by simpa [contribution?] using hc
    have hties : net.ties.get? id = none := h.matched.get?_eq_none hnone
    simp [detach, untieZone, hties, Table.erase_of_get?_eq_none hnone]

theorem dirty_remove (h : net.Sound items) (hid : items.get? id ≠ none) :
    (net.remove id).dirty = true := by
  obtain ⟨item, hitem⟩ := Option.ne_none_iff_exists'.1 hid
  obtain ⟨c, hc, -⟩ := h.mirrors.exists_contribution hitem
  rw [remove_of_contribution?_eq_some hc]

theorem dirty_add (h : net.Sound items) (item : Item) : (net.add item).dirty = true := by
  rw [add_eq]
  cases item with
  | pad pad => rfl
  | via via => rfl
  | zone zone => rfl
  | track track => rw [attach_track (h.remove _).mirrors.carries]

end Sound

theorem update_of_dirty (h : net.dirty = true) :
    net.update =
      { net.tieZones with
        missing := net.tieZones.solve, dirty := false, updates := net.tieZones.updates + 1 } := by
  rw [update, if_pos h]

theorem update_of_clean (h : net.dirty = false) : net.update = net := by
  rw [update, h]
  rfl

theorem dirty_update (net : Net) : net.update.dirty = false := by
  cases h : net.dirty with
  | false => rw [update_of_clean h, h]
  | true => rw [update_of_dirty h]

theorem Sound.tied_update (h : net.Sound items) (hdirty : net.dirty = true) (id : ZoneId) :
    net.update.Tied id := by
  rw [update_of_dirty hdirty]
  exact (h.tieZones.2 id).congr rfl rfl rfl (fun _ => rfl) fun _ _ => rfl

theorem sound_run (strategy : Strategy) (history : List Operation) :
    (run (empty strategy) history).Sound (tracked history) :=
  (Sound.empty strategy).run history

/-- An operation leaves a net clean when it updates it, or when the net was clean and nothing
but its marks changes. -/
theorem Sound.apply_clean (h : net.Sound items) {op : Operation}
    (hclean : (net.apply op).dirty = false) :
    (net.dirty = true ∧ op = .update) ∨ (net.dirty = false ∧ net.Remarked (net.apply op)) := by
  have marks (hmarks : net.Remarked (net.apply op)) :
      (net.dirty = true ∧ op = .update) ∨ (net.dirty = false ∧ net.Remarked (net.apply op)) := by
    rw [hmarks.dirty] at hclean
    exact .inr ⟨hclean, hmarks⟩
  cases op with
  | add item => exact absurd hclean (by simp [Net.apply, h.dirty_add])
  | remove id =>
    by_cases hid : items.get? id = none
    · have hsame : net.apply (.remove id) = net := h.remove_of_get?_eq_none hid
      exact marks (by rw [hsame]; exact Remarked.refl net)
    · exact absurd hclean (by simp [Net.apply, h.dirty_remove hid])
  | update =>
    cases hdirty : net.dirty with
    | false =>
      have hsame : net.apply .update = net := update_of_clean hdirty
      exact .inr ⟨rfl, by rw [hsame]; exact Remarked.refl net⟩
    | true => exact .inl ⟨rfl, rfl⟩
  | mark n => exact marks (remarked_mark net n)
  | clearMarks => exact marks (remarked_clearMarks net)
  | setVisible visible => exact marks (remarked_setVisible net visible)

/- A net is clean only while nothing but its marks has changed since its last update. -/
theorem clean_run {P : Net → Prop}
    (hupdate : ∀ (net : Net) items, net.Sound items → net.dirty = true → P net.update)
    (hremarked : ∀ net net' : Net, net.Remarked net' → P net → P net')
    (strategy : Strategy) (history : List Operation) :
    (run (empty strategy) history).dirty = false → P (run (empty strategy) history) := by
  have fold (history : List Operation) {net : Net} {items} (h : net.Sound items)
      (hclean : net.dirty = false → P net) :
      (net.run history).dirty = false → P (net.run history) := by
    induction history generalizing net items with
    | nil => exact hclean
    | cons op rest ih =>
      refine ih (h.apply op) fun hdirty => ?_
      rcases h.apply_clean hdirty with ⟨hwas, rfl⟩ | ⟨hwas, hmarks⟩
      · exact hupdate net items h hwas
      · exact hremarked net _ hmarks (hclean hwas)
  exact fold history (Sound.empty strategy) fun hdirty => absurd hdirty (by simp [Net.empty])

end Net
end Unrouted
