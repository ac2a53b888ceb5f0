import Unrouted.Proofs.Net.Alike
import Unrouted.Proofs.Store.Files

/-!
What a store comes to does not depend on how it came there.  Two histories that leave the
same items tracked leave, once all nets are brought up to date, nets that are alike.
-/

namespace Unrouted

/-- A net without items has nothing to tie and nothing to join. -/
theorem Net.settled_empty (strategy : Strategy) : (Net.empty strategy).Settled :=
  ⟨fun _ _ h => absurd h (by simp [Net.empty]), rfl⟩

namespace Store

variable {options : Options} {s : Store} {items : Table ItemId Item}

/-- The net with a number.  One that is not there has nothing on it. -/
def netAt (s : Store) (code : NetCode) : Net :=
  (s.net? code).getD (Net.empty s.options.strategy)

theorem net?_recalculate (s : Store) (code : NetCode) :
    (s.recalculate none).net? code = (s.net? code).map Net.update := by
  simp [recalculate_none, net?]

/-- The net with a number has the items that are filed there. -/
theorem Files.soundAt (h : s.Files options items) (code : NetCode) :
    ∃ filed : Table ItemId Item, (s.netAt code).Sound filed ∧
      ∀ id, filed.get? id = (items.get? id).filter (·.isOn code.toNat) := by
  rw [netAt]
  cases hnet : s.net? code with
  | none =>
    refine ⟨.empty, Net.Sound.empty _, fun id => ?_⟩
    -- A tracked item is on a net that is there.
    rw [Table.get?_empty, eq_comm, Option.filter_eq_none_iff]
    intro item hitem hon
    have hthere := (h.routed id item hitem).2
    rw [of_decide_eq_true hon] at hthere
    exact absurd hthere (Nat.not_lt.2 (Array.getElem?_eq_none_iff.1 hnet))
  | some net =>
    obtain ⟨history, rfl, htracked⟩ := h.nets code.toNat net hnet
    exact ⟨_, Net.sound_run _ _, htracked⟩

/-- Once all nets are brought up to date, the net with a number is settled, and its items are
those that are filed there. -/
theorem Files.settledAt (h : s.Files options items) (code : NetCode) :
    let net := (s.recalculate none).netAt code
    net.Settled ∧ net.strategy = options.strategy ∧ ∃ filed : Table ItemId Item, net.Sound filed ∧
      ∀ id, filed.get? id = (items.get? id).filter (·.isOn code.toNat) := by
  have hfiled := (h.apply (.recalculate none)).soundAt code
  suffices hsettled : ((s.recalculate none).netAt code).Settled ∧
      ((s.recalculate none).netAt code).strategy = options.strategy from
    ⟨hsettled.1, hsettled.2, hfiled⟩
  rw [netAt, net?_recalculate]
  cases hnet : s.net? code with
  | none =>
    have hstrategy : (s.recalculate none).options.strategy = options.strategy :=
      (congrArg (fun s : Store => s.options.strategy) (recalculate_none s)).trans
        (congrArg Options.strategy h.options_eq)
    rw [hstrategy]
    exact ⟨Net.settled_empty _, rfl⟩
  | some net =>
    obtain ⟨history, rfl, -⟩ := h.nets code.toNat net hnet
    have hupdate : (Net.run (Net.empty options.strategy) history).update =
        Net.run (Net.empty options.strategy) (history ++ [.update]) := by
      rw [Net.run_concat]
      rfl
    rw [Option.map_some, Option.getD_some, hupdate]
    refine ⟨Net.settled_run _ _ ?_, Net.strategy_run _ _⟩
    rw [← hupdate, Net.dirty_update]

/-- Two histories that leave the same items tracked leave nets that are alike once all are
brought up to date, and over every pair the missing links weigh the same. -/
theorem alike_run {options options' : Options} {history history' : List Operation}
    (h : ∀ id, (tracked options history).get? id = (tracked options' history').get? id)
    (code : NetCode) :
    let net := ((run (empty options) history).recalculate none).netAt code
    let net' := ((run (empty options') history').recalculate none).netAt code
    net.Alike net' ∧ (options.strategy = .everyPair → options'.strategy = .everyPair →
      net.weights = net'.weights) := by
  obtain ⟨hsettled, hstrategy, filed, hsound, hfiled⟩ :=
    (files_run options history).settledAt code
  obtain ⟨hsettled', hstrategy', filed', hsound', hfiled'⟩ :=
    (files_run options' history').settledAt code
  have halike := hsettled.alike hsound hsettled' hsound' fun id => by
    rw [hfiled, hfiled', h]
  rwa [hstrategy, hstrategy'] at halike

/-- Two pads, a zone around one of them and a track, one after another. -/
def inOrder : List Operation :=
  [.add (.pad { id := 1, net := 1, position := ⟨2, 2⟩ }),
    .add (.pad { id := 2, net := 1, position := ⟨9, 9⟩ }),
    .add (.zone { id := 1, net := 1, outlines := [[⟨0, 0⟩, ⟨4, 0⟩, ⟨4, 4⟩, ⟨0, 4⟩]] }),
    .add (.track { id := 1, net := 2, start := ⟨0, 0⟩, finish := ⟨7, 1⟩ })]

/-- The same items, after a board that is loaded and left again: a pad that was on another
net, a module that takes pads in and lets one of them go, and an item that stays nowhere. -/
def withDetours : List Operation :=
  [.load
      { modules := [], vias := [{ id := 5, net := 1, position := ⟨2, 2⟩ }], tracks := [],
        zones := [{ id := 1, net := 1, outlines := [[⟨0, 0⟩, ⟨4, 0⟩, ⟨4, 4⟩, ⟨0, 4⟩]] }] },
    .add (.track { id := 1, net := 3, start := ⟨5, 5⟩, finish := ⟨7, 1⟩ }),
    .recalculate (some 1),
    .updateModule
      { id := 4,
        pads := [{ id := 2, net := 1, position := ⟨9, 9⟩ },
          { id := 3, net := 1, position := ⟨1, 1⟩ }] },
    .add (.track { id := 1, net := 2, start := ⟨0, 0⟩, finish := ⟨7, 1⟩ }),
    .remove (.via 5), .recalculate none,
    .updateModule { id := 4, pads := [{ id := 2, net := 1, position := ⟨9, 9⟩ }] },
    .update (.pad { id := 1, net := 1, position := ⟨2, 2⟩ }),
    .add (.via { id := 6, net := 100, position := ⟨3, 3⟩ })]

theorem alike_withDetours :
    let options : Options := { parallelThreshold := 4, strategy := .everyPair, maxNet := 9 }
    let s := (run (empty options) inOrder).recalculate none
    let s' := (run (empty options) withDetours).recalculate none
    s ≠ s' ∧ (s.netAt 1).Alike (s'.netAt 1) ∧ (s.netAt 1).weights = (s'.netAt 1).weights := by
  let options : Options := { parallelThreshold := 4, strategy := .everyPair, maxNet := 9 }
  have hentries : (tracked options inOrder).entries.Perm (tracked options withDetours).entries := by
    decide +kernel
  have hsize : ((run (empty options) inOrder).recalculate none).nets.size ≠
      ((run (empty options) withDetours).recalculate none).nets.size := by decide +kernel
  obtain ⟨halike, hweights⟩ := alike_run (Table.entries_perm_iff.1 hentries) 1
  exact ⟨fun h => hsize (congrArg (fun s : Store => s.nets.size) h), halike, hweights rfl rfl⟩

end Store
end Unrouted
