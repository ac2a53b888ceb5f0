import Unrouted.Proofs.Store.Modules

/-!
The nets of a store do not act on each other.  An item that is placed, moved or taken out
changes the net that it leaves and the one that it comes to, a module those of its pads, and
all other nets are left as they are.  So the nets can be brought up to date in any order.
-/

namespace Unrouted
namespace Store

variable {s t u : Store} {item : Item} {id : ItemId} {code : NetCode}

/-- The net with a number is as it was.  If it was not there before, nothing is on it. -/
structure Spares (s t : Store) (code : NetCode) : Prop where
  options_eq : t.options = s.options
  net : t.net? code = s.net? code ∨
    s.net? code = none ∧ t.net? code = some (Net.empty s.options.strategy)

namespace Spares

theorem of_net? (hoptions : t.options = s.options) (h : t.net? code = s.net? code) :
    s.Spares t code :=
  ⟨hoptions, .inl h⟩

theorem trans (h : s.Spares t code) (h' : t.Spares u code) : s.Spares u code := by
  refine ⟨h'.options_eq.trans h.options_eq, ?_⟩
  have hnet := h'.net
  rw [h.options_eq] at hnet
  rcases hnet with hsame | ⟨hnone, hnew⟩
  · rw [hsame]
    exact h.net
  · rcases h.net with hsame | ⟨-, hthere⟩
    · exact .inr ⟨hsame.symm.trans hnone, hnew⟩
    · exact absurd (hnone.symm.trans hthere) (by simp)

end Spares

/-! ## Items -/

theorem spares_remove (h : s.itemNet? id ≠ some code) : s.Spares (s.remove id) code :=
  .of_net? (options_remove s id) (net?_remove_of_ne h)

theorem spares_reach {there : NetCode} (hreach : s.reach? there = some t) (code : NetCode) :
    s.Spares t code := by
  obtain ⟨-, -, rfl⟩ := Files.reach?_eq_some_iff.1 hreach
  refine ⟨rfl, ?_⟩
  simp only [net?, Array.getElem?_append, Array.getElem?_replicate]
  split
  · exact .inl rfl
  · rename_i hnew
    rw [Array.getElem?_eq_none (Nat.not_lt.1 hnew)]
    split
    · exact .inr ⟨rfl, rfl⟩
    · exact .inl rfl

theorem spares_vacated (h : s.itemNet? item.id ≠ some code) :
    s.Spares (s.vacated item) code := by
  unfold vacated
  split
  · exact spares_remove h
  · exact .of_net? rfl rfl

theorem spares_add_of_routes (h : s.itemNet? item.id ≠ some code)
    (hnet : s.options.Routes item.net → item.net ≠ code) : s.Spares (s.add item) code := by
  rcases Files.add_cases s item with ⟨-, hadd⟩ | ⟨hroutes, t, hreach, hadd⟩
  · rw [hadd]
    exact spares_vacated h
  · have hother := net?_modifyNet t item.net (fun net => net.add item) code
    rw [if_neg (hnet hroutes)] at hother
    rw [hadd]
    exact (spares_vacated h).trans ((spares_reach hreach code).trans (.of_net? rfl hother))

theorem itemNet?_add_of_routes (h : s.options.Routes item.net) :
    (s.add item).itemNet? item.id = some item.net := by
  rcases Files.add_cases s item with ⟨hroutes, -⟩ | ⟨-, t, -, hadd⟩
  · exact absurd h hroutes
  · rw [hadd]
    exact Table.get?_insert_self t.itemNets item.id item.net

theorem spares_add (h : s.itemNet? item.id ≠ some code)
    (h' : (s.add item).itemNet? item.id ≠ some code) : s.Spares (s.add item) code := by
  refine spares_add_of_routes h fun hroutes hcode => h' ?_
  rw [itemNet?_add_of_routes hroutes, hcode]

theorem spares_update_of_routes (h : s.itemNet? item.id ≠ some code)
    (hnet : s.options.Routes item.net → item.net ≠ code) : s.Spares (s.update item) code := by
  refine (spares_remove h).trans (spares_add_of_routes ?_ ?_)
  · rw [itemNet?_remove, if_pos rfl]
    exact (Option.some_ne_none code).symm
  · rw [options_remove]
    exact hnet

theorem spares_update (h : s.itemNet? item.id ≠ some code)
    (h' : (s.update item).itemNet? item.id ≠ some code) : s.Spares (s.update item) code := by
  refine spares_update_of_routes h fun hroutes hcode => h' ?_
  rw [itemNet?_update, if_pos rfl, if_pos hroutes, hcode]

/-! ## Modules -/

theorem net?_removeModule {m : ModuleId}
    (h : ∀ p ∈ s.padsOf m, s.itemNet? (.pad p) ≠ some code) :
    (s.removeModule m).net? code = s.net? code := by
  rw [removeModule_eq]
  exact net?_foldl_remove (List.forall_mem_map.2 h)

theorem spares_foldl_update {items : List Item} (hnet : ∀ item ∈ items, item.net ≠ code)
    (h : ∀ item ∈ items, s.itemNet? item.id ≠ some code) :
    s.Spares (items.foldl update s) code := by
  induction items generalizing s with
  | nil => exact .of_net? rfl rfl
  | cons item rest ih =>
    have hitem := hnet item List.mem_cons_self
    have hupdated := spares_update_of_routes (h item List.mem_cons_self) fun _ => hitem
    refine hupdated.trans (ih (fun other hother => ?_) fun other hother => ?_)
    · exact hnet other (List.mem_cons_of_mem item hother)
    -- The item may be the same one again, which is now on its own net or on none.
    · rw [itemNet?_update]
      split
      · split
        · exact fun hcode => hitem (Option.some.inj hcode)
        · exact (Option.some_ne_none code).symm
      · exact h other (List.mem_cons_of_mem item hother)

/-- A pad that the module lists now or listed before is on the net, or the module puts one
there. -/
def Concerns (s : Store) (m : Module) (code : NetCode) : Prop :=
  (∃ p, (p ∈ m.pads.map Pad.id ∨ p ∈ s.padsOf m.id) ∧ s.itemNet? (.pad p) = some code) ∨
    ∃ pad ∈ m.pads, pad.net = code

theorem spares_updateModule {m : Module} (h : ¬s.Concerns m code) :
    s.Spares (s.updateModule m) code := by
  have haway (p : PadId) (hp : p ∈ m.pads.map Pad.id ∨ p ∈ s.padsOf m.id) :
      s.itemNet? (.pad p) ≠ some code := fun hcode => h (.inl ⟨p, hp, hcode⟩)
  have hgone : ∀ id ∈ (s.dropped m).map ItemId.pad, (s.listed m).itemNet? id ≠ some code := by
    intro id hid
    obtain ⟨p, hp, rfl⟩ := List.mem_map.1 hid
    exact haway p (.inr (List.mem_filter.1 hp).1)
  have hlisted : s.Spares (s.listed m) code := .of_net? rfl rfl
  rw [updateModule_eq]
  have hremoved := Spares.of_net? (options_foldl_remove (s.listed m) _) (net?_foldl_remove hgone)
  refine hlisted.trans (hremoved.trans (spares_foldl_update ?_ ?_))
  · intro item hitem
    obtain ⟨pad, hpad, rfl⟩ := List.mem_map.1 hitem
    exact fun hcode => h (.inr ⟨pad, hpad, hcode⟩)
  · intro item hitem
    obtain ⟨pad, hpad, rfl⟩ := List.mem_map.1 hitem
    rw [itemNet?_foldl_remove]
    split
    · exact (Option.some_ne_none code).symm
    · exact haway pad.id (.inl (List.mem_map_of_mem hpad))

/-! ## Bringing nets up to date -/

theorem update_update (net : Net) : net.update.update = net.update :=
  Net.update_of_clean (Net.dirty_update net)

theorem updates_update (net : Net) :
    net.update.updates = net.updates + if net.dirty then 1 else 0 := by
  cases h : net.dirty with
  | true =>
    obtain ⟨connections, ties, hties⟩ := Net.retied_tieZones net
    rw [Net.update_of_dirty h, hties]
    rfl
  | false =>
    rw [Net.update_of_clean h]
    rfl

theorem getElem?_foldl_recalculate (s : Store) (codes : List NetCode) (i : Nat) :
    (codes.foldl (fun s code => s.recalculate (some code)) s).nets[i]? =
      if i ∈ codes.map UInt64.toNat then s.nets[i]?.map Net.update else s.nets[i]? := by
  induction codes generalizing s with
  | nil => simp
  | cons code rest ih =>
    have hone : (s.recalculate (some code)).nets[i]? =
        if code.toNat = i then s.nets[i]?.map Net.update else s.nets[i]? :=
      getElem?_modifyNet s code Net.update i
    rw [List.foldl_cons, ih, hone]
    by_cases hcode : code.toNat = i
    · by_cases hrest : i ∈ rest.map UInt64.toNat
      · simp [hcode, hrest, Function.comp_def, update_update]
      · simp [hcode, hrest]
    · simp [hcode, Ne.symm hcode]

/-- One net after another, in any order: a net that comes again is not changed again. -/
theorem foldl_recalculate {codes : List NetCode}
    (h : ∀ i < s.nets.size, ∃ code ∈ codes, code.toNat = i) :
    codes.foldl (fun s code => s.recalculate (some code)) s = s.recalculate none := by
  have hframe : codes.foldl (fun s code => s.recalculate (some code)) s =
      { s with nets := (codes.foldl (fun s code => s.recalculate (some code)) s).nets } :=
    List.foldlRecOn (motive := fun t : Store => t = { s with nets := t.nets }) codes _ rfl
      fun t ht code _ => by
        rw [ht]
        rfl
  rw [recalculate_none]
  refine ext_nets hframe fun i => ?_
  rw [getElem?_foldl_recalculate, Array.getElem?_map]
  by_cases hi : i < s.nets.size
  · rw [if_pos (List.mem_map.2 (h i hi))]
  · rw [Array.getElem?_eq_none (Nat.not_lt.1 hi)]
    simp

/-- The nets of a store are independent: an operation touches only the nets that its items are
on before or after it, and bringing all nets up to date is the same as doing so with each of
them, in any order. -/
structure Independent (s : Store) : Prop where
  add : ∀ item code, s.itemNet? item.id ≠ some code →
    (s.add item).itemNet? item.id ≠ some code → s.Spares (s.add item) code
  update : ∀ item code, s.itemNet? item.id ≠ some code →
    (s.update item).itemNet? item.id ≠ some code → s.Spares (s.update item) code
  remove : ∀ id code, s.itemNet? id ≠ some code → (s.remove id).net? code = s.net? code
  removeModule : ∀ m code, (∀ p ∈ s.padsOf m, s.itemNet? (.pad p) ≠ some code) →
    (s.removeModule m).net? code = s.net? code
  updateModule : ∀ m code, ¬s.Concerns m code → s.Spares (s.updateModule m) code
  /-- All nets end up clean.  A net that was clean is as it was, and one that was not is
  updated once. -/
  once : ∀ code net, s.net? code = some net →
    ∃ net', (s.recalculate none).net? code = some net' ∧ net'.dirty = false ∧
      net'.updates = net.updates + (if net.dirty then 1 else 0) ∧
      (net.dirty = false → net' = net)
  threshold : ∀ threshold,
    let patient := { s with options := { s.options with parallelThreshold := threshold } }
    patient.recalculate none =
      { s.recalculate none with options := { s.options with parallelThreshold := threshold } }
  anyOrder : ∀ codes : List NetCode, (∀ i < s.nets.size, ∃ code ∈ codes, code.toNat = i) →
    codes.foldl (fun s code => s.recalculate (some code)) s = s.recalculate none

theorem independent (s : Store) : s.Independent where
  add item code h h' := spares_add h h'
  update item code h h' := spares_update h h'
  remove id code h := net?_remove_of_ne h
  removeModule m code h := net?_removeModule h
  updateModule m code h := spares_updateModule h
  once code net hnet := by
    refine ⟨net.update, ?_, Net.dirty_update net, updates_update net, Net.update_of_clean⟩
    rw [net?_recalculate, hnet]
    rfl
  threshold threshold := by simp only [recalculate_none]
  anyOrder codes h := foldl_recalculate h

/-- Pads on three nets, a module with two of them, and settings under which nets are dealt with
side by side. -/
def threeNets : Store :=
  run (empty { parallelThreshold := 2, strategy := .everyPair, maxNet := 9 })
    [.add (.pad { id := 1, net := 1, position := ⟨0, 0⟩ }),
      .add (.pad { id := 2, net := 1, position := ⟨3, 4⟩ }), .recalculate (some 1),
      .updateModule
        { id := 4,
          pads := [{ id := 3, net := 2, position := ⟨0, 0⟩ },
            { id := 5, net := 3, position := ⟨0, 0⟩ }] },
      .add (.via { id := 1, net := 2, position := ⟨6, 8⟩ })]

/-- A pad goes to a net that was not there before, and the nets are brought up to date from the
last one on. -/
theorem independent_threeNets :
    threeNets.Spares (threeNets.update (.pad { id := 5, net := 5, position := ⟨1, 1⟩ })) 2 ∧
      threeNets.Spares (threeNets.update (.pad { id := 5, net := 5, position := ⟨1, 1⟩ })) 4 ∧
      (threeNets.removeModule 4).net? 1 = threeNets.net? 1 ∧
      threeNets.Spares (threeNets.updateModule { id := 4, pads := [] }) 1 ∧
      [3, 2, 1, 0].foldl (fun s code => s.recalculate (some code)) threeNets =
        threeNets.recalculate none ∧
      threeNets.nets.toList.map Net.dirty = [true, false, true, true] := by
  have haway : ∀ p ∈ threeNets.padsOf 4, threeNets.itemNet? (.pad p) ≠ some 1 := by
    have hpads : threeNets.padsOf 4 = [3, 5] := by decide +kernel
    rw [hpads, List.forall_mem_cons, List.forall_mem_singleton]
    decide +kernel
  have hfree : ¬threeNets.Concerns { id := 4, pads := [] } 1 := by
    rintro (⟨p, hp, hnet⟩ | ⟨pad, hpad, -⟩)
    · exact haway p (hp.resolve_left List.not_mem_nil) hnet
    · exact absurd hpad List.not_mem_nil
  have hall : ∀ i < threeNets.nets.size,
      ∃ code ∈ ([3, 2, 1, 0] : List NetCode), code.toNat = i := by
    have hmem : ∀ i < threeNets.nets.size, i ∈ ([3, 2, 1, 0] : List NetCode).map UInt64.toNat := by
      decide +kernel
    exact fun i hi => List.mem_map.1 (hmem i hi)
  exact ⟨(independent threeNets).update _ 2 (by decide +kernel) (by decide +kernel),
    (independent threeNets).update _ 4 (by decide +kernel) (by decide +kernel),
    (independent threeNets).removeModule 4 1 haway,
    (independent threeNets).updateModule _ 1 hfree,
    (independent threeNets).anyOrder [3, 2, 1, 0] hall, by decide +kernel⟩

end Store
end Unrouted
