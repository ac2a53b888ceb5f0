import Unrouted.Proofs.Net.Tracked
import Unrouted.Proofs.Store.Events

/-!
Where the items of a store are filed.  The table of the store and the nets agree on it: each
net is what net operations made of it, and it tracks the items that were placed on it last.
-/

namespace Unrouted
namespace Store

/-- The store files the items: its table has their nets, which are there and can be tracked
on, and each net is one that net operations made and that tracks the items on it. -/
structure Files (options : Options) (s : Store) (items : Table ItemId Item) : Prop where
  options_eq : s.options = options
  nets : ∀ i net, s.nets[i]? = some net → ∃ history,
    Net.run (Net.empty options.strategy) history = net ∧
      ∀ id, (Net.tracked history).get? id = (items.get? id).filter (·.isOn i)
  itemNet : ∀ id, s.itemNet? id = (items.get? id).map Item.net
  named : ∀ id item, items.get? id = some item → item.id = id
  routed : ∀ id item, items.get? id = some item →
    options.Routes item.net ∧ item.net.toNat < s.nets.size
  size : s.nets.size ≤ options.maxNet.toNat + 1

/-- A store with room for a board and with its modules, before the items come. -/
def opened (s : Store) (board : Board) : Store :=
  let s := empty s.options
  let top := if board.maxNet ≤ s.options.maxNet then board.maxNet else s.options.maxNet
  let s := (s.reach? top).getD s
  { s with modules := board.modules.foldl (fun t m => t.insert m.id (m.pads.map Pad.id)) s.modules }

theorem load_eq (s : Store) (board : Board) :
    s.load board = board.items.foldl add (s.opened board) := rfl

/-- The pads that a module lists no longer. -/
def dropped (s : Store) (m : Module) : List PadId :=
  ((s.modules.get? m.id).getD []).filter fun p => !(m.pads.map Pad.id).contains p

/-- A store in which a module lists its pads and no other module does. -/
def listed (s : Store) (m : Module) : Store :=
  let current := m.pads.map Pad.id
  let stripped := s.modules.mapValues fun id pads =>
    if id = m.id then pads else pads.filter fun p => !current.contains p
  { s with modules := stripped.insert m.id current }

theorem updateModule_eq (s : Store) (m : Module) :
    s.updateModule m = (m.pads.map Item.pad).foldl update
      (((s.dropped m).map ItemId.pad).foldl remove (s.listed m)) := by
  rw [List.foldl_map, List.foldl_map]
  rfl

/-- The store once an item that is on another net has left it. -/
def vacated (s : Store) (item : Item) : Store :=
  if (s.itemNet? item.id).any fun code => decide (code ≠ item.net) then s.remove item.id else s

theorem add_eq (s : Store) (item : Item) :
    s.add item = if item.net = noNet then s.vacated item else
      match (s.vacated item).reach? item.net with
      | none => s.vacated item
      | some t =>
        { t.modifyNet item.net fun net => net.add item with
          itemNets := t.itemNets.insert item.id item.net } := rfl

variable {options : Options} {s s' : Store} {items : Table ItemId Item} {id : ItemId}
  {item : Item} {code : NetCode}

theorem getElem?_modifyNet (s : Store) (code : NetCode) (f : Net → Net) (i : Nat) :
    (s.modifyNet code f).nets[i]? = if code.toNat = i then s.nets[i]?.map f else s.nets[i]? := by
  rw [modifyNet, Array.getElem?_modify]

theorem size_modifyNet (s : Store) (code : NetCode) (f : Net → Net) :
    (s.modifyNet code f).nets.size = s.nets.size := by
  rw [modifyNet, Array.size_modify]

/-- Stores that differ in their nets at most are told by these. -/
theorem ext_nets {t : Store} (hframe : t = { s with nets := t.nets })
    (hnets : ∀ i : Nat, t.nets[i]? = s.nets[i]?) : t = s := by
  rw [hframe, Array.ext_getElem? hnets]

theorem modifyNet_congr {f g : Net → Net}
    (h : ∀ net, s.net? code = some net → f net = g net) :
    s.modifyNet code f = s.modifyNet code g := by
  refine ext_nets rfl fun i => ?_
  rw [getElem?_modifyNet, getElem?_modifyNet]
  split
  · rename_i hi
    subst hi
    exact Option.map_congr h
  · rfl

theorem modifyNet_self (s : Store) (code : NetCode) : (s.modifyNet code fun net => net) = s := by
  refine ext_nets rfl fun i => ?_
  rw [getElem?_modifyNet, Option.map_id_apply', ite_self]

theorem modifyNet_modifyNet (s : Store) (code : NetCode) (f g : Net → Net) :
    (s.modifyNet code f).modifyNet code g = s.modifyNet code (g ∘ f) := by
  refine ext_nets rfl fun i => ?_
  rw [getElem?_modifyNet, getElem?_modifyNet, getElem?_modifyNet]
  split
  · rw [Option.map_map]
  · rfl

/-! ## Bringing all nets up to date -/

theorem updateSideBySide_eq (nets : Array Net) : updateSideBySide nets = nets.map Net.update := by
  refine Array.map_congr_left fun net _ => ?_
  cases h : net.dirty with
  | true => rfl
  | false => exact (Net.update_of_clean h).symm

/-- Each net is brought up to date by itself, so the others may come before or after. -/
theorem updateInTurn_eq (nets : Array Net) : updateInTurn nets = updateSideBySide nets := by
  have hturn (done : Array Net) (rest : List Net) :
      rest.foldl (fun done net => done.push (if net.dirty then net.update else net)) done =
        done ++ (rest.map fun net => if net.dirty then net.update else net).toArray := by
    induction rest generalizing done with
    | nil => simp
    | cons net rest ih => simp [ih]
  rw [updateInTurn, updateSideBySide, ← Array.foldl_toList, hturn, Array.empty_append,
    ← Array.toList_map, Array.toArray_toList]

/-- All nets are brought up to date, in whatever way that is done. -/
theorem recalculate_none (s : Store) :
    s.recalculate none = { s with nets := s.nets.map Net.update } := by
  simp only [recalculate, updateInTurn_eq, updateSideBySide_eq, ite_self]
  split
  · rename_i hclean
    have hsame : s.nets.map Net.update = s.nets.map fun net => net := by
      refine Array.map_congr_left fun net hnet => Net.update_of_clean ?_
      simpa using List.countP_eq_zero.1 hclean net (Array.mem_toList_iff.2 hnet)
    rw [hsame, Array.map_id']
  · rfl

namespace Files

theorem empty (options : Options) : (Store.empty options).Files options .empty where
  options_eq := rfl
  nets i net h := absurd h (by simp [Store.empty])
  itemNet id := rfl
  named id item h := absurd h (by simp)
  routed id item h := absurd h (by simp)
  size := Nat.zero_le _

/-- A change of the nets by operations that track nothing. -/
theorem of_runs (h : s.Files options items) (hoptions : s'.options = s.options)
    (hitemNets : s'.itemNets = s.itemNets) (hsize : s'.nets.size = s.nets.size)
    (hnets : ∀ (i : Nat) (net' : Net), s'.nets[i]? = some net' →
      ∃ (net : Net) (ops : List Net.Operation), s.nets[i]? = some net ∧ net.run ops = net' ∧
        ∀ op ∈ ops, ∀ items, Net.Operation.track items op = items) :
    s'.Files options items where
  options_eq := hoptions.trans h.options_eq
  nets i net' hi := by
    obtain ⟨net, ops, hnet, rfl, hidle⟩ := hnets i net' hi
    obtain ⟨history, rfl, htracked⟩ := h.nets i net hnet
    have hsame : Net.tracked (history ++ ops) = Net.tracked history := by
      rw [Net.tracked, List.foldl_append]
      exact List.foldlRecOn (motive := fun t => t = Net.tracked history) ops _ rfl
        fun t ht op hop => (hidle op hop t).trans ht
    exact ⟨history ++ ops, List.foldl_append, fun id => by rw [hsame, htracked]⟩
  itemNet id := by
    rw [itemNet?, hitemNets]
    exact h.itemNet id
  named := h.named
  routed id item hitem := by
    rw [hsize]
    exact h.routed id item hitem
  size := Nat.le_trans (Nat.le_of_eq hsize) h.size

/-- One net is changed by operations that track nothing. -/
theorem modifyNet (h : s.Files options items) (code : NetCode) {f : Net → Net}
    (hf : ∀ net : Net, ∃ ops : List Net.Operation, net.run ops = f net ∧
      ∀ op ∈ ops, ∀ items, Net.Operation.track items op = items) :
    (s.modifyNet code f).Files options items := by
  refine h.of_runs rfl rfl (size_modifyNet s code f) fun i net' hi => ?_
  rw [getElem?_modifyNet] at hi
  split at hi
  · obtain ⟨net, hnet, rfl⟩ := Option.map_eq_some_iff.1 hi
    obtain ⟨ops, hops, hidle⟩ := hf net
    exact ⟨net, ops, hnet, hops, hidle⟩
  · exact ⟨net', [], hi, rfl, fun _ hop => absurd hop List.not_mem_nil⟩

/-- Every net is changed by one operation that tracks nothing. -/
theorem mapNets (h : s.Files options items) {op : Net.Operation}
    (hidle : ∀ items, Net.Operation.track items op = items) :
    { s with nets := s.nets.map fun net : Net => net.apply op }.Files options items := by
  refine h.of_runs rfl rfl Array.size_map fun i net' hi => ?_
  rw [Array.getElem?_map] at hi
  obtain ⟨net, hnet, rfl⟩ := Option.map_eq_some_iff.1 hi
  refine ⟨net, [op], hnet, rfl, fun op' hop items => ?_⟩
  rw [List.mem_singleton.1 hop, hidle]

/-- The modules have no part in it. -/
theorem relist (h : s.Files options items) (modules : Table ModuleId (List PadId)) :
    { s with modules }.Files options items :=
  h.of_runs rfl rfl rfl fun _ net' hi =>
    ⟨net', [], hi, rfl, fun _ hop => absurd hop List.not_mem_nil⟩

/-! ## Dropping -/

theorem get?_eq_none (h : s.Files options items) (hid : s.itemNet? id = none) :
    items.get? id = none := by
  rw [h.itemNet, Option.map_eq_none_iff] at hid
  exact hid

theorem remove_of_itemNet?_eq_none (hid : s.itemNet? id = none) : s.remove id = s := by
  simp only [Store.remove, hid]

theorem remove_of_itemNet?_eq_some (hid : s.itemNet? id = some code) :
    s.remove id =
      { s with itemNets := s.itemNets.erase id }.modifyNet code fun net => net.remove id := by
  simp only [Store.remove, hid]

/-- One net takes an operation that tracks its items anew; on the others the same items stay. -/
theorem nets_modifyNet {kept : Table ItemId Item} (h : s.Files options items)
    (op : Net.Operation)
    (hthere : ∀ t : Table ItemId Item,
      (∀ id, t.get? id = (items.get? id).filter (·.isOn code.toNat)) →
        ∀ id, (op.track t).get? id = (kept.get? id).filter (·.isOn code.toNat))
    (helse : ∀ i, code.toNat ≠ i → ∀ id,
      (kept.get? id).filter (·.isOn i) = (items.get? id).filter (·.isOn i)) :
    ∀ i net, (s.modifyNet code fun net => net.apply op).nets[i]? = some net → ∃ history,
      Net.run (Net.empty options.strategy) history = net ∧
        ∀ id, (Net.tracked history).get? id = (kept.get? id).filter (·.isOn i) := by
  intro i net hi
  rw [getElem?_modifyNet] at hi
  split at hi
  · rename_i hcode
    subst hcode
    obtain ⟨old, hold, rfl⟩ := Option.map_eq_some_iff.1 hi
    obtain ⟨history, rfl, htracked⟩ := h.nets code.toNat old hold
    refine ⟨history ++ [op], Net.run_concat _ _ _, ?_⟩
    rw [Net.tracked_concat]
    exact hthere _ htracked
  · rename_i hcode
    obtain ⟨history, hrun, htracked⟩ := h.nets i net hi
    exact ⟨history, hrun, fun id => by rw [htracked, helse i hcode]⟩

/-- The item goes from the one net that tracks it. -/
theorem remove (h : s.Files options items) (id : ItemId) :
    (s.remove id).Files options (items.erase id) := by
  cases hid : s.itemNet? id with
  | none =>
    rw [remove_of_itemNet?_eq_none hid, Table.erase_of_get?_eq_none (h.get?_eq_none hid)]
    exact h
  | some code =>
    have hnet := h.itemNet id
    rw [hid] at hnet
    obtain ⟨item, hitem, rfl⟩ := Option.map_eq_some_iff.1 hnet.symm
    have hsize := size_modifyNet { s with itemNets := s.itemNets.erase id } item.net
      fun net => net.remove id
    have stays {l : ItemId} {other : Item} (hother : (items.erase id).get? l = some other) :
        items.get? l = some other := by
      rw [Table.get?_erase] at hother
      split at hother
      · exact absurd hother (by simp)
      · exact hother
    rw [remove_of_itemNet?_eq_some hid]
    constructor
    · exact h.options_eq
    · refine h.nets_modifyNet (.remove id) (fun t ht l => ?_) fun i hcode l => ?_
      · rw [Net.Operation.track, Table.get?_erase, Table.get?_erase, ht]
        split <;> rfl
      · rw [Table.get?_erase]
        split
        · rename_i hl
          have hother : item.isOn i = false := decide_eq_false hcode
          rw [hl, hitem, Option.filter_some, hother]
          rfl
        · rfl
    · intro l
      show (s.itemNets.erase id).get? l = _
      rw [Table.get?_erase, Table.get?_erase]
      split
      · rfl
      · exact h.itemNet l
    · exact fun l other hother => h.named l other (stays hother)
    · intro l other hother
      rw [hsize]
      exact h.routed l other (stays hother)
    · rw [hsize]
      exact h.size

/-- A step that brings one event about, taken for one thing after another. -/
theorem foldl {α : Type} {step : Store → α → Store} (event : α → Event)
    (hstep : ∀ {s : Store} {items : Table ItemId Item}, s.Files options items →
      ∀ x, (step s x).Files options ((event x).track options items))
    (h : s.Files options items) (xs : List α) :
    (xs.foldl step s).Files options ((xs.map event).foldl (Event.track options) items) := by
  induction xs generalizing s items with
  | nil => exact h
  | cons x rest ih => exact ih (hstep h x)

/-! ## Placing -/

theorem reach?_eq_some_iff :
    s.reach? code = some s' ↔ code ≤ s.options.maxNet ∧ code ≠ lastNet ∧
      s' = { s with nets := s.nets ++
        Array.replicate (code.toNat + 1 - s.nets.size) (Net.empty s.options.strategy) } := by
  simp only [reach?, accepts, Bool.and_eq_true, decide_eq_true_eq]
  split
  · rename_i hroutes
    simp [hroutes, eq_comm]
  · rename_i hroutes
    constructor
    · intro h
      exact absurd h (by simp)
    · intro h
      exact absurd ⟨h.1, h.2.1⟩ hroutes

/-- Room is made for a net.  The new nets track nothing, and no item is on them. -/
theorem reach (h : s.Files options items) (hreach : s.reach? code = some s') :
    s'.Files options items ∧ code.toNat < s'.nets.size := by
  obtain ⟨hle, -, rfl⟩ := reach?_eq_some_iff.1 hreach
  have hle : code.toNat ≤ options.maxNet.toNat := by
    rw [h.options_eq] at hle
    exact UInt64.le_iff_toNat_le.1 hle
  have hsize := h.size
  simp only [Array.size_append, Array.size_replicate]
  refine ⟨⟨h.options_eq, fun i net hi => ?_, h.itemNet, h.named, fun id item hitem => ?_, ?_⟩, ?_⟩
  · rw [Array.getElem?_append] at hi
    split at hi
    · exact h.nets i net hi
    · rename_i hnew
      rw [Array.getElem?_replicate] at hi
      split at hi
      · obtain rfl := Option.some.inj hi
        refine ⟨[], by rw [h.options_eq]; rfl, fun id => ?_⟩
        have hnone : (items.get? id).filter (·.isOn i) = none := by
          rw [Option.filter_eq_none_iff]
          intro item hitem hon
          have hlt := (h.routed id item hitem).2
          have hon : item.net.toNat = i := of_decide_eq_true hon
          omega
        rw [hnone]
        rfl
      · exact absurd hi (by simp)
  · have hrouted := h.routed id item hitem
    rw [Array.size_append]
    exact ⟨hrouted.1, Nat.lt_add_right _ hrouted.2⟩
  · rw [Array.size_append, Array.size_replicate]
    omega
  · omega

theorem reach_getD (h : s.Files options items) (code : NetCode) :
    ((s.reach? code).getD s).Files options items := by
  cases hreach : s.reach? code with
  | none => exact h
  | some s₁ => exact (h.reach hreach).1

/-- The item is put on its net, which is there, and was on no other. -/
theorem place (h : s.Files options items) (hroutes : options.Routes item.net)
    (hthere : item.net.toNat < s.nets.size)
    (hsame : ∀ old, items.get? item.id = some old → old.net = item.net) :
    { s.modifyNet item.net fun net => net.add item with
      itemNets := s.itemNets.insert item.id item.net }.Files options
        (items.insert item.id item) := by
  have hsize := size_modifyNet s item.net fun net => net.add item
  constructor
  · exact h.options_eq
  · refine h.nets_modifyNet (.add item) (fun t ht l => ?_) fun i hcode l => ?_
    · rw [Net.Operation.track, Table.get?_insert, Table.get?_insert, ht]
      split
      · have hon : item.isOn item.net.toNat = true := decide_eq_true rfl
        rw [Option.filter_some, if_pos hon]
      · rfl
    · rw [Table.get?_insert]
      split
      · rename_i hl
        have hother : ¬item.isOn i = true := fun hon => hcode (of_decide_eq_true hon)
        rw [hl, Option.filter_some, if_neg hother, eq_comm, Option.filter_eq_none_iff]
        intro old hold hon
        rw [Item.isOn, hsame old hold] at hon
        exact hcode (of_decide_eq_true hon)
      · rfl
  · intro l
    show (s.itemNets.insert item.id item.net).get? l = _
    rw [Table.get?_insert, Table.get?_insert]
    split
    · rfl
    · exact h.itemNet l
  · intro l other hother
    rw [Table.get?_insert] at hother
    split at hother
    · rename_i hl
      rw [hl, Option.some.inj hother]
    · exact h.named l other hother
  · intro l other hother
    show _ ∧ _ < (s.modifyNet item.net fun net => net.add item).nets.size
    rw [hsize]
    rw [Table.get?_insert] at hother
    split at hother
    · obtain rfl := Option.some.inj hother
      exact ⟨hroutes, hthere⟩
    · exact h.routed l other hother
  · show (s.modifyNet item.net fun net => net.add item).nets.size ≤ _
    rw [hsize]
    exact h.size

theorem vacated (h : s.Files options items) (item : Item) :
    ∃ kept : Table ItemId Item, (s.vacated item).Files options kept ∧
      (∀ old, kept.get? item.id = some old → old.net = item.net) ∧
      kept.erase item.id = items.erase item.id := by
  unfold Store.vacated
  split
  · refine ⟨items.erase item.id, h.remove item.id, ?_, ?_⟩
    · intro old hold
      rw [Table.get?_erase_self] at hold
      exact absurd hold (by simp)
    · exact Table.erase_of_get?_eq_none (Table.get?_erase_self items item.id)
  · rename_i hstays
    refine ⟨items, h, fun old hold => ?_, rfl⟩
    have hnet := h.itemNet item.id
    rw [hold] at hnet
    simpa [hnet] using hstays

theorem options_vacated (s : Store) (item : Item) : (s.vacated item).options = s.options := by
  unfold Store.vacated Store.remove
  split
  · split <;> rfl
  · rfl

/-- An item is placed if items can be tracked on its net.  Otherwise it only leaves the net
that it is on. -/
theorem add_cases (s : Store) (item : Item) :
    (¬s.options.Routes item.net ∧ s.add item = s.vacated item) ∨
    (s.options.Routes item.net ∧ ∃ t, (s.vacated item).reach? item.net = some t ∧
      s.add item =
        { t.modifyNet item.net fun net => net.add item with
          itemNets := t.itemNets.insert item.id item.net }) := by
  by_cases hroutes : s.options.Routes item.net
  · have hle : item.net ≤ (s.vacated item).options.maxNet := by
      rw [options_vacated]
      exact hroutes.2.1
    have hreach := reach?_eq_some_iff.2 ⟨hle, hroutes.2.2, rfl⟩
    refine .inr ⟨hroutes, _, hreach, ?_⟩
    rw [add_eq, if_neg hroutes.1, hreach]
  · refine .inl ⟨hroutes, ?_⟩
    rw [add_eq]
    split
    · rfl
    · rename_i hzero
      cases hreach : (s.vacated item).reach? item.net with
      | none => rfl
      | some t =>
        obtain ⟨hle, hlast, -⟩ := reach?_eq_some_iff.1 hreach
        rw [options_vacated] at hle
        exact absurd ⟨hzero, hle, hlast⟩ hroutes

theorem add (h : s.Files options items) (item : Item) :
    (s.add item).Files options ((Event.place item).track options items) := by
  obtain ⟨kept, hkept, hsame, herase⟩ := h.vacated item
  rw [← Event.track_place_erase, ← herase, Event.track_place_erase]
  rcases add_cases s item with ⟨hroutes, hadd⟩ | ⟨hroutes, t, hreach, hadd⟩ <;>
    rw [h.options_eq] at hroutes
  · -- An item that was on the same net is on a net that items can be tracked on.
    have hnone : kept.get? item.id = none := by
      apply Option.eq_none_iff_forall_ne_some.2
      intro old hold
      exact hroutes (hsame old hold ▸ (hkept.routed item.id old hold).1)
    rw [hadd, Event.track, if_neg hroutes, Table.erase_of_get?_eq_none hnone]
    exact hkept
  · obtain ⟨hreached, hthere⟩ := hkept.reach hreach
    rw [hadd, Event.track, if_pos hroutes]
    exact hreached.place hroutes hthere hsame

theorem update (h : s.Files options items) (item : Item) :
    (s.update item).Files options ((Event.place item).track options items) := by
  rw [← Event.track_place_erase]
  exact (h.remove item.id).add item

/-! ## Every operation -/

theorem opened (h : s.Files options items) (board : Board) :
    (s.opened board).Files options .empty := by
  have hempty : (Store.empty s.options).Files options .empty := by
    rw [h.options_eq]
    exact Files.empty options
  exact (hempty.reach_getD _).relist _

theorem load (h : s.Files options items) (board : Board) :
    (s.load board).Files options
      ((s.events (.load board)).foldl (Event.track options) items) := by
  rw [load_eq]
  exact foldl .place add (h.opened board) board.items

theorem relisted (h : s.Files options items) (m : Module) :
    (((s.dropped m).map ItemId.pad).foldl Store.remove (s.listed m)).Files options
      ((((s.dropped m).map ItemId.pad).map Event.drop).foldl (Event.track options) items) := by
  have hlisted : (s.listed m).Files options items := h.relist _
  exact foldl .drop remove hlisted _

theorem updateModule (h : s.Files options items) (m : Module) :
    (s.updateModule m).Files options
      ((s.events (.updateModule m)).foldl (Event.track options) items) := by
  have hdone := foldl .place update (h.relisted m) (m.pads.map Item.pad)
  rw [← List.foldl_append, List.map_map, List.map_map] at hdone
  rw [updateModule_eq]
  exact hdone

theorem removeModule (h : s.Files options items) (id : ModuleId) :
    (s.removeModule id).Files options
      ((s.events (.removeModule id)).foldl (Event.track options) items) := by
  simp only [Store.removeModule, events]
  cases hid : s.modules.get? id with
  | none => exact h
  | some pads =>
    have hdone := foldl .drop remove (h.relist (s.modules.erase id)) (pads.map ItemId.pad)
    rw [List.foldl_map, List.map_map] at hdone
    exact hdone

theorem mark (h : s.Files options items) (id : ItemId) : (s.mark id).Files options items := by
  unfold Store.mark
  split
  · exact h
  · refine h.modifyNet _ fun net => ⟨(net.nodesOf id).map .mark, ?_, fun op hop _ => ?_⟩
    · rw [Net.run, List.foldl_map]
      rfl
    · obtain ⟨n, -, rfl⟩ := List.mem_map.1 hop
      rfl

theorem apply (h : s.Files options items) (op : Operation) :
    (s.apply op).Files options ((s.events op).foldl (Event.track options) items) := by
  have single {op : Net.Operation} (hidle : ∀ items, op.track items = items) :
      ∀ op' ∈ [op], ∀ items, Net.Operation.track items op' = items := by
    intro op' hop
    rw [List.mem_singleton.1 hop]
    exact hidle
  cases op with
  | load board => exact h.load board
  | add item => exact h.add item
  | update item => exact h.update item
  | remove id => exact h.remove id
  | updateModule m => exact h.updateModule m
  | removeModule id => exact h.removeModule id
  | recalculate net =>
    cases net with
    | some code => exact h.modifyNet code fun net => ⟨[.update], rfl, single fun _ => rfl⟩
    | none =>
      rw [Store.apply, recalculate_none]
      exact h.mapNets fun items => (rfl : Net.Operation.track items .update = items)
  | mark id => exact h.mark id
  | markModule id =>
    exact List.foldlRecOn (motive := fun s : Store => s.Files options items) _ _ h
      fun s h p _ => h.mark (.pad p)
  | clearMarks =>
    exact h.mapNets fun items => (rfl : Net.Operation.track items .clearMarks = items)
  | setVisible code visible =>
    exact h.modifyNet code fun net => ⟨[.setVisible visible], rfl, single fun _ => rfl⟩

theorem run (h : s.Files options items) (history : List Operation) :
    (s.run history).Files options ((s.eventsOf history).foldl (Event.track options) items) := by
  induction history generalizing s items with
  | nil => exact h
  | cons op rest ih =>
    rw [eventsOf, List.foldl_append]
    exact ih (h.apply op)

end Files

theorem files_run (options : Options) (history : List Operation) :
    (run (empty options) history).Files options (tracked options history) :=
  (Files.empty options).run history

/-! ## Table and nets -/

/-- The items on a net are those that the net tracks. -/
theorem Files.tracksItem_iff (h : s.Files options items) {net : Net}
    (hnet : s.net? code = some net) :
    net.tracksItem id = true ↔ ∃ item, items.get? id = some item ∧ item.net = code := by
  obtain ⟨history, rfl, htracked⟩ := h.nets code.toNat net hnet
  have hsound := Net.sound_run options.strategy history
  rw [Net.tracksItem_eq, hsound.mirrors.tracked, htracked, Option.isSome_iff_exists]
  simp only [Option.filter_eq_some_iff, Item.isOn, decide_eq_true_eq, UInt64.toNat_inj]

theorem Files.itemNet?_eq_some (h : s.Files options items) :
    s.itemNet? id = some code ↔ ∃ item, items.get? id = some item ∧ item.net = code := by
  rw [h.itemNet, Option.map_eq_some_iff]

theorem Files.net?_isSome (h : s.Files options items) (hid : s.itemNet? id = some code) :
    ∃ net, s.net? code = some net := by
  obtain ⟨item, hitem, rfl⟩ := h.itemNet?_eq_some.1 hid
  exact ⟨_, Array.getElem?_eq_getElem (h.routed id item hitem).2⟩

/-- The table of the store and its nets agree, and say what the last event of each item
asked for.  A net on which an item is tracked is there, and the nets are no more than the
highest number allows. -/
structure Consistent (options : Options) (s : Store) (events : List Event) : Prop where
  itemNet : ∀ id code, s.itemNet? id = some code ↔ options.Routes code ∧
    ∃ item, Event.last? events id = some (.place item) ∧ item.net = code
  tracksItem : ∀ id code, (s.net? code).any (·.tracksItem id) = true ↔ s.itemNet? id = some code
  alone : ∀ id code code', (s.net? code).any (·.tracksItem id) = true →
    (s.net? code').any (·.tracksItem id) = true → code = code'
  there : ∀ id code, s.itemNet? id = some code → ∃ net, s.net? code = some net
  noNet : ∀ id, (s.net? noNet).any (·.tracksItem id) = false
  size : s.nets.size ≤ options.maxNet.toNat + 1

theorem consistent_run (options : Options) (history : List Operation) :
    (run (empty options) history).Consistent options ((empty options).eventsOf history) := by
  have h := files_run options history
  generalize run (empty options) history = s at h
  have htracks (id : ItemId) (code : NetCode) :
      (s.net? code).any (·.tracksItem id) = true ↔ s.itemNet? id = some code := by
    rw [Option.any_eq_true]
    constructor
    · intro hnet
      obtain ⟨net, hnet, hid⟩ := hnet
      exact h.itemNet?_eq_some.2 ((h.tracksItem_iff hnet).1 hid)
    · intro hid
      obtain ⟨net, hnet⟩ := h.net?_isSome hid
      exact ⟨net, hnet, (h.tracksItem_iff hnet).2 (h.itemNet?_eq_some.1 hid)⟩
  have hroutes (id : ItemId) (code : NetCode) (hid : s.itemNet? id = some code) :
      options.Routes code := by
    obtain ⟨item, hitem, rfl⟩ := h.itemNet?_eq_some.1 hid
    exact (h.routed id item hitem).1
  constructor
  · intro id code
    rw [h.itemNet?_eq_some, tracked, Event.get?_foldl_track]
    simp only [Option.bind_eq_some_iff]
    constructor
    · intro hlast
      obtain ⟨item, ⟨e, he, hplaced⟩, rfl⟩ := hlast
      obtain ⟨rfl, hroutes⟩ := Event.item?_eq_some_iff.1 hplaced
      exact ⟨hroutes, item, he, rfl⟩
    · intro hlast
      obtain ⟨hroutes, item, he, rfl⟩ := hlast
      exact ⟨item, ⟨_, he, Event.item?_eq_some_iff.2 ⟨rfl, hroutes⟩⟩, rfl⟩
  · exact htracks
  · intro id code code' hcode hcode'
    rw [htracks] at hcode hcode'
    exact Option.some.inj (hcode.symm.trans hcode')
  · exact fun id code hid => h.net?_isSome hid
  · intro id
    rw [Bool.eq_false_iff, ne_eq, htracks]
    exact fun hid => (hroutes id noNet hid).1 rfl
  · exact h.size

end Store
end Unrouted
